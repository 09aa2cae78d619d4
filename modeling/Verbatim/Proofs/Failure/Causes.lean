import Verbatim.Proofs.Nesting.Limit

/-! # Causes of failure

A parse fails because a call is never closed, because no expression starts where one is required, or
because too much is open. The tokens that it requires besides it has seen before, so that there the
requirement is always met.
-/

namespace Verbatim

open Token (Kind Stream)

namespace Token.Stream

variable {s : Stream} {kind : Kind}

theorem consumeText_of_next (h : s.next.kind = kind) :
    s.consumeText (some kind) = .ok (s.next.sourceText, s.advance) := by
  simp [consumeText, consume, h, Except.map]

theorem consumeText_cons {t : Token} (h : t.kind = kind) (s : Stream) :
    Stream.consumeText (t :: s) (some kind) = .ok (t.sourceText, s) :=
  consumeText_of_next h

theorem consumeText_of_ne (h : s.next.kind ≠ kind) :
    s.consumeText (some kind) = .error (.expectedAt kind s.next) := by
  simp [consumeText, consume, h, Except.map]

@[simp] theorem peek_zero (s : Stream) : s.peek 0 = s.next := by
  cases s <;> rfl

@[simp] theorem peek_one (s : Stream) : s.peek 1 = s.advance.next := by
  rcases s with _ | ⟨t, _ | ⟨u, s⟩⟩ <;> rfl

theorem peekIs_zero_iff : s.peekIs kind 0 ↔ s.next.kind = kind := by
  simp [peekIs]

theorem peekIs_one_iff : s.peekIs kind 1 ↔ s.advance.next.kind = kind := by
  simp [peekIs]

theorem take_length_gap (s : Stream) : s.take s.gap.length = s.gap := by
  have h := congrArg (List.take s.gap.length) s.gap_append_pastGap
  rw [List.take_left] at h
  exact h.symm

theorem drop_length_gap (s : Stream) : s.drop s.gap.length = s.pastGap := by
  have h := congrArg (List.drop s.gap.length) s.gap_append_pastGap
  rw [List.drop_left] at h
  exact h.symm

theorem next_mem_or_eq (s : Stream) : s.next ∈ s ∨ s.next = endOfStream := by
  cases s with
  | nil => exact .inr rfl
  | cons t s => exact .inl List.mem_cons_self

end Token.Stream

theorem Args.Fits.eq_nil_or_next {ops : Operators} : ∀ {args : Args} {rest : Stream},
    args.Fits ops rest → rest = [] ∨ rest.next.kind = .rightParen
  | .nil, _, h => h
  | .trivia .., _, h => h.2.eq_nil_or_next
  | .phrase .., _, h => h.2.2.eq_nil_or_next

def outcome {α : Type} {n : Nat} (r : Except ParseError (Parsed α n)) :
    Except ParseError (α × Stream) :=
  r.map fun p => (p.value, p.rest)

namespace Grammar

variable (g : Grammar)

/-- An operand, with every token that is required checked when it is consumed. -/
def operandChecked (depth : Nat) (s : Stream) : Except ParseError (Expr × Stream) :=
  if s.peekIs .identifier 0 then
    if s.peekIs .leftParen 1 then do
      let (_, rest) ← s.consumeText (some .identifier)
      let (_, rest) ← rest.consumeText (some .leftParen)
      let (args, rest) ← outcome (g.arguments depth rest)
      let (_, after) ← rest.consumeText (some .rightParen)
      .ok (.call (s.peek 0) (s.peek 1) args rest.next, after)
    else do
      let (_, rest) ← s.consumeText (some .identifier)
      .ok (.name (s.peek 0), rest)
  else .error (.noProductionAt (s.peek 0))

def climbChecked (depth : Nat) (minimum : UInt32) (left : Expr) (s : Stream) :
    Except ParseError (Expr × Stream) :=
  let (ahead, t) := s.peekPastGap
  match g.operators.get? t.kind with
  | none => .ok (left, s)
  | some op =>
    if op.precedence < minimum then .ok (left, s)
    else do
      let (_, rest) ← Stream.consumeText (s.drop ahead) (some t.kind)
      g.checkDepth depth rest.pastTrivia
      let (right, after) ← outcome (g.chain (depth + 1) op.rightMinimum rest.pastTrivia)
      outcome (g.climb depth minimum (.binary left (s.take ahead) t rest.trivia right) after)

/-- A call consumes a token that has to be of the given kind, and has seen that it is. -/
inductive Expects : Call → Kind → Stream → Prop where

  | name {depth : Nat} {s : Stream} :
      s.peekIs .identifier 0 → Expects (.operand depth s) .identifier s

  | opening {depth : Nat} {s : Stream} : s.peekIs .identifier 0 → s.peekIs .leftParen 1 →
      Expects (.operand depth s) .leftParen s.advance

  | operator {depth : Nat} {minimum : UInt32} {left : Expr} {s : Stream} {op : Operator} :
      g.operators.get? s.peekPastGap.2.kind = some op → minimum ≤ op.precedence →
      Expects (.climb depth minimum left s) s.peekPastGap.2.kind (s.drop s.peekPastGap.1)

/-- The errors with which reading `tokens` may fail. -/
inductive Fatal (tokens : List Token) : ParseError → Prop where

  | unclosed {stack : List Frame} {depth : Nat} {before : List Token} {callee opening : Token}
      {args : Args} : tokens = before ++ callee :: opening :: args.tokens →
      callee.kind = .identifier → opening.kind = .leftParen →
      g.Runs (.program tokens) stack (.operand depth (callee :: opening :: args.tokens)) →
      Reads (g.arguments depth args.tokens) args [] →
      Fatal tokens (.expected .rightParen .endOfStream ⟨0, 0⟩)

  | noProduction {t : Token} : t ∈ tokens ∨ t = Token.endOfStream → t.kind ≠ .identifier →
      ¬ t.isTrivia → Fatal tokens (.noProduction t.kind t.sourceText t.position)

  | tooDeep {limit : Nat} {position : Position} :
      g.depthLimit = some limit → Fatal tokens (.tooDeep limit position)

variable {g}

section Checks

variable {depth : Nat} {minimum : UInt32} {left : Expr} {s rest : Stream} {α : Type} {n : Nat}

theorem outcome_of_reads {r : Except ParseError (Parsed α n)} {a : α} (h : Reads r a rest) :
    outcome r = .ok (a, rest) := by
  obtain ⟨_, rfl⟩ := h
  rfl

theorem outcome_eq {r : Except ParseError (Parsed α n)} {x : Except ParseError (α × Stream)}
    (hr : ∀ a rest, Reads r a rest → x = .ok (a, rest)) (he : ∀ e, r = .error e → x = .error e) :
    outcome r = x := by
  cases r with
  | ok p => exact (hr p.value p.rest ⟨p.rest_lt, rfl⟩).symm
  | error e => exact (he e rfl).symm

theorem operandChecked_call {callee opening : Token} (hc : callee.kind = .identifier)
    (ho : opening.kind = .leftParen) : g.operandChecked depth (callee :: opening :: s) = (do
      let (args, rest) ← outcome (g.arguments depth s)
      let (_, after) ← rest.consumeText (some .rightParen)
      .ok (.call callee opening args rest.next, after)) := by
  have hname : Stream.peekIs (callee :: opening :: s) .identifier 0 :=
    Stream.peekIs_zero_iff.mpr hc
  have hopening : Stream.peekIs (callee :: opening :: s) .leftParen 1 :=
    Stream.peekIs_one_iff.mpr ho
  rw [operandChecked, if_pos hname, if_pos hopening, Stream.consumeText_cons hc]
  show (Stream.consumeText (opening :: s) (some .leftParen) >>= _) = _
  rw [Stream.consumeText_cons ho]
  rfl

theorem climbChecked_of_stops (h : g.operators.StopsAt minimum s) :
    g.climbChecked depth minimum left s = .ok (left, s) := by
  cases hop : g.operators.get? s.pastGap.next.kind with
  | none => simp [climbChecked, Stream.peekPastGap, hop]
  | some op => simp [climbChecked, Stream.peekPastGap, hop, h op hop]

theorem climbChecked_of_operator {op : Operator}
    (hop : g.operators.get? s.pastGap.next.kind = some op) (hle : minimum ≤ op.precedence) :
    g.climbChecked depth minimum left s = (do
      g.checkDepth depth s.pastOperator.pastTrivia
      let (right, after) ←
        outcome (g.chain (depth + 1) op.rightMinimum s.pastOperator.pastTrivia)
      outcome (g.climb depth minimum
        (.binary left s.gap s.pastGap.next s.pastOperator.trivia right) after)) := by
  have hlt : ¬ op.precedence < minimum := UInt32.not_lt.mpr hle
  simp only [climbChecked, Stream.peekPastGap, hop, if_neg hlt, Stream.take_length_gap,
    Stream.drop_length_gap, Stream.consumeText_of_next rfl]
  rfl

theorem outcome_operand (depth : Nat) (s : Stream) :
    outcome (g.operand depth s) = g.operandChecked depth s := by
  refine outcome_eq (fun e rest h => ?_) (fun e h => ?_)
  · rcases reads_operand_iff.mp h with ⟨ident, rfl, hi, hn, rfl⟩ |
      ⟨callee, opening, args, closing, mid, rfl, hc, ho, hr, ha, rfl⟩
    · have hname : Stream.peekIs (ident :: rest) .identifier 0 := Stream.peekIs_zero_iff.mpr hi
      have hopening : ¬ Stream.peekIs (ident :: rest) .leftParen 1 :=
        Stream.peekIs_one_iff.not.mpr hn
      rw [operandChecked, if_pos hname, if_neg hopening, Stream.consumeText_cons hi]
      rfl
    · rw [operandChecked_call hc ho, outcome_of_reads ha]
      show (Stream.consumeText (closing :: rest) (some .rightParen) >>= _) = _
      rw [Stream.consumeText_cons hr]
      rfl
  · rcases operand_eq_error_iff.mp h with
      ⟨hi, he⟩ | ⟨callee, opening, mid, rfl, hc, ho, ha | ⟨args, rest, ha, hr, he⟩⟩
    · rw [operandChecked, if_neg (Stream.peekIs_zero_iff.not.mpr hi), Stream.peek_zero, he]
    · rw [operandChecked_call hc ho, ha]
      rfl
    · rw [operandChecked_call hc ho, outcome_of_reads ha]
      show (rest.consumeText (some .rightParen) >>= _) = _
      rw [Stream.consumeText_of_ne hr, he]
      rfl

theorem outcome_climb (depth : Nat) (minimum : UInt32) (left : Expr) (s : Stream) :
    outcome (g.climb depth minimum left s) = g.climbChecked depth minimum left s := by
  refine outcome_eq (fun e rest h => ?_) (fun e h => ?_)
  · rcases reads_climb_iff.mp h with ⟨hs, rfl, rfl⟩ | ⟨op, right, mid, hop, hle, hd, hr, h⟩
    · exact climbChecked_of_stops hs
    · rw [climbChecked_of_operator hop hle, checkDepth_eq_ok_iff.mpr hd, outcome_of_reads hr]
      exact outcome_of_reads h
  · obtain ⟨op, hop, hle, hd | ⟨hd, hr | ⟨right, mid, hr, h⟩⟩⟩ := climb_eq_error_iff.mp h
    · rw [climbChecked_of_operator hop hle, hd]
      rfl
    · rw [climbChecked_of_operator hop hle, hd, hr]
      rfl
    · rw [climbChecked_of_operator hop hle, hd, outcome_of_reads hr]
      exact congrArg outcome h

theorem Expects.consumeText {c : Call} {kind : Kind} (h : g.Expects c kind s) :
    ∃ text rest, s.consumeText (some kind) = .ok (text, rest) := by
  cases h with
  | name hi => exact ⟨_, _, Stream.consumeText_of_next (Stream.peekIs_zero_iff.mp hi)⟩
  | opening _ ho => exact ⟨_, _, Stream.consumeText_of_next (Stream.peekIs_one_iff.mp ho)⟩
  | operator =>
    refine ⟨_, _, Stream.consumeText_of_next ?_⟩
    rw [Stream.peekPastGap, Stream.drop_length_gap]

end Checks

def Call.SkipsTrivia : Call → Prop
  | .phrase depth _ s => depth = 0 ∨ ¬ s.next.isTrivia
  | .chain _ _ s | .operand _ s => ¬ s.next.isTrivia
  | .program _ | .climb .. | .arguments .. => True

variable {c c' : Call} {opened stack : List Frame} {tokens : List Token}

theorem Makes.skipsTrivia (h : g.Makes c opened c') (hc : c.SkipsTrivia) : c'.SkipsTrivia := by
  cases h with
  | programPhrase => exact .inl rfl
  | phraseChain => exact Stream.next_pastTrivia_not_isTrivia _
  | chainOperand => exact hc
  | climbChain => exact Stream.next_pastTrivia_not_isTrivia _
  | argumentsPhrase _ ht => exact .inr ht
  | programProgram | chainClimb | operandArguments | climbClimb | argumentsTrivia |
    argumentsArguments => trivial

theorem Runs.skipsTrivia (h : g.Runs (.program tokens) stack c) : c.SkipsTrivia := by
  induction h with
  | start => trivial
  | step _ hm ih => exact hm.skipsTrivia ih

/-- Arguments behind which no closing parenthesis comes are read to the end. -/
theorem Runs.eq_nil_of_unclosed {depth : Nat} {callee opening : Token} {s rest : Stream}
    {args : Args} (hr : g.Runs (.program tokens) stack (.operand depth (callee :: opening :: s)))
    (ha : Reads (g.arguments depth s) args rest) (hn : rest.next.kind ≠ .rightParen) :
    rest = [] ∧ s = args.tokens := by
  obtain ⟨hdepth, -⟩ := hr.stacked.within
  obtain ⟨htok, hf, -⟩ := g.sound.2.1 _ _ (hdepth ▸ hr.stacked.allowed) _ _ ha
  obtain rfl := hf.eq_nil_or_next.resolve_right hn
  exact ⟨rfl, htok.trans (List.append_nil _)⟩

theorem Raises.fatal {e : ParseError} (h : g.Raises e c) (hr : g.Runs (.program tokens) stack c) :
    g.Fatal tokens e := by
  cases h with
  | expression hd =>
    obtain ⟨limit, hl, -, rfl⟩ := checkDepth_eq_error_iff.mp hd
    exact .tooDeep hl
  | right _ _ hd =>
    obtain ⟨limit, hl, -, rfl⟩ := checkDepth_eq_error_iff.mp hd
    exact .tooDeep hl
  | @noProduction _ s hi he =>
    subst he
    exact .noProduction (s.next_mem_or_eq.imp_left fun h => hr.stream_suffix.mem h) hi
      hr.skipsTrivia
  | unclosed hc ho ha hn he =>
    subst he
    obtain ⟨rfl, rfl⟩ := hr.eq_nil_of_unclosed ha hn
    obtain ⟨before, hb⟩ := hr.stream_suffix
    exact .unclosed hb.symm hc ho hr ha

end Grammar

namespace Block

open Grammar

/-- A parse fails in one of three ways. Reading comes to the same with each required token checked
when it is consumed, and of these checks only that of the closing parenthesis can fail. -/
theorem fatal_of_parse (ops : Operators) (tokens : List Token) :
    let g : Grammar := { operators := ops }
    (∀ e, parse g tokens = .error e → g.Fatal tokens e ∧
      ∀ limit position, e = .tooDeep limit position → limit = 128) ∧
    (∀ depth s, outcome (g.operand depth s) = g.operandChecked depth s) ∧
    (∀ depth minimum left s,
      outcome (g.climb depth minimum left s) = g.climbChecked depth minimum left s) ∧
    ∀ c kind s, g.Expects c kind s → ∃ text rest, s.consumeText (some kind) = .ok (text, rest) := by
  intro g
  refine ⟨fun e h => ?_, outcome_operand, outcome_climb, fun c kind s h => h.consumeText⟩
  obtain ⟨stack, c, hr, hc⟩ := program_eq_error_iff.mp (parse_eq_error_iff.mp h)
  have hf := hc.fatal hr
  refine ⟨hf, ?_⟩
  rintro limit position rfl
  cases hf with
  | tooDeep hl => exact (Option.some.inj hl).symm

/-- A call that is not closed, an operator without a right operand, and too many calls inside each
other. -/
theorem fatal_of_parse_nested :
    let g : Grammar := { operators := .ofList [(.slash, ⟨1, .left⟩)] }
    let deep := (List.replicate 128 (tokenize "f(")).flatten ++ tokenize "a"
    (parse g (tokenize "f(a / g(b") = .error (.expected .rightParen .endOfStream ⟨0, 0⟩) ∧
      g.Fatal (tokenize "f(a / g(b") (.expected .rightParen .endOfStream ⟨0, 0⟩)) ∧
    (parse g (tokenize "f(a / ) b") = .error (.noProduction .rightParen ")" ⟨0, 7⟩) ∧
      g.Fatal (tokenize "f(a / ) b") (.noProduction .rightParen ")" ⟨0, 7⟩)) ∧
    parse g deep = .error (.tooDeep 128 ⟨0, 1⟩) ∧ g.Fatal deep (.tooDeep 128 ⟨0, 1⟩) := by
  intro g deep
  have hopen : parse g (tokenize "f(a / g(b") =
      .error (.expected .rightParen .endOfStream ⟨0, 0⟩) :=
    eq_error_of_map (f := fun _ => ()) (by decide +kernel)
  have hright : parse g (tokenize "f(a / ) b") = .error (.noProduction .rightParen ")" ⟨0, 7⟩) :=
    eq_error_of_map (f := fun _ => ()) (by decide +kernel)
  have hdeep : parse g deep = .error (.tooDeep 128 ⟨0, 1⟩) :=
    eq_error_of_map (f := fun _ => ()) (by decide +kernel)
  exact ⟨⟨hopen, ((fatal_of_parse g.operators _).1 _ hopen).1⟩,
    ⟨hright, ((fatal_of_parse g.operators _).1 _ hright).1⟩,
    hdeep, ((fatal_of_parse g.operators _).1 _ hdeep).1⟩

end Block

end Verbatim
