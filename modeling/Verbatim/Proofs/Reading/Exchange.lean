import Verbatim.Proofs.Precedence.Overflow
import Verbatim.Proofs.Reading.Unlimited

/-! # Exchanged tokens and tables

Reading looks at the kinds of tokens and at how the operators of the table compare with each other.
When tokens are exchanged for others of the same kinds and the table for one that compares alike, a
second run goes as the first one did, and what it returns differs in its tokens only.
-/

namespace Verbatim

open Token (Kind Stream)

/-- An exchange of tokens for others of the same kinds, and what becomes of errors by it. -/
structure Exchange where
  token : Token → Token
  error : ParseError → ParseError
  kind_token : ∀ t, (token t).kind = t.kind
  token_endOfStream : token .endOfStream = .endOfStream
  error_expectedAt : ∀ kind t, error (.expectedAt kind t) = .expectedAt kind (token t)
  error_noProductionAt : ∀ t, error (.noProductionAt t) = .noProductionAt (token t)
  error_tooDeepAt : ∀ limit t, error (.tooDeepAt limit t) = .tooDeepAt limit (token t)

namespace Exchange

def refl : Exchange :=
  ⟨id, id, fun _ => rfl, rfl, fun _ _ => rfl, fun _ => rfl, fun _ _ => rfl⟩

variable (x : Exchange) (s : Stream) (inCall : Bool)

attribute [simp] kind_token

section Streams

@[simp] theorem next_map : Stream.next (s.map x.token) = x.token s.next := by
  cases s with
  | nil => exact x.token_endOfStream.symm
  | cons => rfl

theorem isWhitespace_comp_token : Token.isWhitespace ∘ x.token = Token.isWhitespace := by
  funext t
  simp [Token.isWhitespace]

theorem isTrivia_comp_token : Token.isTrivia ∘ x.token = Token.isTrivia := by
  funext t
  simp [Token.isTrivia]

theorem canFollow_comp_token :
    (fun t => !Token.canFollow inCall t) ∘ x.token = fun t => !Token.canFollow inCall t := by
  funext t
  simp [Token.canFollow]

@[simp] theorem isTrivia_token (t : Token) : (x.token t).isTrivia = t.isTrivia :=
  congrFun x.isTrivia_comp_token t

@[simp] theorem gap_map : Stream.gap (s.map x.token) = s.gap.map x.token := by
  rw [Stream.gap, List.takeWhile_map, isWhitespace_comp_token]
  rfl

@[simp] theorem pastGap_map : Stream.pastGap (s.map x.token) = s.pastGap.map x.token := by
  rw [Stream.pastGap, List.dropWhile_map, isWhitespace_comp_token]
  rfl

@[simp] theorem trivia_map : Stream.trivia (s.map x.token) = s.trivia.map x.token := by
  rw [Stream.trivia, List.takeWhile_map, isTrivia_comp_token]
  rfl

@[simp] theorem pastTrivia_map : Stream.pastTrivia (s.map x.token) = s.pastTrivia.map x.token := by
  rw [Stream.pastTrivia, List.dropWhile_map, isTrivia_comp_token]
  rfl

@[simp] theorem blank_map : Stream.blank (s.map x.token) = s.blank.map x.token := by
  rw [Stream.blank, ← List.map_take, List.takeWhile_map, isWhitespace_comp_token]
  rfl

@[simp] theorem pastBlank_map : Stream.pastBlank (s.map x.token) = s.pastBlank.map x.token := by
  rw [Stream.pastBlank, blank_map, List.length_map, ← List.map_drop]
  rfl

@[simp] theorem junk_map : Stream.junk inCall (s.map x.token) = (s.junk inCall).map x.token := by
  rw [Stream.junk, List.takeWhile_map, canFollow_comp_token]
  rfl

@[simp] theorem pastJunk_map :
    Stream.pastJunk inCall (s.map x.token) = (s.pastJunk inCall).map x.token := by
  rw [Stream.pastJunk, List.dropWhile_map, canFollow_comp_token]
  rfl

@[simp] theorem pastOperator_map :
    Stream.pastOperator (s.map x.token) = s.pastOperator.map x.token := by
  rw [Stream.pastOperator, pastGap_map, Stream.advance, ← List.map_tail]
  rfl

end Streams

end Exchange

mutual

def Expr.map (f : Token → Token) : Expr → Expr
  | .name ident => .name (f ident)
  | .call callee opening args closing => .call (f callee) (f opening) (args.map f) (f closing)
  | .binary left gap op trivia right =>
    .binary (left.map f) (gap.map f) (f op) (trivia.map f) (right.map f)

def Phrase.map (f : Token → Token) : Phrase → Phrase
  | .mk leading core gap junk trailing =>
    .mk (leading.map f) (core.map f) (gap.map f) (junk.map f) (trailing.map f)

def Args.map (f : Token → Token) : Args → Args
  | .nil => .nil
  | .trivia t rest => .trivia (f t) (rest.map f)
  | .phrase p rest => .phrase (p.map f) (rest.map f)

end

namespace Operators

/-- Two tables compare alike on the kinds that occur: both or none have an operator for a kind, with
the same associativity, their precedences are in the same order, and the same of them overflow. -/
structure AlikeOn (occurs : Kind → Prop) (ops ops' : Operators) : Prop where
  associativity_eq : ∀ kind, occurs kind →
    (ops.get? kind).map (·.associativity) = (ops'.get? kind).map (·.associativity)
  overflows_iff : ∀ k p p', occurs k → ops.get? k = some p → ops'.get? k = some p' →
    (p.Overflows ↔ p'.Overflows)
  precedence_lt_iff : ∀ k l p q p' q', occurs k → occurs l →
    ops.get? k = some p → ops.get? l = some q → ops'.get? k = some p' → ops'.get? l = some q' →
    (p.precedence < q.precedence ↔ p'.precedence < q'.precedence)

/-- The operators that are below `m` in the one table are below `m'` in the other. -/
def SameBelow (occurs : Kind → Prop) (ops ops' : Operators) (m m' : UInt32) : Prop :=
  ∀ kind p p', occurs kind → ops.get? kind = some p → ops'.get? kind = some p' →
    (p.precedence < m ↔ p'.precedence < m')

variable {occurs : Kind → Prop} {ops ops' : Operators} {kind : Kind} {p p' : Operator}

theorem sameBelow_zero : SameBelow occurs ops ops' 0 0 := by
  intro _ _ _ _ _ _
  simp

theorem sameBelow_refl {m : UInt32} : SameBelow occurs ops ops m m := by
  intro _ p p' _ hp hp'
  obtain rfl : p = p' := Option.some.inj (hp.symm.trans hp')
  exact Iff.rfl

theorem alikeOn_of_get?_eq (h : ∀ kind, occurs kind → ops.get? kind = ops'.get? kind) :
    AlikeOn occurs ops ops' where
  associativity_eq kind hk := by rw [h kind hk]
  overflows_iff k p p' hk hp hp' := by
    obtain rfl : p = p' := Option.some.inj (hp.symm.trans ((h k hk).trans hp'))
    exact Iff.rfl
  precedence_lt_iff k l p q p' q' hk hl hp hq hp' hq' := by
    obtain rfl : p = p' := Option.some.inj (hp.symm.trans ((h k hk).trans hp'))
    obtain rfl : q = q' := Option.some.inj (hq.symm.trans ((h l hl).trans hq'))
    exact Iff.rfl

/-- Tables in which no operator overflows need only have the same order. -/
theorem alikeOn_of_bounded (hb : ops.Bounded) (hb' : ops'.Bounded)
    (ha : ∀ kind, occurs kind →
      (ops.get? kind).map (·.associativity) = (ops'.get? kind).map (·.associativity))
    (hlt : ∀ k l p q p' q', occurs k → occurs l →
      ops.get? k = some p → ops.get? l = some q → ops'.get? k = some p' → ops'.get? l = some q' →
      (p.precedence < q.precedence ↔ p'.precedence < q'.precedence)) :
    AlikeOn occurs ops ops' :=
  ⟨ha, fun k p p' _ hp hp' => iff_of_false (hb k p hp) (hb' k p' hp'), hlt⟩

namespace AlikeOn

theorem get?_eq_none (h : AlikeOn occurs ops ops') (hk : occurs kind)
    (hop : ops.get? kind = none) : ops'.get? kind = none := by
  have ha := h.associativity_eq kind hk
  rw [hop] at ha
  exact Option.map_eq_none_iff.mp ha.symm

theorem exists_of_get? (h : AlikeOn occurs ops ops') (hk : occurs kind)
    (hop : ops.get? kind = some p) :
    ∃ p', ops'.get? kind = some p' ∧ p'.associativity = p.associativity := by
  have ha := h.associativity_eq kind hk
  rw [hop] at ha
  exact Option.map_eq_some_iff.mp ha.symm

theorem rightMinimum (h : AlikeOn occurs ops ops') (hk : occurs kind)
    (hp : ops.get? kind = some p) (hp' : ops'.get? kind = some p')
    (ha : p'.associativity = p.associativity) :
    SameBelow occurs ops ops' p.rightMinimum p'.rightMinimum := by
  intro l q q' hl hq hq'
  have hlt := h.precedence_lt_iff _ _ _ _ _ _ hl hk hq hp hq' hp'
  have hgt := h.precedence_lt_iff _ _ _ _ _ _ hk hl hp hq hp' hq'
  have hover := h.overflows_iff kind p p' hk hp hp'
  by_cases ho : p.Overflows
  · rw [Operator.rightMinimum_eq_zero ho, Operator.rightMinimum_eq_zero (hover.mp ho)]
    exact iff_of_false UInt32.not_lt_zero UInt32.not_lt_zero
  · rw [Operator.lt_rightMinimum_iff ho, Operator.lt_rightMinimum_iff (hover.not.mp ho)]
    rw [UInt32.lt_iff_toNat_lt, UInt32.lt_iff_toNat_lt] at hlt hgt
    cases hp : p.associativity with
    | left =>
      rw [Operator.nextMinimum_of_left hp, Operator.nextMinimum_of_left (ha.trans hp)]
      omega
    | right =>
      rw [Operator.nextMinimum_of_right hp, Operator.nextMinimum_of_right (ha.trans hp)]
      exact hlt

end AlikeOn

end Operators

namespace Grammar

structure AlikeOn (occurs : Kind → Prop) (g g' : Grammar) : Prop where
  operators : g.operators.AlikeOn occurs g'.operators
  depthLimit_eq : g.depthLimit = g'.depthLimit

/-- The kinds that can be met as an operator in what is still to be read. -/
structure Meets (occurs : Kind → Prop) (s : Stream) : Prop where
  endOfStream : occurs .endOfStream
  tokens : ∀ t ∈ s, ¬ t.isWhitespace → occurs t.kind

/-- The outcome of one run is that of another up to the exchange of tokens. -/
structure Follows (x : Exchange) {α : Type} {m n : Nat} (f : α → α)
    (r : Except ParseError (Parsed α m)) (r' : Except ParseError (Parsed α n)) : Prop where
  reads : ∀ a rest, Reads r a rest → Reads r' (f a) (rest.map x.token)
  fails : ∀ e, r = .error e → r' = .error (x.error e)

variable {occurs : Kind → Prop} {g g' : Grammar} {x : Exchange} {depth : Nat} {minimum : UInt32}
  {inCall : Bool} {s rest : Stream} {left : Expr} {e : ParseError}

theorem alikeOn_refl (g : Grammar) : AlikeOn (fun _ => True) g g :=
  ⟨Operators.alikeOn_of_get?_eq fun _ _ => rfl, rfl⟩

theorem meets_true (s : Stream) : Meets (fun _ => True) s :=
  ⟨trivial, fun _ _ _ => trivial⟩

theorem Meets.of_suffix (h : Meets occurs s) (hs : rest <:+ s) : Meets occurs rest :=
  ⟨h.endOfStream, fun t ht => h.tokens t (hs.mem ht)⟩

theorem Meets.pastOperator (h : Meets occurs s) : Meets occurs s.pastOperator.pastTrivia :=
  h.of_suffix ((List.dropWhile_suffix _).trans
    ((List.tail_suffix _).trans (List.dropWhile_suffix _)))

theorem Meets.next_pastGap (h : Meets occurs s) : occurs s.pastGap.next.kind := by
  cases hs : s.pastGap with
  | nil => exact h.endOfStream
  | cons t rest =>
    have hmem : t ∈ s := (List.dropWhile_suffix _).mem (show t ∈ s.pastGap by simp [hs])
    exact h.tokens t hmem (Stream.not_isWhitespace_of_pastGap_eq hs)

namespace AlikeOn

theorem allows (h : AlikeOn occurs g g') {n : Nat} (ha : g.Allows n) : g'.Allows n := by
  unfold Allows at ha ⊢
  rwa [← h.depthLimit_eq]

theorem checkDepth_eq_ok (h : AlikeOn occurs g g') (hd : g.checkDepth depth s = .ok ()) :
    g'.checkDepth depth rest = .ok () :=
  checkDepth_of_allows (h.allows (checkDepth_eq_ok_iff.mp hd)) rest

theorem checkDepth_eq_error (h : AlikeOn occurs g g') (hd : g.checkDepth depth s = .error e) :
    g'.checkDepth depth (s.map x.token) = .error (x.error e) := by
  obtain ⟨limit, hl, hle, rfl⟩ := checkDepth_eq_error_iff.mp hd
  refine checkDepth_eq_error_iff.mpr ⟨limit, h.depthLimit_eq ▸ hl, hle, ?_⟩
  rw [x.error_tooDeepAt, x.next_map]

theorem stopsAt (h : AlikeOn occurs g g') (hs : Meets occurs s) {m m' : UInt32}
    (hm : Operators.SameBelow occurs g.operators g'.operators m m')
    (hstop : g.operators.StopsAt m s) : g'.operators.StopsAt m' (s.map x.token) := by
  intro op' hop'
  rw [x.pastGap_map, x.next_map, x.kind_token] at hop'
  cases hop : g.operators.get? s.pastGap.next.kind with
  | none =>
    rw [h.operators.get?_eq_none hs.next_pastGap hop] at hop'
    cases hop'
  | some op => exact (hm _ _ _ hs.next_pastGap hop hop').mp (hstop op hop)

end AlikeOn

section Steps

variable (occurs g g' x) in
def OperandFollows (depth : Nat) (s : Stream) : Prop :=
  Meets occurs s →
    Follows x (Expr.map x.token) (g.operand depth s) (g'.operand depth (s.map x.token))

variable (occurs g g' x) in
def ArgumentsFollow (depth : Nat) (s : Stream) : Prop :=
  Meets occurs s →
    Follows x (Args.map x.token) (g.arguments depth s) (g'.arguments depth (s.map x.token))

variable (occurs g g' x) in
def PhraseFollows (depth : Nat) (inCall : Bool) (s : Stream) : Prop :=
  Meets occurs s →
    Follows x (Phrase.map x.token) (g.phrase depth inCall s)
      (g'.phrase depth inCall (s.map x.token))

variable (occurs g g' x) in
/-- The least precedences of the two runs are different numbers with the same operators below. -/
def ChainFollows (depth : Nat) (minimum : UInt32) (s : Stream) : Prop :=
  Meets occurs s → ∀ minimum',
    Operators.SameBelow occurs g.operators g'.operators minimum minimum' →
    Follows x (Expr.map x.token) (g.chain depth minimum s) (g'.chain depth minimum' (s.map x.token))

variable (occurs g g' x) in
def ClimbFollows (depth : Nat) (minimum : UInt32) (left : Expr) (s : Stream) : Prop :=
  Meets occurs s → ∀ minimum',
    Operators.SameBelow occurs g.operators g'.operators minimum minimum' →
    Follows x (Expr.map x.token) (g.climb depth minimum left s)
      (g'.climb depth minimum' (left.map x.token) (s.map x.token))

theorem operandFollows (ih : ∀ callee opening mid, s = callee :: opening :: mid →
    callee.kind = .identifier → opening.kind = .leftParen →
    ArgumentsFollow occurs g g' x depth mid) : OperandFollows occurs g g' x depth s := by
  intro hs
  have hmid {callee opening : Token} {mid : Stream} (he : s = callee :: opening :: mid) :
      Meets occurs mid :=
    hs.of_suffix (he ▸ List.suffix_append [callee, opening] mid)
  refine ⟨fun a rest h => ?_, fun e h => ?_⟩
  · rcases reads_operand_iff.mp h with ⟨ident, rfl, hi, hn, rfl⟩ |
      ⟨callee, opening, args, closing, mid, he, hc, ho, hr, hargs, rfl⟩
    · exact reads_operand_iff.mpr (.inl ⟨x.token ident, rfl, by simpa, by simpa, rfl⟩)
    · have hargs := (ih _ _ _ he hc ho (hmid he)).reads _ _ hargs
      subst he
      exact reads_operand_iff.mpr (.inr ⟨x.token callee, x.token opening, args.map x.token,
        x.token closing, mid.map x.token, rfl, by simpa, by simpa, by simpa, hargs, rfl⟩)
  · rcases operand_eq_error_iff.mp h with
      ⟨hi, rfl⟩ | ⟨callee, opening, mid, he, hc, ho, h | ⟨args, rest, hargs, hr, rfl⟩⟩
    · refine operand_eq_error_iff.mpr (.inl ⟨by simpa, ?_⟩)
      rw [x.error_noProductionAt, x.next_map]
    · have hargs := (ih _ _ _ he hc ho (hmid he)).fails _ h
      subst he
      exact operand_eq_error_iff.mpr (.inr ⟨x.token callee, x.token opening, mid.map x.token, rfl,
        by simpa, by simpa, .inl hargs⟩)
    · have hargs := (ih _ _ _ he hc ho (hmid he)).reads _ _ hargs
      subst he
      refine operand_eq_error_iff.mpr (.inr ⟨x.token callee, x.token opening, mid.map x.token, rfl,
        by simpa, by simpa, .inr ⟨_, _, hargs, by simpa, ?_⟩⟩)
      rw [x.error_expectedAt, x.next_map]

theorem argumentsFollow_nil : ArgumentsFollow occurs g g' x depth [] := by
  refine fun _ => ⟨fun a rest h => ?_, fun e h => (arguments_nil_ne_error h).elim⟩
  obtain ⟨rfl, rfl⟩ := reads_arguments_nil_iff.mp h
  exact reads_arguments_nil_iff.mpr ⟨rfl, rfl⟩

theorem argumentsFollow_cons {t : Token} (ht : t.isTrivia → ArgumentsFollow occurs g g' x depth s)
    (hp : t.kind ≠ .rightParen → ¬ t.isTrivia → PhraseFollows occurs g g' x depth true (t :: s) ∧
      ∀ mid : Stream, mid.length < (t :: s).length → ArgumentsFollow occurs g g' x depth mid) :
    ArgumentsFollow occurs g g' x depth (t :: s) := by
  intro hs
  have htail : Meets occurs s := hs.of_suffix (List.suffix_cons t s)
  refine ⟨fun a rest h => ?_, fun e h => ?_⟩
  · rcases reads_arguments_cons_iff.mp h with ⟨hr, rfl, rfl⟩ | ⟨hi, more, hmore, rfl⟩ |
      ⟨hr, hi, p, mid, more, hph, hmore, rfl⟩
    · exact reads_arguments_cons_iff.mpr (.inl ⟨by simpa, rfl, rfl⟩)
    · exact reads_arguments_cons_iff.mpr
        (.inr (.inl ⟨by simpa, _, (ht hi htail).reads _ _ hmore, rfl⟩))
    · obtain ⟨hp, hm⟩ := hp hr hi
      have hmid := hs.of_suffix (suffix_of_reads_phrase hph)
      exact reads_arguments_cons_iff.mpr (.inr (.inr ⟨by simpa, by simpa using hi, _, _, _,
        (hp hs).reads _ _ hph, (hm mid hph.length_lt hmid).reads _ _ hmore, rfl⟩))
  · rcases arguments_cons_eq_error_iff.mp h with ⟨hi, h⟩ | ⟨hr, hi, h | ⟨p, mid, hph, h⟩⟩
    · exact arguments_cons_eq_error_iff.mpr (.inl ⟨by simpa, (ht hi htail).fails _ h⟩)
    · exact arguments_cons_eq_error_iff.mpr
        (.inr ⟨by simpa, by simpa using hi, .inl (((hp hr hi).1 hs).fails _ h)⟩)
    · obtain ⟨hp, hm⟩ := hp hr hi
      have hmid := hs.of_suffix (suffix_of_reads_phrase hph)
      exact arguments_cons_eq_error_iff.mpr (.inr ⟨by simpa, by simpa using hi, .inr ⟨_, _,
        (hp hs).reads _ _ hph, (hm mid hph.length_lt hmid).fails _ h⟩⟩)

theorem phraseFollows (h : AlikeOn occurs g g')
    (ih : ChainFollows occurs g g' x (depth + 1) 0 s.pastTrivia) :
    PhraseFollows occurs g g' x depth inCall s := by
  intro hs
  have ih := ih (hs.of_suffix (List.dropWhile_suffix _)) 0 Operators.sameBelow_zero
  rw [← x.pastTrivia_map] at ih
  refine ⟨fun a rest hr => ?_, fun e hr => ?_⟩
  · obtain ⟨ha, core, mid, hc, rfl, rfl⟩ := reads_phrase_iff.mp hr
    exact reads_phrase_iff.mpr ⟨h.allows ha, _, _, ih.reads _ _ hc, by simp [Phrase.map], by simp⟩
  · rcases phrase_eq_error_iff.mp hr with hd | ⟨hd, hc⟩
    · exact phrase_eq_error_iff.mpr (.inl (h.checkDepth_eq_error hd))
    · exact phrase_eq_error_iff.mpr (.inr ⟨h.checkDepth_eq_ok hd, ih.fails _ hc⟩)

theorem chainFollows (ho : OperandFollows occurs g g' x depth s)
    (hc : ∀ left (mid : Stream), mid.length < s.length →
      ClimbFollows occurs g g' x depth minimum left mid) :
    ChainFollows occurs g g' x depth minimum s := by
  intro hs minimum' hm
  have hmid {left : Expr} {mid : Stream} (hl : Reads (g.operand depth s) left mid) :=
    hc left mid hl.length_lt (hs.of_suffix (suffix_of_reads_operand hl)) minimum' hm
  refine ⟨fun a rest hr => ?_, fun e hr => ?_⟩
  · obtain ⟨left, mid, hl, hr⟩ := reads_chain_iff.mp hr
    exact reads_chain_iff.mpr ⟨_, _, (ho hs).reads _ _ hl, (hmid hl).reads _ _ hr⟩
  · rcases chain_eq_error_iff.mp hr with hr | ⟨left, mid, hl, hr⟩
    · exact chain_eq_error_iff.mpr (.inl ((ho hs).fails _ hr))
    · exact chain_eq_error_iff.mpr (.inr ⟨_, _, (ho hs).reads _ _ hl, (hmid hl).fails _ hr⟩)

theorem climbFollows (h : AlikeOn occurs g g')
    (ih : ∀ op, g.operators.get? s.pastGap.next.kind = some op → minimum ≤ op.precedence →
      ChainFollows occurs g g' x (depth + 1) op.rightMinimum s.pastOperator.pastTrivia ∧
      ∀ right (mid : Stream), mid.length < s.pastOperator.pastTrivia.length →
        ClimbFollows occurs g g' x depth minimum
          (.binary left s.gap s.pastGap.next s.pastOperator.trivia right) mid) :
    ClimbFollows occurs g g' x depth minimum left s := by
  intro hs minimum' hm
  have hkind := hs.next_pastGap
  have hstep {op : Operator} (hop : g.operators.get? s.pastGap.next.kind = some op)
      (hle : minimum ≤ op.precedence) : ∃ op', g'.operators.get?
        (Stream.pastGap (s.map x.token)).next.kind = some op' ∧ minimum' ≤ op'.precedence ∧
        Follows x (Expr.map x.token)
          (g.chain (depth + 1) op.rightMinimum s.pastOperator.pastTrivia)
          (g'.chain (depth + 1) op'.rightMinimum
            (Stream.pastOperator (s.map x.token)).pastTrivia) := by
    obtain ⟨op', hop', ha⟩ := h.operators.exists_of_get? hkind hop
    have hle' : minimum' ≤ op'.precedence :=
      UInt32.not_lt.mp ((hm _ _ _ hkind hop hop').not.mp (UInt32.not_lt.mpr hle))
    refine ⟨op', by simpa, hle', ?_⟩
    rw [x.pastOperator_map, x.pastTrivia_map]
    exact (ih op hop hle).1 hs.pastOperator _ (h.operators.rightMinimum hkind hop hop' ha)
  have hmid {op : Operator} (hop : g.operators.get? s.pastGap.next.kind = some op)
      (hle : minimum ≤ op.precedence) {right : Expr} {mid : Stream}
      (hr : Reads (g.chain (depth + 1) op.rightMinimum s.pastOperator.pastTrivia) right mid) :=
    (ih op hop hle).2 right mid hr.length_lt
      (hs.pastOperator.of_suffix (suffix_of_reads_chain hr)) minimum' hm
  simp only [Expr.map, ← x.gap_map, ← x.next_map, ← x.pastGap_map, ← x.trivia_map,
    ← x.pastOperator_map] at hmid
  refine ⟨fun a rest hr => ?_, fun e hr => ?_⟩
  · rcases reads_climb_iff.mp hr with ⟨hstop, rfl, rfl⟩ | ⟨op, right, mid, hop, hle, ha, hr, hc⟩
    · exact reads_climb_iff.mpr (.inl ⟨h.stopsAt hs hm hstop, rfl, rfl⟩)
    · obtain ⟨op', hop', hle', hchain⟩ := hstep hop hle
      exact reads_climb_iff.mpr (.inr ⟨op', _, _, hop', hle', h.allows ha,
        hchain.reads _ _ hr, (hmid hop hle hr).reads _ _ hc⟩)
  · obtain ⟨op, hop, hle, hr⟩ := climb_eq_error_iff.mp hr
    obtain ⟨op', hop', hle', hchain⟩ := hstep hop hle
    refine climb_eq_error_iff.mpr ⟨op', hop', hle', ?_⟩
    rcases hr with hd | ⟨hd, hr | ⟨right, mid, hr, hc⟩⟩
    · left
      rw [x.pastOperator_map, x.pastTrivia_map]
      exact h.checkDepth_eq_error hd
    · exact .inr ⟨h.checkDepth_eq_ok hd, .inl (hchain.fails _ hr)⟩
    · exact .inr ⟨h.checkDepth_eq_ok hd,
        .inr ⟨_, _, hchain.reads _ _ hr, (hmid hop hle hr).fails _ hc⟩⟩

end Steps

theorem follows (h : AlikeOn occurs g g') (x : Exchange) :
    (∀ depth s, OperandFollows occurs g g' x depth s) ∧
    (∀ depth s, ArgumentsFollow occurs g g' x depth s) ∧
    (∀ depth inCall s, PhraseFollows occurs g g' x depth inCall s) ∧
    (∀ depth minimum s, ChainFollows occurs g g' x depth minimum s) ∧
    ∀ depth minimum left s, ClimbFollows occurs g g' x depth minimum left s :=
  g.induct operandFollows argumentsFollow_nil argumentsFollow_cons (phraseFollows h) chainFollows
    (climbFollows h)

/-- The one program is read as the other, with its tokens exchanged. -/
theorem program_map (h : AlikeOn occurs g g') (x : Exchange) : ∀ {s : Stream}, Meets occurs s →
    g'.program (s.map x.token) =
      ((g.program s).map (List.map (Phrase.map x.token))).mapError x.error
  | [], _ => by simp [program, Except.map, Except.mapError]
  | t :: s, hs => by
    have hp := (follows h x).2.2.1 0 false (t :: s) hs
    cases hr : g.phrase 0 false (t :: s) with
    | error e =>
      have hfail : g.program (t :: s) = .error e := program_cons_eq_error_iff.mpr (.inl hr)
      rw [hfail, List.map_cons]
      exact program_cons_eq_error_iff.mpr (.inl (hp.fails e hr))
    | ok r =>
      obtain ⟨p, rest, hlt⟩ := r
      have hreads : Reads (g.phrase 0 false (t :: s)) p rest := ⟨hlt, hr⟩
      have hrest := program_map h x (hs.of_suffix (suffix_of_reads_phrase hreads))
      rw [program_of_reads hreads, program_of_reads (hp.reads _ _ hreads), hrest]
      cases g.program rest <;> rfl
termination_by s => s.length
decreasing_by exact hlt

end Grammar

end Verbatim
