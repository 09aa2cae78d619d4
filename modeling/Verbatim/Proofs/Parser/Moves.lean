import Verbatim.Proofs.Failure.Causes
import Verbatim.Proofs.Parser.Basic

/-! # Moves of a parser

What the simple actions of a parser come to. All they do to the stream is to skip tokens, and the
loops among them end, since none goes on at the end of the stream: more rounds than there are tokens
ahead are enough.
-/

namespace Verbatim

open Token (Kind Stream)

namespace Token.Stream

theorem peek_eq (s : Stream) (k : Nat) : s.peek k = Stream.next (s.drop k) := by
  simp [peek, next, List.headD_eq_head?_getD, List.getD_eq_getElem?_getD]

theorem peekIs_eq (s : Stream) (kind : Kind) (k : Nat) :
    s.peekIs kind k = ((Stream.next (s.drop k)).kind == kind) := by
  rw [peekIs, peek_eq]

theorem peek_length_gap (s : Stream) : s.peek s.gap.length = s.pastGap.next := by
  rw [peek_eq, drop_length_gap]

theorem drop_length_takeWhile (p : Token → Bool) (s : Stream) :
    s.drop (s.takeWhile p).length = s.dropWhile p := by
  have h := congrArg (List.drop (s.takeWhile p).length) (s.takeWhile_append_dropWhile (p := p))
  rw [List.drop_left] at h
  exact h.symm

theorem drop_length_trivia (s : Stream) : s.drop s.trivia.length = s.pastTrivia :=
  drop_length_takeWhile ..

theorem drop_length_junk (s : Stream) (inCall : Bool) :
    s.drop (s.blank.length + (s.pastBlank.junk inCall).length) = s.pastBlank.pastJunk inCall := by
  rw [← List.drop_drop]
  exact drop_length_takeWhile ..

theorem drop_length_operator (s : Stream) :
    s.drop (s.gap.length + 1 + s.pastOperator.trivia.length) = s.pastOperator.pastTrivia := by
  rw [← List.drop_drop, ← List.drop_drop, drop_length_gap, List.drop_one]
  exact drop_length_trivia _

theorem junkError_of_not {inCall : Bool} {s : Stream} (h : ¬ s.next.canFollow inCall) :
    junkError (s.junk inCall) = some ("unexpected token: " ++ s.next.sourceText) := by
  cases s with
  | nil => exact absurd rfl h
  | cons t s =>
    have ht : t.canFollow inCall = false := by simpa using h
    simp [junk, junkError, ht]

end Token.Stream

namespace Parser

section Actions

variable {α β : Type} (s : Parser)

@[simp] theorem run_pure (a : α) : s.run (pure a) = some (.ok (a, s)) := rfl

@[simp] theorem run_bind (x : Action α) (f : α → Action β) : s.run (x >>= f) =
    match s.run x with
    | none => none
    | some (.error e) => some (.error e)
    | some (.ok (a, s')) => s'.run (f a) := by
  show (x s).bind _ = _
  unfold run
  generalize x s = r
  rcases r with _ | _ | ⟨a, s'⟩ <;> rfl

theorem run_bind_of_ok {s s' : Parser} {x : Action α} {a : α} (h : s.run x = some (.ok (a, s')))
    (f : α → Action β) : s.run (x >>= f) = s'.run (f a) := by
  rw [run_bind, h]

@[simp] theorem run_map (f : α → β) (x : Action α) : s.run (f <$> x) =
    match s.run x with
    | none => none
    | some (.error e) => some (.error e)
    | some (.ok (a, s')) => some (.ok (f a, s')) := by
  rw [map_eq_pure_bind, run_bind]
  rfl

@[simp] theorem run_ite (c : Prop) [Decidable c] (x y : Action α) :
    s.run (if c then x else y) = if c then s.run x else s.run y :=
  apply_ite s.run c x y

@[simp] theorem run_get : s.run get = some (.ok (s, s)) := rfl

@[simp] theorem run_set (s' : Parser) : s.run (set s') = some (.ok (⟨⟩, s')) := rfl

@[simp] theorem run_modify (f : Parser → Parser) : s.run (modify f) = some (.ok (⟨⟩, f s)) := rfl

@[simp] theorem run_throw (e : ParseError) :
    s.run (throw e : Action α) = some (.error e) := rfl

@[simp] theorem run_liftM (x : Except ParseError α) :
    s.run (liftM x) = some (x.map fun a => (a, s)) := by
  cases x <;> rfl

end Actions

@[simps]
def skip (s : Parser) (n : Nat) : Parser :=
  { s with index := s.index + n, passed := s.passed ++ List.range' s.index n }

@[simps]
def place (s : Parser) (ts : List Term) : Parser :=
  { s with block := s.block ++ ts }

section Updates

variable (s : Parser) (m n depth : Nat) (ts us : List Term)

@[simp] theorem skip_zero : s.skip 0 = s := by
  simp [skip]

@[simp] theorem skip_skip : (s.skip m).skip n = s.skip (m + n) := by
  simp [skip, Nat.add_assoc, ← List.range'_append_1]

@[simp] theorem place_nil : s.place [] = s := by
  simp [place]

@[simp] theorem place_place : (s.place ts).place us = s.place (ts ++ us) := by
  simp [place]

@[simp] theorem skip_place : (s.place ts).skip n = (s.skip n).place ts := rfl

@[simp] theorem skip_withDepth : (s.withDepth depth).skip n = (s.skip n).withDepth depth := rfl

@[simp] theorem ahead_skip : (s.skip n).ahead = s.ahead.drop n := by
  simp [ahead]

@[simp] theorem ahead_place : (s.place ts).ahead = s.ahead := rfl

@[simp] theorem ahead_withDepth : (s.withDepth depth).ahead = s.ahead := rfl

@[simp] theorem ahead_withCalls (openCalls : Nat) : (s.withCalls openCalls).ahead = s.ahead := rfl

@[simp] theorem inCall_skip : (s.skip n).inCall = s.inCall := rfl

@[simp] theorem inCall_withDepth : (s.withDepth depth).inCall = s.inCall := rfl

theorem advance_eq_skip : s.advance = s.skip 1 := rfl

theorem length_ahead : s.ahead.length = s.tokens.length - s.index :=
  List.length_drop

theorem finished_iff : s.finished ↔ s.ahead = [] := by
  simp [finished, ahead]

end Updates

section Tokens

variable (s : Parser) (text : String)

@[simp] theorem run_peek (k : Nat) : s.run (peek k) = some (.ok (s.ahead.peek k, s)) := rfl

@[simp] theorem run_peekIs (kind : Kind) (k : Nat) :
    s.run (peekIs kind k) = some (.ok (s.ahead.peekIs kind k, s)) := rfl

@[simp] theorem run_takeText :
    s.run takeText = some (.ok (s.ahead.next.sourceText, s.skip 1)) := by
  simp [takeText, advance_eq_skip]

theorem run_consumeText (kind : Kind) : s.run (consumeText kind) =
    if s.ahead.next.kind = kind then some (.ok (s.ahead.next.sourceText, s.skip 1))
    else some (.error (.expectedAt kind s.ahead.next)) := by
  by_cases h : s.ahead.next.kind = kind
  · simp [consumeText, Stream.consumeText_of_next h, Except.map, h, advance_eq_skip]
  · simp [consumeText, Stream.consumeText_of_ne h, Except.map, h]

theorem run_takeTexts (k : Nat) (h : k ≤ s.ahead.length) : s.run (takeTexts text k) =
    some (.ok (text ++ detokenize (s.ahead.take k), s.skip k)) := by
  induction k generalizing s text with
  | zero => simp [takeTexts]
  | succ k ih =>
    cases hs : s.ahead with
    | nil => simp [hs] at h
    | cons t rest =>
      rw [hs] at h
      have hk := ih (s.skip 1) (text ++ t.sourceText) (by simp_all)
      simp [takeTexts, hs, hk, String.append_assoc, Nat.add_comm]

theorem run_pastWhitespace {n : Nat} (k : Nat) (hn : (s.ahead.drop k).length < n) :
    s.run (pastWhitespace k n) = some (.ok (k + (Stream.gap (s.ahead.drop k)).length, s)) := by
  induction n generalizing k with
  | zero => exact absurd hn (Nat.not_lt_zero _)
  | succ n ih =>
    rw [pastWhitespace]
    cases h : s.ahead.drop k with
    | nil =>
      have hp : s.ahead.peekIs .whitespace k = false := by
        rw [Stream.peekIs_eq, h]
        rfl
      simp [hp, Stream.gap]
    | cons t ts =>
      have hp : s.ahead.peekIs .whitespace k = t.isWhitespace := by
        rw [Stream.peekIs_eq, h]
        rfl
      by_cases ht : t.isWhitespace
      · have hdrop : s.ahead.drop (k + 1) = ts := by rw [← List.tail_drop, h, List.tail_cons]
        have hk := ih (k + 1) (by simp_all)
        have hgap : Stream.gap (t :: ts) = t :: Stream.gap ts := List.takeWhile_cons_of_pos ht
        simp [hp, ht, hk, hdrop, hgap, Nat.add_assoc, Nat.add_comm 1]
      · have hgap : Stream.gap (t :: ts) = [] := List.takeWhile_cons_of_neg ht
        simp [hp, ht, hgap]

theorem run_pastWhitespace_zero {n : Nat} (hn : s.ahead.length < n) :
    s.run (pastWhitespace 0 n) = some (.ok (s.ahead.gap.length, s)) := by
  rw [run_pastWhitespace s 0 hn, Nat.zero_add, List.drop_zero]

section Loops

variable {p : Token → Bool} {inCall : Bool} {loop : String → Nat → Action String} {n : Nat}

/-- A loop that takes the next token as long as `p` holds of it ends in front of the first other
token, or at the end of the stream if `p` does not hold of what is found there. -/
theorem run_loop (hend : ¬ p Token.endOfStream)
    (hloop : ∀ (s : Parser) (text : String) (n : Nat), s.inCall = inCall →
      s.run (loop text (n + 1)) =
        if p s.ahead.next then (s.skip 1).run (loop (text ++ s.ahead.next.sourceText) n)
        else some (.ok (text, s)))
    (hs : s.inCall = inCall) (hn : s.ahead.length < n) : s.run (loop text n) =
      some (.ok (text ++ detokenize (s.ahead.takeWhile p),
        s.skip (s.ahead.takeWhile p).length)) := by
  induction n generalizing s text with
  | zero => exact absurd hn (Nat.not_lt_zero _)
  | succ n ih =>
    rw [hloop s text n hs]
    cases h : s.ahead with
    | nil =>
      rw [if_neg (show ¬ p (Stream.next []) from hend)]
      simp
    | cons t ts =>
      rw [Stream.next_cons]
      by_cases hp : p t
      · have hskip : (s.skip 1).ahead = ts := by rw [ahead_skip, h, List.drop_one, List.tail_cons]
        have hn' : (s.skip 1).ahead.length < n := by
          rw [hskip]
          simpa [h] using hn
        rw [if_pos hp, ih (s.skip 1) _ hs hn', hskip, List.takeWhile_cons_of_pos hp]
        simp [String.append_assoc, Nat.add_comm 1]
      · rw [if_neg hp, List.takeWhile_cons_of_neg hp]
        simp

theorem run_takeTrivia (hn : s.ahead.length < n) : s.run (takeTrivia text n) =
    some (.ok (text ++ detokenize s.ahead.trivia, s.skip s.ahead.trivia.length)) := by
  refine s.run_loop text (by decide) (fun s text n _ => ?_) rfl hn
  rw [takeTrivia]
  simp

theorem run_takeJunk (hn : s.ahead.length < n) : s.run (takeJunk text n) = some (.ok
    (text ++ detokenize (s.ahead.junk s.inCall), s.skip (s.ahead.junk s.inCall).length)) := by
  refine s.run_loop text (by simp [Token.canFollow, Token.endOfStream])
    (fun s' text n hs => ?_) rfl hn
  rw [takeJunk, ← hs]
  cases h : s'.ahead.next.canFollow s'.inCall <;> simp [canFollow, h]

end Loops

theorem run_takeBlank : s.run takeBlank =
    some (.ok (detokenize s.ahead.blank, s.skip s.ahead.blank.length)) := by
  cases h : s.ahead with
  | nil =>
    have hp : Stream.peekIs [] .whitespace 0 = false := rfl
    simp [takeBlank, h, hp, Stream.blank]
  | cons t ts =>
    have hp : Stream.peekIs (t :: ts) .whitespace 0 = t.isWhitespace := rfl
    by_cases ht : t.isWhitespace <;> simp [takeBlank, h, hp, ht, Stream.blank]

theorem run_canFollow : s.run canFollow = some (.ok (s.ahead.next.canFollow s.inCall, s)) := by
  simp [canFollow]

theorem run_recover {n : Nat} (hn : s.ahead.length < n) : s.run (recover n) = some (.ok
    ((junkError (s.ahead.pastBlank.junk s.inCall),
      detokenize (s.ahead.blank ++ s.ahead.pastBlank.junk s.inCall)),
    s.skip (s.ahead.blank ++ s.ahead.pastBlank.junk s.inCall).length)) := by
  have hp : (s.skip s.ahead.blank.length).ahead = s.ahead.pastBlank := ahead_skip ..
  rw [recover, run_bind, run_takeBlank]
  by_cases h : s.ahead.pastBlank.next.canFollow s.inCall
  · have hjunk := Stream.junk_eq_nil h
    simp [run_canFollow, hp, h, hjunk, junkError]
  · have hjunk := Stream.junkError_of_not h
    have hlength : (s.skip s.ahead.blank.length).ahead.length < n := by
      rw [ahead_skip, List.length_drop]
      omega
    simp [run_canFollow, run_takeJunk _ _ hlength, hp, h, hjunk]

end Tokens

section Counters

variable (s : Parser) (g : Grammar)

theorem run_enter : s.run (enter g) = some
    ((g.checkDepth s.depth s.ahead).map fun _ => ((), s.withDepth (s.depth + 1))) := by
  cases h : g.checkDepth s.depth s.ahead <;> simp [enter, h, Except.map]

theorem run_enter_of_allows {s : Parser} {g : Grammar} {depth : Nat} (h : g.Allows (depth + 1))
    (hs : s.depth = depth) : s.run (enter g) = some (.ok ((), s.withDepth (depth + 1))) := by
  rw [run_enter, hs, Grammar.checkDepth_of_allows h]
  rfl

theorem run_leave_of_eq {s : Parser} {depth : Nat} (h : s.depth = depth + 1) :
    s.run leave = some (.ok ((), s.withDepth depth)) := by
  simp [leave, h]

@[simp] theorem run_leave (depth : Nat) :
    (s.withDepth (depth + 1)).run leave = some (.ok ((), s.withDepth depth)) := rfl

@[simp] theorem run_openCall :
    s.run openCall = some (.ok ((), s.withCalls (s.openCalls + 1))) := rfl

@[simp] theorem run_closeCall (openCalls : Nat) :
    (s.withCalls (openCalls + 1)).run closeCall = some (.ok ((), s.withCalls openCalls)) := rfl

@[simp] theorem run_append (t : Term) : s.run (append t) =
    some (.ok (s.block.length, s.place [{ t with index := s.block.length }])) := rfl

theorem run_textAt {i : Nat} {t : Term} (h : s.block[i]? = some t) :
    s.run (textAt i) = some (.ok (t.text, s)) := by
  simp [textAt, h]

end Counters

section Reading

variable {s : Parser} {g : Grammar} {minimum : UInt32} {n : Nat} {left : Term} {op : Operator}

theorem run_operand_of_ne (hi : s.ahead.next.kind ≠ .identifier) :
    s.run (operand g (n + 1)) = some (.error (.noProductionAt s.ahead.next)) := by
  rw [operand]
  simp [Stream.peekIs, hi]

theorem run_operand_of_name (hi : s.ahead.next.kind = .identifier)
    (ho : s.ahead.advance.next.kind ≠ .leftParen) : s.run (operand g (n + 1)) =
      some (.ok (⟨.identifier, 0, [.named s.ahead.next.sourceText], none,
        s.ahead.next.sourceText, none⟩, s.skip 1)) := by
  rw [operand]
  simp [Stream.peekIs, run_consumeText, hi, ho]

theorem run_operand_of_call (hi : s.ahead.next.kind = .identifier)
    (ho : s.ahead.advance.next.kind = .leftParen) :
    s.run (operand g (n + 1)) = s.run (call g n) := by
  rw [operand]
  simp [Stream.peekIs, hi, ho]

theorem run_call {callee opening : Token} {rest : Stream} (hs : s.ahead = callee :: opening :: rest)
    (hc : callee.kind = .identifier) (ho : opening.kind = .leftParen) : s.run (call g (n + 1)) =
      ((s.skip 2).withCalls (s.openCalls + 1)).run (do
        let (text, refs) ← arguments g (callee.sourceText ++ opening.sourceText)
          [.named callee.sourceText] n
        closeCall
        let closing ← consumeText .rightParen
        return ⟨.call, 0, refs, none, text ++ closing, none⟩) := by
  have hname : s.run (consumeText .identifier) = some (.ok (callee.sourceText, s.skip 1)) := by
    rw [run_consumeText, hs, Stream.next_cons, if_pos hc]
  have hopening : (s.skip 1).run (consumeText .leftParen) =
      some (.ok (opening.sourceText, s.skip 2)) := by
    rw [run_consumeText, ahead_skip, hs, List.drop_one, List.tail_cons, Stream.next_cons,
      if_pos ho, skip_skip]
  rw [call, run_bind_of_ok hname, run_bind_of_ok hopening, run_bind_of_ok (run_openCall _)]
  rfl

theorem run_call_of_ne
    (h : s.ahead.next.kind ≠ .identifier ∨ s.ahead.advance.next.kind ≠ .leftParen) :
    ∃ e, s.run (call g (n + 1)) = some (.error e) := by
  rw [call, run_bind, run_consumeText]
  by_cases hi : s.ahead.next.kind = .identifier
  · have ho : (s.skip 1).ahead.next.kind ≠ .leftParen := by
      simpa [Stream.advance] using h.resolve_left (not_not.mpr hi)
    simp only [if_pos hi, run_bind, run_consumeText, if_neg ho]
    exact ⟨_, rfl⟩
  · simp only [if_neg hi]
    exact ⟨_, rfl⟩

section Arguments

variable {text : String} {refs : List Ref}

theorem run_arguments_of_end (h : s.ahead.next.kind = .rightParen ∨ s.ahead = []) :
    s.run (arguments g text refs (n + 1)) = some (.ok ((text, refs), s)) := by
  have hend : s.ahead.peekIs .rightParen 0 || s.finished := by
    simpa [Stream.peekIs, s.finished_iff] using h
  rw [arguments, run_bind_of_ok (s.run_peekIs ..), run_bind_of_ok s.run_get, run_ite, if_pos hend,
    run_pure]

theorem run_arguments_of_trivia (h : s.ahead.next.isTrivia) :
    s.run (arguments g text refs (n + 1)) =
      (s.skip 1).run (arguments g (text ++ s.ahead.next.sourceText) refs n) := by
  have hr : s.ahead.next.kind ≠ .rightParen := by
    intro hr
    simp [Token.isTrivia, hr, Kind.isTrivia] at h
  have hn : s.ahead ≠ [] := by
    intro hn
    rw [hn] at h
    exact absurd h (by decide)
  have hend : ¬ (s.ahead.peekIs .rightParen 0 || s.finished) := by
    simp [Stream.peekIs, s.finished_iff, hr, hn]
  rw [arguments, run_bind_of_ok (s.run_peekIs ..), run_bind_of_ok s.run_get, run_ite, if_neg hend,
    run_bind_of_ok (s.run_peek 0), Stream.peek_zero, run_ite, if_pos h,
    run_bind_of_ok s.run_takeText]

theorem run_arguments_of_phrase (hr : s.ahead.next.kind ≠ .rightParen) (hn : s.ahead ≠ [])
    (ht : ¬ s.ahead.next.isTrivia) : s.run (arguments g text refs (n + 1)) = s.run (do
      let i ← phrase g n
      arguments g (text ++ (← textAt i)) (refs ++ [.indexed i]) n) := by
  have hend : ¬ (s.ahead.peekIs .rightParen 0 || s.finished) := by
    simp [Stream.peekIs, s.finished_iff, hr, hn]
  rw [arguments, run_bind_of_ok (s.run_peekIs ..), run_bind_of_ok s.run_get, run_ite, if_neg hend,
    run_bind_of_ok (s.run_peek 0), Stream.peek_zero, run_ite, if_neg ht]

end Arguments

theorem run_program_of_end (h : s.ahead = []) :
    s.run (program g (n + 1)) = some (.ok ((), s)) := by
  rw [program, run_bind_of_ok s.run_get, run_ite, if_pos (s.finished_iff.mpr h), run_pure]

theorem run_program_of_phrase (h : s.ahead ≠ []) : s.run (program g (n + 1)) = s.run (do
    let _ ← phrase g n
    program g n) := by
  have hend : ¬ s.finished := s.finished_iff.not.mpr h
  rw [program, run_bind_of_ok s.run_get, run_ite, if_neg hend]

theorem run_phrase_of_checkDepth {e : ParseError} (h : g.checkDepth s.depth s.ahead = .error e) :
    s.run (phrase g (n + 1)) = some (.error e) := by
  rw [phrase, run_bind, run_enter, h]
  rfl

variable (hn : s.ahead.length < n)

include hn

theorem run_phrase_of_allows (hd : g.Allows (s.depth + 1)) : s.run (phrase g (n + 1)) =
    ((s.skip s.ahead.trivia.length).withDepth (s.depth + 1)).run (do
      let t ← chain g 0 n
      let (error, skipped) ← recover n
      let trailing ← takeTrivia skipped n
      leave
      append { t with text := detokenize s.ahead.trivia ++ t.text ++ trailing, error }) := by
  rw [phrase, run_bind_of_ok (run_enter_of_allows hd rfl),
    run_bind_of_ok ((s.withDepth (s.depth + 1)).run_takeTrivia _ hn), ahead_withDepth,
    String.empty_append, skip_withDepth]

theorem run_phrase_of_chain {s' : Parser} {t : Term} (hd : g.Allows (s.depth + 1))
    (h : ((s.skip s.ahead.trivia.length).withDepth (s.depth + 1)).run (chain g 0 n) =
      some (.ok (t, s'.withDepth (s.depth + 1)))) (hn' : s'.ahead.length < n) :
    let junk := s'.ahead.pastBlank.junk s'.inCall
    let trailing := Stream.trivia (s'.ahead.pastBlank.pastJunk s'.inCall)
    s.run (phrase g (n + 1)) = some (.ok (s'.block.length,
      ((s'.skip (s'.ahead.blank.length + junk.length + trailing.length)).withDepth s.depth).place
        [{ t with
          index := s'.block.length
          text := detokenize s.ahead.trivia ++ t.text ++
            detokenize (s'.ahead.blank ++ junk ++ trailing)
          error := junkError junk }])) := by
  intro junk trailing
  have hrecover := (s'.withDepth (s.depth + 1)).run_recover hn'
  rw [ahead_withDepth, inCall_withDepth] at hrecover
  have hlength : ((s'.withDepth (s.depth + 1)).skip
      (s'.ahead.blank ++ junk).length).ahead.length < n := by
    rw [ahead_skip, ahead_withDepth, List.length_drop]
    omega
  rw [run_phrase_of_allows hn hd, run_bind_of_ok h, run_bind_of_ok hrecover]
  dsimp only
  rw [run_bind_of_ok (run_takeTrivia _ _ hlength)]
  simp [junk, trailing, Stream.drop_length_junk, String.append_assoc]

theorem run_climb_of_stops (h : g.operators.StopsAt minimum s.ahead) :
    s.run (climb g minimum left (n + 1)) = some (.ok (left, s)) := by
  rw [climb, run_bind_of_ok (s.run_pastWhitespace_zero hn), run_bind_of_ok (s.run_peek _),
    Stream.peek_length_gap]
  cases hop : g.operators.get? s.ahead.pastGap.next.kind with
  | none => simp only [hop, run_pure]
  | some op => simp only [hop, if_pos (h op hop), run_pure]

/-- Climbing over an operator takes what stands before the right operand. The end of the stream may
be an operator as well, and then the stream is advanced beyond it. -/
theorem run_climb_of_operator (hop : g.operators.get? s.ahead.pastGap.next.kind = some op)
    (hle : minimum ≤ op.precedence) : s.run (climb g minimum left (n + 1)) =
      (s.skip (s.ahead.gap.length + 1 + s.ahead.pastOperator.trivia.length)).run (do
        enter g
        let right ← chain g op.rightMinimum n
        leave
        let i ← append left
        let j ← append right
        climb g minimum ⟨.binary, 0,
          [.named s.ahead.pastGap.next.sourceText, .indexed i, .indexed j], none,
          left.text ++
            detokenize (s.ahead.gap ++ s.ahead.pastGap.next :: s.ahead.pastOperator.trivia) ++
            right.text, none⟩ n) := by
  have hlt : ¬ op.precedence < minimum := UInt32.not_lt.mpr hle
  have hgap : s.ahead.gap.length ≤ s.ahead.length := (List.takeWhile_prefix _).length_le
  have hpast : (s.skip s.ahead.gap.length).ahead = s.ahead.pastGap := by
    rw [ahead_skip, Stream.drop_length_gap]
  have hsymbol : (s.skip s.ahead.gap.length).run (consumeText s.ahead.pastGap.next.kind) =
      some (.ok (s.ahead.pastGap.next.sourceText, s.skip (s.ahead.gap.length + 1))) := by
    rw [run_consumeText, hpast, if_pos rfl, skip_skip]
  have hahead : (s.skip (s.ahead.gap.length + 1)).ahead = s.ahead.pastOperator := by
    rw [← skip_skip, ahead_skip, hpast, List.drop_one]
    rfl
  have hlength : (s.skip (s.ahead.gap.length + 1)).ahead.length < n := by
    rw [hahead]
    exact s.ahead.length_pastOperator_le.trans_lt hn
  rw [climb, run_bind_of_ok (s.run_pastWhitespace_zero hn), run_bind_of_ok (s.run_peek _),
    Stream.peek_length_gap]
  simp only [hop, if_neg hlt]
  rw [run_bind_of_ok (s.run_takeTexts _ _ hgap), run_bind_of_ok hsymbol,
    run_bind_of_ok (run_takeTrivia _ _ hlength), hahead, skip_skip]
  simp [Stream.take_length_gap, String.append_assoc]

end Reading

end Parser

end Verbatim
