import Verbatim.Proofs.Parser.Reading
import Verbatim.Proofs.Parser.Rounds

/-! # What a parser keeps

In every state, an expression, a chain of operators and a call give back the counters as they were,
keep the terms of the block and get ahead in the stream. So each loop around them ends, whatever the
state in which it starts.
-/

namespace Verbatim

open Token (Kind Stream)

namespace Parser

/-- `s'` comes after `s`, with the same counters: places of the stream were passed, at least one,
and terms were placed behind those that were there already. -/
structure Advances (s s' : Parser) : Prop where
  tokens_eq : s'.tokens = s.tokens
  depth_eq : s'.depth = s.depth
  openCalls_eq : s'.openCalls = s.openCalls
  block_prefix : s.block <+: s'.block
  index_lt : s.index < s'.index
  index_le : s'.index ≤ s.tokens.length
  passed_eq : s'.passed = s.passed ++ List.range' s.index (s'.index - s.index)

/-- The action has an outcome in `s` from `rounds` rounds on, and if it succeeds, it leaves a state
that comes after `s`. -/
structure Progresses {α : Type} (s : Parser) (x : Nat → Action α) (rounds : Nat) : Prop where
  ends : ∀ n, rounds ≤ n → s.run (x n) ≠ none
  advances : ∀ n a s', s.run (x n) = some (.ok (a, s')) → s.Advances s'

variable {α β : Type} {s s' : Parser} {g : Grammar} {minimum : UInt32} {n : Nat}

theorem advances_upTo {rest : Stream} (h : rest.length < s.ahead.length) (ts : List Term) :
    s.Advances (s.upTo rest ts) := by
  have hindex : (s.upTo rest ts).index = s.index + (s.ahead.length - rest.length) := rfl
  have hahead := s.length_ahead
  constructor
  · rfl
  · rfl
  · rfl
  · exact List.prefix_append _ _
  · omega
  · omega
  · simp [upTo]

theorem Advances.length_ahead_lt (h : s.Advances s') : s'.ahead.length < s.ahead.length := by
  have hlt := h.index_lt
  have hle := h.index_le
  rw [length_ahead, length_ahead, h.tokens_eq]
  omega

theorem progresses_of_yields {x : Nat → Action β} {r : Except ParseError (Parsed α s.ahead.length)}
    {terms : α → List Term × β} {rounds : Nat} (hx : Steady x)
    (h : ∀ n, rounds ≤ n → s.Yields (s.run (x n)) r terms) : s.Progresses x rounds := by
  cases hr : r with
  | error e =>
    have hrun (n : Nat) (hn : rounds ≤ n) := (h n hn).fails e hr
    constructor
    · intro n hn
      simp [hrun n hn]
    · intro n b s' hs
      have hmore := hx.run_of_le (Nat.le_add_right n rounds) hs
      simp [hrun _ (Nat.le_add_left ..)] at hmore
  | ok p =>
    obtain ⟨a, rest, hlt⟩ := p
    have hrun (n : Nat) (hn : rounds ≤ n) := (h n hn).reads a rest ⟨hlt, hr⟩
    constructor
    · intro n hn
      simp [hrun n hn]
    · intro n b s' hs
      have hmore := hx.run_of_le (Nat.le_add_right n rounds) hs
      rw [hrun _ (Nat.le_add_left ..)] at hmore
      cases hmore
      exact advances_upTo hlt _

theorem exists_ok_of_any {ε : Type} : ∀ {x : Option (Except ε α)}, x.any (·.isOk) →
    ∃ a, x = some (.ok a)
  | some (.ok a), _ => ⟨a, rfl⟩

theorem run_bind_ne_none {x : Action α} {f : α → Action β} (h : s.run x ≠ none)
    (hf : ∀ a s', s.run x = some (.ok (a, s')) → s'.run (f a) ≠ none) :
    s.run (x >>= f) ≠ none := by
  rw [run_bind]
  split
  next hrun => exact absurd hrun h
  next => exact Option.some_ne_none _
  next a s' hrun => exact hf a s' hrun

section Expressions

variable (s g)

theorem operand_progresses : s.Progresses (operand g) (3 * s.ahead.length + 1) :=
  progresses_of_yields (fun n => (steadyAt g n).operand)
    fun n hn => (yields g).1 _ _ s n rfl rfl hn

theorem phrase_progresses : s.Progresses (phrase g) (3 * s.ahead.length + 3) :=
  progresses_of_yields (fun n => (steadyAt g n).phrase)
    fun n hn => (yields g).2.2.1 _ _ _ s n rfl rfl rfl hn

theorem chain_progresses (minimum : UInt32) :
    s.Progresses (chain g minimum) (3 * s.ahead.length + 2) :=
  progresses_of_yields (fun n => (steadyAt g n).chain minimum)
    fun n hn => (yields g).2.2.2.1 _ _ _ s n rfl rfl hn

theorem exists_term_of_phrase {i : Nat} (hn : 3 * s.ahead.length + 3 ≤ n)
    (h : s.run (phrase g n) = some (.ok (i, s'))) : ∃ t, s'.block[i]? = some t := by
  have hy := (yields g).2.2.1 _ _ _ s n rfl rfl rfl hn
  cases hr : g.phrase s.depth s.inCall s.ahead with
  | error e => simp [hy.fails e hr] at h
  | ok r =>
    obtain ⟨p, rest, hlt⟩ := r
    rw [hy.reads p rest ⟨hlt, hr⟩] at h
    cases h
    exact ⟨_, s.getElem?_upTo_terms p rest⟩

theorem call_progresses : s.Progresses (call g) (3 * s.ahead.length + 1) := by
  by_cases hc : s.ahead.next.kind ≠ .identifier ∨ s.ahead.advance.next.kind ≠ .leftParen
  · constructor
    · rintro (_ | n) hn
      · omega
      · obtain ⟨e, hrun⟩ := run_call_of_ne (g := g) (n := n) hc
        simp [hrun]
    · rintro (_ | n) t s' hs
      · cases hs
      · obtain ⟨e, hrun⟩ := run_call_of_ne (g := g) (n := n) hc
        simp [hrun] at hs
  · obtain ⟨hi, ho⟩ : s.ahead.next.kind = .identifier ∧
        s.ahead.advance.next.kind = .leftParen := by
      simpa [not_or] using hc
    have h := s.operand_progresses g
    constructor
    · intro n hn
      rw [← run_operand_of_call hi ho]
      exact h.ends _ (by omega)
    · intro n t s' hs
      rw [← run_operand_of_call hi ho] at hs
      exact h.advances _ t s' hs

end Expressions

section Loops

theorem climb_ends (s : Parser) (left : Term) (hn : 3 * s.ahead.length + 3 ≤ n) :
    s.run (climb g minimum left n) ≠ none := by
  induction n generalizing s left with
  | zero => omega
  | succ n ih =>
    have hlength : s.ahead.length < n := by omega
    by_cases hstop : g.operators.StopsAt minimum s.ahead
    · simp [run_climb_of_stops hlength hstop]
    · obtain ⟨op, hop, hle⟩ : ∃ op, g.operators.get? s.ahead.pastGap.next.kind = some op ∧
          minimum ≤ op.precedence := by
        simpa [Operators.StopsAt] using hstop
      rw [run_climb_of_operator hlength hop hle, run_bind, run_enter]
      cases g.checkDepth (s.skip _).depth (s.skip _).ahead with
      | error e => exact Option.some_ne_none _
      | ok =>
        refine run_bind_ne_none ((chain_progresses _ g _).ends n ?_) fun right s' hrun => ?_
        · simp
          omega
        · have h := (chain_progresses _ g _).advances n right s' hrun
          have hlt : s'.ahead.length < s.ahead.length := h.length_ahead_lt.trans_le (by simp)
          rw [run_bind_of_ok (run_leave_of_eq h.depth_eq), run_bind_of_ok (run_append ..),
            run_bind_of_ok (run_append ..)]
          exact ih _ _ (by simp; omega)

theorem arguments_ends (s : Parser) (text : String) (refs : List Ref)
    (hn : 3 * s.ahead.length + 4 ≤ n) : s.run (arguments g text refs n) ≠ none := by
  induction n generalizing s text refs with
  | zero => omega
  | succ n ih =>
    by_cases hend : s.ahead.next.kind = .rightParen ∨ s.ahead = []
    · simp [run_arguments_of_end hend]
    · obtain ⟨hr, hs⟩ := not_or.mp hend
      by_cases ht : s.ahead.next.isTrivia
      · have hlength := List.length_pos_iff.mpr hs
        rw [run_arguments_of_trivia ht]
        exact ih _ _ _ (by simp; omega)
      · -- No argument is empty, or the loop would come back to the same token.
        rw [run_arguments_of_phrase hr hs ht]
        refine run_bind_ne_none ((phrase_progresses s g).ends n (by omega)) fun i s' hrun => ?_
        have hlength := ((phrase_progresses s g).advances n i s' hrun).length_ahead_lt
        obtain ⟨t, hget⟩ := exists_term_of_phrase s g (by omega) hrun
        rw [run_bind_of_ok (run_textAt _ hget)]
        exact ih _ _ _ (by omega)

theorem program_ends (s : Parser) (hn : 3 * s.ahead.length + 4 ≤ n) :
    s.run (program g n) ≠ none := by
  induction n generalizing s with
  | zero => omega
  | succ n ih =>
    by_cases hs : s.ahead = []
    · simp [run_program_of_end hs]
    · rw [run_program_of_phrase hs]
      refine run_bind_ne_none ((phrase_progresses s g).ends n (by omega)) fun i s' hrun => ?_
      have hlength := ((phrase_progresses s g).advances n i s' hrun).length_ahead_lt
      exact ih s' (by omega)

end Loops

/-- What is read is framed, every loop ends, and a run on tokens that succeeds has passed each of
their places once and reached the block of the tokens. -/
theorem framed_and_ends (g : Grammar) :
    (∀ (s : Parser) (n : Nat),
      (∀ i s', s.run (phrase g n) = some (.ok (i, s')) → s.Advances s') ∧
      (∀ minimum t s', s.run (chain g minimum n) = some (.ok (t, s')) → s.Advances s') ∧
      ∀ t s', s.run (call g n) = some (.ok (t, s')) → s.Advances s') ∧
    (∀ (s : Parser) (n : Nat), 3 * s.ahead.length + 4 ≤ n →
      s.run (program g n) ≠ none ∧
      (∀ text refs, s.run (arguments g text refs n) ≠ none) ∧
      (∀ minimum left, s.run (climb g minimum left n) ≠ none) ∧
      (∀ text, s.run (takeJunk text n) ≠ none) ∧ (∀ text, s.run (takeTrivia text n) ≠ none) ∧
      ∀ k, s.run (pastWhitespace k n) ≠ none) ∧
    ∀ (tokens : List Token) (n : Nat) r, run { tokens } (program g n) = some r →
      r = (Block.parse g tokens).map fun block => ((),
        { tokens, block, index := tokens.length, passed := List.range tokens.length }) := by
  refine ⟨fun s n => ⟨?_, fun minimum => ?_, ?_⟩, fun s n hn => ?_, fun tokens n r h => ?_⟩
  · exact (s.phrase_progresses g).advances n
  · exact (s.chain_progresses g minimum).advances n
  · exact (s.call_progresses g).advances n
  · have hlength : s.ahead.length < n := by omega
    refine ⟨s.program_ends hn, fun text refs => s.arguments_ends text refs hn,
      fun minimum left => s.climb_ends left (by omega), fun text => ?_, fun text => ?_,
      fun k => ?_⟩
    · simp [run_takeJunk _ _ hlength]
    · simp [run_takeTrivia _ _ hlength]
    · have hdrop : (s.ahead.drop k).length < n := by
        rw [List.length_drop]
        omega
      simp [run_pastWhitespace _ _ hdrop]
  · have hmore := (steady_program g).run_of_le (Nat.le_add_right n (3 * tokens.length + 4)) h
    rw [run_program_of_tokens (Nat.le_add_left ..)] at hmore
    exact (Option.some.inj hmore).symm

/-- The second expression of a program, read in each of the three ways, and the whole program. -/
theorem framed_and_ends_of_call :
    let x : Term := ⟨.identifier, 0, [.named "x"], none, "x ", none⟩
    let s : Parser := { tokens := tokenize "x f(a)", index := 2, block := [x], passed := [0, 1] }
    (∃ i s', s.run (phrase {} 16) = some (.ok (i, s')) ∧ s.Advances s') ∧
    (∃ t s', s.run (chain {} 0 16) = some (.ok (t, s')) ∧ s.Advances s') ∧
    (∃ t s', s.run (call {} 16) = some (.ok (t, s')) ∧ s.Advances s') ∧
    (3 * s.ahead.length + 4 ≤ 16 ∧ s.run (program {} 16) ≠ none) ∧
    ∃ s', run { tokens := s.tokens } (program {} 22) = some (.ok ((), s')) ∧
      .ok ((), s') = (Block.parse {} s.tokens).map fun block => ((),
        { tokens := s.tokens, block, index := s.tokens.length,
          passed := List.range s.tokens.length }) := by
  intro x s
  obtain ⟨⟨i, s₁⟩, hphrase⟩ := exists_ok_of_any (x := s.run (phrase {} 16)) (by decide +kernel)
  obtain ⟨⟨t, s₂⟩, hchain⟩ := exists_ok_of_any (x := s.run (chain {} 0 16)) (by decide +kernel)
  obtain ⟨⟨u, s₃⟩, hcall⟩ := exists_ok_of_any (x := s.run (call {} 16)) (by decide +kernel)
  obtain ⟨⟨⟨⟩, s₄⟩, hprogram⟩ :=
    exists_ok_of_any (x := run { tokens := s.tokens } (program {} 22)) (by decide +kernel)
  have hn : 3 * s.ahead.length + 4 ≤ 16 := by decide +kernel
  have h := framed_and_ends {}
  exact ⟨⟨i, s₁, hphrase, (h.1 s 16).1 _ _ hphrase⟩, ⟨t, s₂, hchain, (h.1 s 16).2.1 _ _ _ hchain⟩,
    ⟨u, s₃, hcall, (h.1 s 16).2.2 _ _ hcall⟩, ⟨hn, (h.2.1 s 16 hn).1⟩, s₄, hprogram,
    h.2.2 _ _ _ hprogram⟩

end Parser

end Verbatim
