import Verbatim.Proofs.Reading.Step

/-! # Failures of reading

When each reading function fails, and with which error, in terms of the functions that it calls.
An error that one of these returns is passed on as it is.
-/

namespace Verbatim

open Token (Kind Stream)

theorem bind_eq_error_iff {ε α β : Type} {x : Except ε α} {f : α → Except ε β} {e : ε} :
    x >>= f = .error e ↔ x = .error e ∨ ∃ a, x = .ok a ∧ f a = .error e := by
  cases x <;> simp [bind, Except.bind]

theorem eq_error_of_map {ε α β : Type} {f : α → β} {e : ε} : ∀ {x : Except ε α},
    x.map f = .error e → x = .error e
  | .error _, h => congrArg Except.error (Except.error.inj h)

section Outcomes

variable {α β : Type} {m : Nat} {e : ParseError}

theorem reads_bind_eq_error_iff {x : Except ParseError (Parsed α m)}
    {f : Parsed α m → Except ParseError β} :
    x >>= f = .error e ↔ x = .error e ∨
      ∃ a mid, ∃ h : Reads x a mid, f ⟨a, mid, h.length_lt⟩ = .error e := by
  rw [bind_eq_error_iff]
  refine or_congr_right ⟨?_, ?_⟩
  · rintro ⟨⟨a, mid, h⟩, hx, hf⟩
    exact ⟨a, mid, ⟨h, hx⟩, hf⟩
  · rintro ⟨a, mid, ⟨h, hx⟩, hf⟩
    exact ⟨⟨a, mid, h⟩, hx, hf⟩

theorem check_bind_eq_error_iff {x : Except ParseError Unit} {f : Unit → Except ParseError β} :
    x >>= f = .error e ↔ x = .error e ∨ x = .ok () ∧ f () = .error e := by
  rw [bind_eq_error_iff]
  refine or_congr_right ⟨?_, ?_⟩
  · rintro ⟨_, hx, hf⟩
    exact ⟨hx, hf⟩
  · rintro ⟨hx, hf⟩
    exact ⟨(), hx, hf⟩

end Outcomes

namespace Grammar

variable {g : Grammar} {depth : Nat} {minimum : UInt32} {inCall : Bool} {s : Stream} {left : Expr}
  {e : ParseError}

theorem checkDepth_eq_error_iff : g.checkDepth depth s = .error e ↔
    ∃ limit, g.depthLimit = some limit ∧ limit ≤ depth ∧ e = .tooDeepAt limit s.next := by
  unfold checkDepth
  cases g.depthLimit with
  | none => simp
  | some limit =>
    by_cases h : depth < limit
    · simp only [if_pos h, reduceCtorEq, Option.some.injEq, exists_eq_left', false_iff]
      rintro ⟨hle, _⟩
      omega
    · simp only [if_neg h, Except.error.injEq, Option.some.injEq, exists_eq_left', eq_comm (b := e),
        and_iff_right (Nat.le_of_not_lt h)]

theorem require_eq_error_iff {kind : Kind} (hk : kind ≠ .endOfStream) :
    s.require kind = .error e ↔ s.next.kind ≠ kind ∧ e = .expectedAt kind s.next := by
  cases s with
  | nil =>
    have hn : (Stream.next []).kind ≠ kind := hk.symm
    simp only [Stream.require, Except.error.injEq, and_iff_right hn]
    exact eq_comm
  | cons t s =>
    by_cases h : t.kind = kind
    · simp [Stream.require, Stream.next, h]
    · have hn : (Stream.next (t :: s)).kind ≠ kind := h
      simp only [Stream.require, if_neg h, Except.error.injEq, and_iff_right hn]
      exact eq_comm

theorem phrase_eq_error_iff : g.phrase depth inCall s = .error e ↔
    g.checkDepth depth s = .error e ∨
      g.checkDepth depth s = .ok () ∧ g.chain (depth + 1) 0 s.pastTrivia = .error e := by
  rw [phrase]
  simp only [check_bind_eq_error_iff, reads_bind_eq_error_iff, reduceCtorEq, exists_false, or_false]

theorem chain_eq_error_iff : g.chain depth minimum s = .error e ↔
    g.operand depth s = .error e ∨ ∃ left mid, Reads (g.operand depth s) left mid ∧
      g.climb depth minimum left mid = .error e := by
  rw [chain]
  simp only [reads_bind_eq_error_iff, reduceCtorEq, exists_false, or_false, exists_prop]

theorem operand_eq_error_iff : g.operand depth s = .error e ↔
    (s.next.kind ≠ .identifier ∧ e = .noProductionAt s.next) ∨
    ∃ callee opening mid, s = callee :: opening :: mid ∧ callee.kind = .identifier ∧
      opening.kind = .leftParen ∧ (g.arguments depth mid = .error e ∨
        ∃ args rest, Reads (g.arguments depth mid) args rest ∧ rest.next.kind ≠ .rightParen ∧
          e = .expectedAt .rightParen rest.next) := by
  rw [operand.eq_def]
  cases s with
  | nil =>
    have hn : (Stream.next []).kind ≠ .identifier := by decide
    simp only [Except.error.injEq, and_iff_right hn, reduceCtorEq, false_and, exists_false,
      or_false]
    exact eq_comm
  | cons ident s =>
    by_cases hi : ident.kind = .identifier
    · cases s with
      | nil => simp [Stream.next, hi]
      | cons opening s =>
        by_cases ho : opening.kind = .leftParen
        · have hr : Kind.rightParen ≠ .endOfStream := by decide
          simp only [if_pos hi, if_pos ho, reads_bind_eq_error_iff, require_eq_error_iff hr,
            reduceCtorEq, exists_false, or_false, exists_prop]
          constructor
          · intro h
            exact .inr ⟨ident, opening, s, rfl, hi, ho, h⟩
          · rintro (⟨hn, _⟩ | ⟨_, _, _, ⟨⟩, _, _, h⟩)
            · exact (hn hi).elim
            · exact h
        · simp [Stream.next, hi, ho]
    · have hn : (Stream.next (ident :: s)).kind ≠ .identifier := hi
      simp only [if_neg hi, Except.error.injEq, and_iff_right hn]
      constructor
      · rintro rfl
        exact .inl rfl
      · rintro (rfl | ⟨_, _, _, ⟨⟩, hc, _⟩)
        · rfl
        · exact (hi hc).elim

theorem climb_eq_error_iff : g.climb depth minimum left s = .error e ↔
    ∃ op, g.operators.get? s.pastGap.next.kind = some op ∧ minimum ≤ op.precedence ∧
      (g.checkDepth depth s.pastOperator.pastTrivia = .error e ∨
        g.checkDepth depth s.pastOperator.pastTrivia = .ok () ∧
        (g.chain (depth + 1) op.rightMinimum s.pastOperator.pastTrivia = .error e ∨
          ∃ right mid,
            Reads (g.chain (depth + 1) op.rightMinimum s.pastOperator.pastTrivia) right mid ∧
            g.climb depth minimum
              (.binary left s.gap s.pastGap.next s.pastOperator.trivia right) mid = .error e)) := by
  rw [climb]
  cases hop : g.operators.get? s.pastGap.next.kind with
  | none => simp
  | some op =>
    by_cases hm : op.precedence < minimum
    · have hle : ¬ minimum ≤ op.precedence := fun hle => UInt32.not_lt.mpr hle hm
      simp [hm, hle]
    · have hle : minimum ≤ op.precedence := UInt32.not_lt.mp hm
      simp only [hm, if_false, check_bind_eq_error_iff, reads_bind_eq_error_iff, reduceCtorEq,
        exists_false, or_false, exists_prop, Option.some.injEq, exists_eq_left', hle, true_and]

theorem arguments_nil_ne_error : g.arguments depth [] ≠ .error e := by
  rw [arguments]
  rintro ⟨⟩

theorem arguments_cons_eq_error_iff {t : Token} : g.arguments depth (t :: s) = .error e ↔
    (t.isTrivia ∧ g.arguments depth s = .error e) ∨
    (t.kind ≠ .rightParen ∧ ¬ t.isTrivia ∧ (g.phrase depth true (t :: s) = .error e ∨
      ∃ p mid, Reads (g.phrase depth true (t :: s)) p mid ∧
        g.arguments depth mid = .error e)) := by
  rw [arguments]
  by_cases hr : t.kind = .rightParen
  · have ht : ¬ t.isTrivia := by simp [Token.isTrivia, hr, Kind.isTrivia]
    simp [hr, ht]
  · by_cases ht : t.isTrivia
    · simp [hr, ht, reads_bind_eq_error_iff]
    · simp [hr, ht, reads_bind_eq_error_iff]

theorem program_nil_ne_error : g.program [] ≠ .error e := by
  rw [program]
  rintro ⟨⟩

theorem program_cons_eq_error_iff {t : Token} : g.program (t :: s) = .error e ↔
    g.phrase 0 false (t :: s) = .error e ∨ ∃ p mid, Reads (g.phrase 0 false (t :: s)) p mid ∧
      g.program mid = .error e := by
  rw [program, reads_bind_eq_error_iff]
  simp only [bind_eq_error_iff, reduceCtorEq, and_false, exists_false, or_false, exists_prop]

end Grammar

end Verbatim
