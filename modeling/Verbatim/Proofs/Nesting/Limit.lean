import Verbatim.Proofs.Nesting.Level
import Verbatim.Proofs.Nesting.Stack
import Verbatim.Proofs.Syntax.Accepted

/-! # The nesting limit

A parse under the limit comes to what a parse without one comes to, unless a term nests too deep.
Then it fails where one more expression or right operand would have to be opened, and that has to
do with what is open there, not with how much was read before.
-/

namespace Verbatim

open Token (Kind)

namespace Grammar

variable {g : Grammar} {tokens : List Token} {limit : Nat} {position : Position}
  {stack : List Frame} {c : Call}

theorem program_eq_error_iff {e : ParseError} : g.program tokens = .error e ↔
    ∃ stack c, g.Runs (.program tokens) stack c ∧ g.Raises e c :=
  @fails_iff_runs g e (.program tokens)

theorem Runs.depth_le (h : g.Runs (.program tokens) stack c) (hl : g.depthLimit = some limit) :
    Frame.depth stack ≤ limit :=
  h.stacked.allowed limit hl

theorem Runs.depth_le_of_left (h : g.Runs (.program tokens) stack c)
    (hops : ∀ kind op, g.operators.get? kind = some op → op.associativity = .left)
    (hb : g.operators.Bounded) :
    Frame.depth stack ≤ (g.operators.leftPrecedences.card + 1) *
      (tokens.countP (·.kind = .leftParen) + 1) := by
  have hd := h.stacked.nested.depth_le
  rw [h.stacked.nested.countP_right_eq_zero hops, h.stacked.nested.countP_overflows_eq_zero hb,
    Nat.mul_zero, Nat.add_zero, Nat.add_zero] at hd
  have hc : stack.count .call ≤ tokens.countP (·.kind = .leftParen) :=
    (Nat.le_add_right _ _).trans h.count_call_le
  exact hd.trans (Nat.mul_le_mul_left _ (Nat.succ_le_succ hc))

theorem program_ne_tooDeep (hl : g.depthLimit = some limit)
    (hops : ∀ kind op, g.operators.get? kind = some op → op.associativity = .left)
    (hb : g.operators.Bounded) (hlt : (g.operators.leftPrecedences.card + 1) *
      (tokens.countP (·.kind = .leftParen) + 1) < limit) (l : Nat) (position : Position) :
    g.program tokens ≠ .error (.tooDeep l position) := by
  intro h
  obtain ⟨stack, c, hr, hc⟩ := program_eq_error_iff.mp h
  obtain ⟨hl', hd⟩ := hr.stacked.of_tooDeep hc
  obtain rfl := Option.some.inj (hl.symm.trans hl')
  have := hr.depth_le_of_left hops hb
  omega

end Grammar

namespace Block

open Grammar

variable {g : Grammar} {tokens : List Token} {b : Block} {e : ParseError} {limit : Nat}

theorem parse_eq_error_iff : parse g tokens = .error e ↔ g.program tokens = .error e := by
  unfold parse
  cases g.program tokens <;> simp [Except.map]

theorem parse_eq_ok_iff_of_limit (hl : g.depthLimit = some limit) : parse g tokens = .ok b ↔
    parse g.unlimited tokens = .ok b ∧ ∀ i n, b.Level i n → n ≤ limit := by
  have hallows (n : Nat) : g.Allows n ↔ n ≤ limit := by simp [Allows, hl]
  constructor
  · intro h
    obtain ⟨ps, hps, rfl⟩ := parse_eq_ok_iff.mp h
    obtain ⟨hps, hd⟩ := program_of_limit.mp hps
    refine ⟨parse_eq_ok_iff.mpr ⟨ps, hps, rfl⟩, (level_le_iff ps).mpr fun u hu => ?_⟩
    exact (hallows _).mp (hd u hu)
  · rintro ⟨h, hd⟩
    obtain ⟨ps, hps, rfl⟩ := parse_eq_ok_iff.mp h
    refine parse_eq_ok_iff.mpr ⟨ps, program_of_limit.mpr ⟨hps, fun u hu => ?_⟩, rfl⟩
    exact (hallows _).mpr ((level_le_iff ps).mp hd u hu)

theorem parse_unlimited_of_error (h : parse g tokens = .error e) :
    parse g.unlimited tokens = .error e ∨
      ∃ limit position, g.depthLimit = some limit ∧ e = .tooDeep limit position := by
  rw [parse_eq_error_iff] at h ⊢
  rcases g.agrees_program tokens with he | ⟨limit, position, hl, he⟩
  · exact .inl (he ▸ h)
  · exact .inr ⟨limit, position, hl, Except.error.inj (h.symm.trans he)⟩

theorem existsUnique_level_of_parse (h : parse g tokens = .ok b) {i : Nat} (hi : i < b.length) :
    ∃! n, b.Level i n := by
  obtain ⟨ps, -, rfl⟩ := parse_eq_ok_iff.mp h
  exact (forest_ofPhrases ps).existsUnique_level hi

/-- A parse is too deep exactly if it comes to where the limit is reached and another expression or
right operand is due. -/
theorem parse_eq_tooDeep_iff {position : Position} :
    parse g tokens = .error (.tooDeep limit position) ↔
      ∃ stack c, g.Runs (.program tokens) stack c ∧ Frame.depth stack = limit ∧
        g.Raises (.tooDeep limit position) c := by
  rw [parse_eq_error_iff, program_eq_error_iff]
  constructor
  · rintro ⟨stack, c, hr, hc⟩
    exact ⟨stack, c, hr, (hr.stacked.of_tooDeep hc).2, hc⟩
  · rintro ⟨stack, c, hr, -, hc⟩
    exact ⟨stack, c, hr, hc⟩

end Block

end Verbatim
