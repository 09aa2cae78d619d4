import Verbatim.Operators
import Mathlib.Tactic.Common

/-! # Overflow of precedences

The least precedence in a right operand is one more than that of an operator to the left, but a word
holds no more than the greatest precedence. Operators of any other precedence do not overflow, and
for them words and numbers come to the same.
-/

namespace Verbatim

namespace Operator

/-- The least precedence of an operator in the right operand, as a number. -/
def nextMinimum (op : Operator) : Nat :=
  match op.associativity with
  | .left => op.precedence.toNat + 1
  | .right => op.precedence.toNat

def Overflows (op : Operator) : Prop :=
  UInt32.size ≤ op.nextMinimum

instance : DecidablePred Overflows :=
  fun op => inferInstanceAs (Decidable (UInt32.size ≤ op.nextMinimum))

variable {op : Operator} {n : UInt32}

theorem nextMinimum_of_left (h : op.associativity = .left) :
    op.nextMinimum = op.precedence.toNat + 1 := by
  rw [nextMinimum, h]

theorem nextMinimum_of_right (h : op.associativity = .right) :
    op.nextMinimum = op.precedence.toNat := by
  rw [nextMinimum, h]

theorem le_nextMinimum (op : Operator) : op.precedence.toNat ≤ op.nextMinimum := by
  cases h : op.associativity with
  | left => exact nextMinimum_of_left h ▸ Nat.le_succ _
  | right => exact Nat.le_of_eq (nextMinimum_of_right h).symm

theorem nextMinimum_le (op : Operator) : op.nextMinimum ≤ op.precedence.toNat + 1 := by
  cases h : op.associativity with
  | left => exact Nat.le_of_eq (nextMinimum_of_left h)
  | right => exact nextMinimum_of_right h ▸ Nat.le_succ _

theorem toNat_rightMinimum_eq_mod (op : Operator) :
    op.rightMinimum.toNat = op.nextMinimum % UInt32.size := by
  cases h : op.associativity with
  | left => simp [rightMinimum, nextMinimum, h]
  | right => simp [rightMinimum, nextMinimum, h]

theorem toNat_rightMinimum (h : ¬ op.Overflows) : op.rightMinimum.toNat = op.nextMinimum := by
  rw [toNat_rightMinimum_eq_mod]
  exact Nat.mod_eq_of_lt (Nat.lt_of_not_le h)

theorem rightMinimum_eq_zero (h : op.Overflows) : op.rightMinimum = 0 := by
  have hle := op.nextMinimum_le
  have hlt := op.precedence.toNat_lt
  have heq : op.nextMinimum = UInt32.size := Nat.le_antisymm (Nat.le_trans hle hlt) h
  apply UInt32.toNat_inj.mp
  rw [toNat_rightMinimum_eq_mod, heq]
  rfl

theorem lt_nextMinimum (h : n < op.rightMinimum) : n.toNat < op.nextMinimum := by
  rw [UInt32.lt_iff_toNat_lt, toNat_rightMinimum_eq_mod] at h
  exact Nat.lt_of_lt_of_le h (Nat.mod_le _ _)

theorem lt_rightMinimum_iff (h : ¬ op.Overflows) :
    n < op.rightMinimum ↔ n.toNat < op.nextMinimum := by
  rw [UInt32.lt_iff_toNat_lt, toNat_rightMinimum h]

theorem rightMinimum_le_iff (h : ¬ op.Overflows) :
    op.rightMinimum ≤ n ↔ op.nextMinimum ≤ n.toNat := by
  rw [UInt32.le_iff_toNat_le, toNat_rightMinimum h]

end Operator

/-- No operator of the table overflows. -/
def Operators.Bounded (ops : Operators) : Prop :=
  ∀ kind op, ops.get? kind = some op → ¬ op.Overflows

end Verbatim
