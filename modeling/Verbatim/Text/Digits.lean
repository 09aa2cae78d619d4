/-! # Digits

The numbers that digits of a given base stand for. Letters serve as digits from ten on.
-/

namespace Verbatim.Text

/-- The value of a digit of a base up to sixteen; other characters have none below sixteen. -/
def digitValue (c : Char) : Nat :=
  if c.isDigit then c.toNat - '0'.toNat
  else if 'a' ≤ c ∧ c ≤ 'f' then c.toNat - 'a'.toNat + 10
  else if 'A' ≤ c ∧ c ≤ 'F' then c.toNat - 'A'.toNat + 10
  else 16

def digits? (base : Nat) (cs : List Char) : Option Nat :=
  if !cs.isEmpty && cs.all (digitValue · < base) then
    some (cs.foldl (fun n c => base * n + digitValue c) 0)
  else none

end Verbatim.Text
