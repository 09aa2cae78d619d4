import Verbatim.Token.Basic

/-! # Operator tables

Binary operators are data: a table gives token kinds a precedence and an associativity. With the
empty table an expression ends after its first operand.
-/

namespace Verbatim

open Token (Kind)

inductive Associativity where
  | left
  | right
  deriving DecidableEq, Repr

/-- Where a word is expected, a number stands for its remainder modulo 2 ^ 32. -/
instance wordOfNat : CoeTail Nat UInt32 := ⟨UInt32.ofNat⟩

instance natOfWord : CoeOut UInt32 Nat := ⟨UInt32.toNat⟩

structure Operator where
  precedence : UInt32
  associativity : Associativity
  deriving DecidableEq, Repr

/-- The least precedence of an operator in the right operand. Words wrap around: behind the greatest
one comes zero. -/
def Operator.rightMinimum (op : Operator) : UInt32 :=
  match op.associativity with
  | .left => op.precedence + 1
  | .right => op.precedence

structure Operators where
  entries : List (Kind × Operator)
  deriving DecidableEq, Repr

namespace Operators

def empty : Operators :=
  ⟨[]⟩

def isEmpty (ops : Operators) : Bool :=
  ops.entries.isEmpty

def get? (ops : Operators) (kind : Kind) : Option Operator :=
  ops.entries.lookup kind

/-- Adds an operator in the place of the one that the kind had before. -/
def insert (ops : Operators) (kind : Kind) (op : Operator) : Operators :=
  ⟨(kind, op) :: ops.entries.filter (·.1 != kind)⟩

def ofList (entries : List (Kind × Operator)) : Operators :=
  entries.foldl (fun ops e => ops.insert e.1 e.2) empty

@[simp] theorem get?_empty (kind : Kind) : empty.get? kind = none := rfl

theorem get?_insert_self (ops : Operators) (kind : Kind) (op : Operator) :
    (ops.insert kind op).get? kind = some op := by
  simp [get?, insert]

theorem get?_insert_of_ne (ops : Operators) {kind other : Kind} (op : Operator)
    (h : other ≠ kind) : (ops.insert kind op).get? other = ops.get? other := by
  have hb : (other == kind) = false := by simpa using h
  simp only [get?, insert, List.lookup_cons, hb]
  induction ops.entries with
  | nil => rfl
  | cons e es ih =>
    obtain ⟨k, o⟩ := e
    by_cases hk : k = kind
    · subst hk
      simpa [List.lookup_cons, hb] using ih
    · by_cases hok : other = k
      · subst hok
        simp [hk]
      · have : (other == k) = false := by simpa using hok
        simpa [List.lookup_cons, hk, this] using ih

end Operators

end Verbatim
