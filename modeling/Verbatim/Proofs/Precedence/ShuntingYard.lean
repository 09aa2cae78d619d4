import Verbatim.Expr.Basic
import Verbatim.Proofs.Precedence.Overflow

/-! # The shunting yard

A reference for operator precedence: operands and operators are taken one after the other, and an
operator waits on a stack until one comes that it has to be applied before. The result of applying
an operator is left open, so the same run builds trees, token lists or what else they are mapped
to.
-/

namespace Verbatim

open Token (Kind)

/-- What stands between two operands. -/
structure Link where
  gap : List Token
  op : Token
  trivia : List Token
  deriving DecidableEq, Repr

def Operators.appliesFirst (ops : Operators) (waiting next : Link) : Bool :=
  match ops.get? waiting.op.kind, ops.get? next.op.kind with
  | some q, some p => p.precedence.toNat < q.nextMinimum
  | _, _ => false

namespace ShuntingYard

variable {α β : Type} (ops : Operators) (join : α → Link → α → α)

/-- Applies all operators that wait, the latest first. Each waits with its left operand. -/
def finish : List (α × Link) → α → α
  | [], a => a
  | (l, k) :: w, a => finish w (join l k a)

/-- Applies the operators that `k` makes due; then `k` waits. -/
def shunt (k : Link) : List (α × Link) → α → List (α × Link)
  | [], a => [(a, k)]
  | (l, j) :: w, a =>
    if ops.appliesFirst j k then shunt k w (join l j a) else (a, k) :: (l, j) :: w

def run : List (α × Link) → α → List (Link × α) → α
  | w, a, [] => finish join w a
  | w, a, (k, b) :: rest => run (shunt ops join k w a) b rest

end ShuntingYard

/-- The operands `a` and those of `rest`, joined by the operators between them. -/
def shuntingYard {α : Type} (ops : Operators) (join : α → Link → α → α) (a : α)
    (rest : List (Link × α)) : α :=
  ShuntingYard.run ops join [] a rest

namespace ShuntingYard

variable {α β : Type} {ops : Operators} {join : α → Link → α → α} {join' : β → Link → β → β}

abbrev mapWaiting (f : α → β) (w : List (α × Link)) : List (β × Link) :=
  w.map fun x => (f x.1, x.2)

section Map

variable {f : α → β} (hf : ∀ l k r, f (join l k r) = join' (f l) k (f r))

include hf

theorem finish_map (w : List (α × Link)) (a : α) :
    f (finish join w a) = finish join' (mapWaiting f w) (f a) := by
  induction w generalizing a with
  | nil => rfl
  | cons x w ih =>
    obtain ⟨l, k⟩ := x
    simp only [finish, mapWaiting, List.map_cons, ih, hf]

theorem shunt_map (k : Link) (w : List (α × Link)) (a : α) :
    mapWaiting f (shunt ops join k w a) = shunt ops join' k (mapWaiting f w) (f a) := by
  induction w generalizing a with
  | nil => rfl
  | cons x w ih =>
    obtain ⟨l, j⟩ := x
    simp only [shunt, mapWaiting, List.map_cons]
    split
    · rw [← hf]
      exact ih (join l j a)
    · rfl

theorem run_map (w : List (α × Link)) (a : α) (rest : List (Link × α)) :
    f (run ops join w a rest) =
      run ops join' (mapWaiting f w) (f a) (rest.map fun x => (x.1, f x.2)) := by
  induction rest generalizing w a with
  | nil => exact finish_map hf w a
  | cons x rest ih =>
    obtain ⟨k, b⟩ := x
    simp only [run, List.map_cons, ih, shunt_map hf]

theorem map_shuntingYard (a : α) (rest : List (Link × α)) :
    f (shuntingYard ops join a rest) =
      shuntingYard ops join' (f a) (rest.map fun x => (x.1, f x.2)) :=
  run_map hf [] a rest

end Map

section Assoc

def joinAll (join : α → Link → α → α) : α → List (Link × α) → α
  | a, [] => a
  | a, (k, b) :: rest => join a k (joinAll join b rest)

variable (hj : ∀ a j b k c, join (join a j b) k c = join a j (join b k c))

include hj

theorem finish_shunt (k : Link) (w : List (α × Link)) (a b : α) :
    finish join (shunt ops join k w a) b = finish join w (join a k b) := by
  induction w generalizing a with
  | nil => rfl
  | cons x w ih =>
    obtain ⟨l, j⟩ := x
    simp only [shunt]
    split
    · rw [ih, hj]
      rfl
    · rfl

theorem run_of_assoc (w : List (α × Link)) (a : α) (rest : List (Link × α)) :
    run ops join w a rest = finish join w (joinAll join a rest) := by
  induction rest generalizing w a with
  | nil => rfl
  | cons x rest ih =>
    obtain ⟨k, b⟩ := x
    rw [run, ih, finish_shunt hj, joinAll]

/-- Where joining is associative, the order in which operators are applied does not matter. -/
theorem shuntingYard_of_assoc (a : α) (rest : List (Link × α)) :
    shuntingYard ops join a rest = joinAll join a rest :=
  run_of_assoc hj [] a rest

end Assoc

end ShuntingYard

end Verbatim
