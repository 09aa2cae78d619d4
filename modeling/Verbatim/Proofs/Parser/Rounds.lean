import Verbatim.Proofs.Parser.Moves

/-! # More rounds

An action that has an outcome has the same outcome when it is given more rounds: their number says
how long it may go on, not what it does.
-/

namespace Verbatim

namespace Parser

section Extends

variable {α β : Type}

/-- Where `x` has an outcome, `y` has the same one. -/
def Extends (x y : Action α) : Prop :=
  ∀ (s : Parser) r, s.run x = some r → s.run y = some r

namespace Extends

theorem refl (x : Action α) : Extends x x :=
  fun _ _ h => h

theorem of_breakOff (x : Action α) : Extends breakOff x := by
  rintro s r ⟨⟩

theorem bind {x y : Action α} {f f' : α → Action β} (hx : Extends x y)
    (hf : ∀ a, Extends (f a) (f' a)) : Extends (x >>= f) (y >>= f') := by
  intro s r h
  rw [run_bind] at h
  rw [run_bind]
  split at h
  next => cases h
  next e hrun =>
    rw [hx s _ hrun]
    exact h
  next a s' hrun =>
    rw [hx s _ hrun]
    exact hf a s' r h

theorem ite {c : Prop} [Decidable c] {x y x' y' : Action α} (hx : Extends x x')
    (hy : Extends y y') : Extends (if c then x else y) (if c then x' else y') := by
  split
  · exact hx
  · exact hy

theorem bind_right {x : Action α} {f f' : α → Action β} (hf : ∀ a, Extends (f a) (f' a)) :
    Extends (x >>= f) (x >>= f') :=
  (refl x).bind hf

end Extends

/-- Giving more rounds does not change an outcome. -/
def Steady (x : Nat → Action α) : Prop :=
  ∀ n, Extends (x n) (x (n + 1))

theorem Steady.run_of_le {x : Nat → Action α} (hx : Steady x) {s : Parser} {m n : Nat}
    (hmn : m ≤ n) {r : Except ParseError (α × Parser)} (h : s.run (x m) = some r) :
    s.run (x n) = some r := by
  induction hmn with
  | refl => exact h
  | step _ ih => exact hx _ s r ih

end Extends

open Extends (of_breakOff)

theorem steady_pastWhitespace (k : Nat) : Steady (pastWhitespace k) := by
  intro n
  induction n generalizing k with
  | zero => exact of_breakOff _
  | succ n ih => exact .bind_right fun _ => .ite (ih _) (.refl _)

theorem steady_takeTrivia (text : String) : Steady (takeTrivia text) := by
  intro n
  induction n generalizing text with
  | zero => exact of_breakOff _
  | succ n ih => exact .bind_right fun _ => .ite (.bind_right fun _ => ih _) (.refl _)

theorem steady_takeJunk (text : String) : Steady (takeJunk text) := by
  intro n
  induction n generalizing text with
  | zero => exact of_breakOff _
  | succ n ih => exact .bind_right fun _ => .ite (.refl _) (.bind_right fun _ => ih _)

theorem steady_recover : Steady recover := by
  intro n
  refine .bind_right fun _ => .bind_right fun _ => .ite (.refl _) (.bind_right fun _ => ?_)
  exact .bind (steady_takeJunk _ n) fun _ => .refl _

section Reading

variable {g : Grammar} {n : Nat}

structure SteadyAt (g : Grammar) (n : Nat) : Prop where
  phrase : Extends (phrase g n) (phrase g (n + 1))
  chain : ∀ minimum, Extends (chain g minimum n) (chain g minimum (n + 1))
  climb : ∀ minimum left, Extends (climb g minimum left n) (climb g minimum left (n + 1))
  operand : Extends (operand g n) (operand g (n + 1))
  call : Extends (call g n) (call g (n + 1))
  arguments : ∀ text refs, Extends (arguments g text refs n) (arguments g text refs (n + 1))

theorem steadyAt_zero : SteadyAt g 0 := by
  constructor
  · exact of_breakOff _
  · exact fun _ => of_breakOff _
  · exact fun _ _ => of_breakOff _
  · exact of_breakOff _
  · exact of_breakOff _
  · exact fun _ _ => of_breakOff _

/-- With a round more, each action does the same up to the calls that it makes. -/
theorem SteadyAt.succ (h : SteadyAt g n) : SteadyAt g (n + 1) := by
  constructor
  case phrase =>
    refine .bind_right fun _ => .bind (steady_takeTrivia _ n) fun _ => ?_
    refine .bind (h.chain 0) fun _ => .bind (steady_recover n) fun _ => ?_
    exact .bind (steady_takeTrivia _ n) fun _ => .refl _
  case chain => exact fun minimum => .bind h.operand fun _ => h.climb minimum _
  case climb =>
    intro minimum left
    refine .bind (steady_pastWhitespace 0 n) fun _ => .bind_right fun t => ?_
    dsimp only
    cases g.operators.get? t.kind with
    | none => exact .refl _
    | some op =>
      refine .ite (.refl _) (.bind_right fun _ => .bind_right fun _ => ?_)
      refine .bind (steady_takeTrivia _ n) fun _ => .bind_right fun _ => ?_
      refine .bind (h.chain _) fun _ => .bind_right fun _ => .bind_right fun _ => ?_
      exact .bind_right fun _ => h.climb _ _
  case operand =>
    refine .bind_right fun _ => .ite ?_ (.refl _)
    exact .bind_right fun _ => .ite h.call (.refl _)
  case call =>
    refine .bind_right fun _ => .bind_right fun _ => .bind_right fun _ => ?_
    exact .bind (h.arguments _ _) fun _ => .refl _
  case arguments =>
    intro text refs
    refine .bind_right fun _ => .bind_right fun _ => .ite (.refl _) ?_
    refine .bind_right fun _ => .ite (.bind_right fun _ => h.arguments _ _) ?_
    exact .bind h.phrase fun _ => .bind_right fun _ => h.arguments _ _

theorem steadyAt (g : Grammar) (n : Nat) : SteadyAt g n := by
  induction n with
  | zero => exact steadyAt_zero
  | succ n ih => exact ih.succ

theorem steady_program (g : Grammar) : Steady (program g) := by
  intro n
  induction n with
  | zero => exact of_breakOff _
  | succ n ih =>
    refine .bind_right fun _ => .ite (.refl _) ?_
    exact .bind (steadyAt g n).phrase fun _ => ih

end Reading

end Parser

end Verbatim
