import Verbatim.Proofs.Precedence.ShuntingYard
import Verbatim.Proofs.Reading.Fits

/-! # Trees arranged by precedence

A binary tree is arranged if each operator may stand between its two operands, which is said of
adjacent operators only. This fixes the tree: for each sequence of operands and operators there is
exactly one, and the shunting yard builds it. Where no operator overflows, a tree that fits is
arranged.
-/

namespace Verbatim

open Token (Kind)

namespace Expr

def join (left : Expr) (k : Link) (right : Expr) : Expr :=
  .binary left k.gap k.op k.trivia right

/-- The operands of an expression in order, those after the first with what stands before them. -/
def spine : Expr → Expr × List (Link × Expr)
  | .binary left gap op trivia right =>
    (left.spine.1, left.spine.2 ++ (⟨gap, op, trivia⟩, right.spine.1) :: right.spine.2)
  | e => (e, [])

def joinSpines (x : Expr × List (Link × Expr)) (k : Link) (y : Expr × List (Link × Expr)) :
    Expr × List (Link × Expr) :=
  (x.1, x.2 ++ (k, y.1) :: y.2)

def IsOperand : Expr → Prop
  | .binary .. => False
  | _ => True

end Expr

/-- Whether `op` may stand between `left` and `right`: an operator at the top of `left` was applied
before `op` came, and one at the top of `right` binds tightly enough. -/
structure Operator.Between (ops : Operators) (op : Operator) (left right : Expr) : Prop where
  left_first : ∀ q, left.operator? ops = some q → op.precedence.toNat < q.nextMinimum
  right_tight : ∀ r, right.operator? ops = some r → op.nextMinimum ≤ r.precedence.toNat

theorem Operator.Joins.between {ops : Operators} {op : Operator} {left right : Expr}
    (h : op.Joins ops left right) (ho : ¬ op.Overflows) : op.Between ops left right where
  left_first q hq := lt_nextMinimum (h.left_closed q (Expr.mem_edge_of_operator? hq))
  right_tight r hr := (rightMinimum_le_iff ho).mp (h.right_tight r hr)

namespace Expr

/-- Each operator may stand between its two operands. -/
def Arranged (ops : Operators) : Expr → Prop
  | .binary left _ op _ right =>
    left.Arranged ops ∧ right.Arranged ops ∧
      ∃ p, ops.get? op.kind = some p ∧ p.Between ops left right
  | _ => True

variable {ops : Operators} {e : Expr}

theorem Fits.arranged (hb : ops.Bounded) : ∀ {e : Expr} {rest : Token.Stream},
    e.Fits ops rest → e.Arranged ops
  | .name _, _, _ => trivial
  | .call .., _, _ => trivial
  | .binary .., _, ⟨hl, hr, _, _, _, p, hp, hj⟩ =>
    ⟨Fits.arranged hb hl, Fits.arranged hb hr, p, hp, hj.between (hb _ p hp)⟩

/-- A precedence that is too low for the right operand of the operator at the top of an arranged
expression is too low for those of all operators at its end. -/
theorem Arranged.lt_nextMinimum {n : Nat} : ∀ {e : Expr}, e.Arranged ops →
    (∀ q, e.operator? ops = some q → n < q.nextMinimum) → ∀ q ∈ e.edge ops, n < q.nextMinimum
  | .name _, _, _, _, hq => by cases hq
  | .call .., _, _, _, hq => by cases hq
  | .binary left gap op trivia right, ⟨_, hr, p, hp, hj⟩, hn, q, hq => by
    rw [edge_binary hp] at hq
    rcases List.mem_cons.mp hq with rfl | hq
    · exact hn q hp
    · refine hr.lt_nextMinimum (fun r h => ?_) q hq
      have := hn p hp
      have := hj.right_tight r h
      have := r.le_nextMinimum
      omega

theorem Arranged.joins (hb : ops.Bounded) {left right : Expr} {p : Operator} {kind : Kind}
    (hl : left.Arranged ops) (hp : ops.get? kind = some p) (h : p.Between ops left right) :
    p.Joins ops left right where
  left_closed q hq := by
    have hlt := hl.lt_nextMinimum h.left_first q hq
    obtain ⟨kind', hq⟩ := exists_of_mem_edge hq
    exact (Operator.lt_rightMinimum_iff (hb kind' q hq)).mpr hlt
  right_tight r hr := (Operator.rightMinimum_le_iff (hb kind p hp)).mpr (h.right_tight r hr)

theorem IsOperand.spine_eq (h : e.IsOperand) : e.spine = (e, []) := by
  cases e with
  | binary => exact h.elim
  | _ => rfl

theorem IsOperand.operator?_eq (h : e.IsOperand) : e.operator? ops = none := by
  cases e with
  | binary => exact h.elim
  | _ => rfl

theorem IsOperand.arranged (h : e.IsOperand) : e.Arranged ops := by
  cases e with
  | binary => exact h.elim
  | _ => trivial

end Expr

namespace ShuntingYard

variable {ops : Operators} {p : Operator} {k : Link} {w : List (Expr × Link)} {a : Expr}
  {rest : List (Link × Expr)}

theorem appliesFirst_iff {j : Link} (hp : ops.get? k.op.kind = some p) :
    ops.appliesFirst j k ↔
      ∃ q, ops.get? j.op.kind = some q ∧ p.precedence.toNat < q.nextMinimum := by
  unfold Operators.appliesFirst
  cases ops.get? j.op.kind <;> simp [hp]

/-- `p` binds tightly enough for the right operand of the operator that waits on top. -/
def Under (ops : Operators) (w : List (Expr × Link)) (p : Operator) : Prop :=
  ∀ x ∈ w.head?, ∀ q, ops.get? x.2.op.kind = some q → q.nextMinimum ≤ p.precedence.toNat

theorem shunt_of_under (hp : ops.get? k.op.kind = some p) (hu : Under ops w p) :
    shunt ops Expr.join k w a = (a, k) :: w := by
  cases w with
  | nil => rfl
  | cons x w =>
    obtain ⟨l, j⟩ := x
    have hj : ¬ ops.appliesFirst j k := by
      rw [appliesFirst_iff hp]
      rintro ⟨q, hq, hlt⟩
      have := hu (l, j) rfl q hq
      omega
    rw [shunt, if_neg hj]

/-- What comes after an expression ends its operators: each of them is applied before. -/
def Ends (ops : Operators) (e : Expr) (rest : List (Link × Expr)) : Prop :=
  ∀ x ∈ rest.head?, ∃ p, ops.get? x.1.op.kind = some p ∧
    ∀ q, e.operator? ops = some q → p.precedence.toNat < q.nextMinimum

theorem run_spine : ∀ {e : Expr} {w : List (Expr × Link)} {rest : List (Link × Expr)},
    e.Arranged ops → (∀ p, e.operator? ops = some p → Under ops w p) → Ends ops e rest →
    run ops Expr.join w e.spine.1 (e.spine.2 ++ rest) = run ops Expr.join w e rest
  | .name _, _, _, _, _, _ => rfl
  | .call .., _, _, _, _, _ => rfl
  | .binary left gap op trivia right, w, rest, ⟨hl, hr, p, hp, hj⟩, hu, he => by
    have hup : Under ops w p := hu p hp
    have hul : ∀ q, left.operator? ops = some q → Under ops w q := by
      intro q hq x hx r hr
      have := hup x hx r hr
      have := hj.left_first q hq
      have := q.nextMinimum_le
      omega
    have hel : Ends ops left ((⟨gap, op, trivia⟩, right.spine.1) :: (right.spine.2 ++ rest)) := by
      rintro x ⟨⟩
      exact ⟨p, hp, hj.left_first⟩
    have hur : ∀ r, right.operator? ops = some r →
        Under ops ((left, ⟨gap, op, trivia⟩) :: w) r := by
      rintro r hr x ⟨⟩ q hq
      obtain rfl : p = q := Option.some.inj (hp.symm.trans hq)
      exact hj.right_tight r hr
    have her : Ends ops right rest := by
      intro x hx
      obtain ⟨p', hp', hlt⟩ := he x hx
      refine ⟨p', hp', ?_⟩
      intro r hr
      have := hlt p hp
      have := hj.right_tight r hr
      have := r.le_nextMinimum
      omega
    calc run ops Expr.join w left.spine.1
          (left.spine.2 ++ (⟨gap, op, trivia⟩, right.spine.1) :: right.spine.2 ++ rest)
      _ = run ops Expr.join w left.spine.1
          (left.spine.2 ++ (⟨gap, op, trivia⟩, right.spine.1) :: (right.spine.2 ++ rest)) := by
        rw [List.append_assoc, List.cons_append]
      _ = run ops Expr.join w left ((⟨gap, op, trivia⟩, right.spine.1) ::
          (right.spine.2 ++ rest)) := run_spine hl hul hel
      _ = run ops Expr.join ((left, ⟨gap, op, trivia⟩) :: w) right.spine.1
          (right.spine.2 ++ rest) := by
        rw [run, shunt_of_under (k := ⟨gap, op, trivia⟩) hp hup]
      _ = run ops Expr.join ((left, ⟨gap, op, trivia⟩) :: w) right rest := run_spine hr hur her
      _ = run ops Expr.join w (.binary left gap op trivia right) rest := by
        cases rest with
        | nil => rfl
        | cons x rest =>
          obtain ⟨k, b⟩ := x
          obtain ⟨p', hp', hlt⟩ := he (k, b) rfl
          have ha : ops.appliesFirst ⟨gap, op, trivia⟩ k :=
            (appliesFirst_iff hp').mpr ⟨p, hp, hlt p hp⟩
          rw [run, shunt, if_pos ha]
          rfl

theorem shuntingYard_spine {e : Expr} (h : e.Arranged ops) :
    shuntingYard ops Expr.join e.spine.1 e.spine.2 = e := by
  have hu (p : Operator) : Under ops [] p := by
    rintro x ⟨⟩
  have he : Ends ops e [] := by
    rintro x ⟨⟩
  have hr := run_spine h (fun p _ => hu p) he
  rwa [List.append_nil] at hr

/-- Operands and operators in order fix an arranged expression. -/
theorem eq_of_spine_eq {e e' : Expr} (h : e.Arranged ops) (h' : e'.Arranged ops)
    (hs : e.spine = e'.spine) : e = e' := by
  rw [← shuntingYard_spine h, hs, shuntingYard_spine h']

section Existence

/-- The invariant of the stack: what waits is arranged so far. -/
def Waits (ops : Operators) : List (Expr × Link) → Prop
  | [] => True
  | (l, k) :: w => l.Arranged ops ∧ (∃ p, ops.get? k.op.kind = some p ∧ Under ops w p ∧
      ∀ q, l.operator? ops = some q → p.precedence.toNat < q.nextMinimum) ∧ Waits ops w

theorem Waits.join {l : Expr} (hw : Waits ops ((l, k) :: w)) (ha : a.Arranged ops)
    (hu : ∀ q, a.operator? ops = some q → Under ops ((l, k) :: w) q) :
    (l.join k a).Arranged ops ∧ ∀ q, (l.join k a).operator? ops = some q → Under ops w q := by
  obtain ⟨hl, ⟨p, hp, hup, hcl⟩, _⟩ := hw
  refine ⟨⟨hl, ha, p, hp, hcl, fun r hr => hu r hr (l, k) rfl p hp⟩, ?_⟩
  intro q hq
  obtain rfl : p = q := Option.some.inj (hp.symm.trans hq)
  exact hup

theorem finish_arranged (hw : Waits ops w) (ha : a.Arranged ops)
    (hu : ∀ q, a.operator? ops = some q → Under ops w q) :
    (finish Expr.join w a).Arranged ops := by
  induction w generalizing a with
  | nil => exact ha
  | cons x w ih =>
    obtain ⟨l, k⟩ := x
    obtain ⟨hj, huj⟩ := hw.join ha hu
    exact ih hw.2.2 hj huj

theorem shunt_waits (hp : ops.get? k.op.kind = some p) (hw : Waits ops w) (ha : a.Arranged ops)
    (hu : ∀ q, a.operator? ops = some q → Under ops w q)
    (hc : ∀ q, a.operator? ops = some q → p.precedence.toNat < q.nextMinimum) :
    Waits ops (shunt ops Expr.join k w a) := by
  induction w generalizing a with
  | nil => exact ⟨ha, ⟨p, hp, by rintro x ⟨⟩, hc⟩, trivial⟩
  | cons x w ih =>
    obtain ⟨l, j⟩ := x
    rw [shunt]
    split
    · next hj =>
      obtain ⟨q, hq, hlt⟩ := (appliesFirst_iff hp).mp hj
      obtain ⟨hja, huj⟩ := hw.join ha hu
      apply ih hw.2.2 hja huj
      intro q' hq'
      obtain rfl : q = q' := Option.some.inj (hq.symm.trans hq')
      exact hlt
    · next hj =>
      rw [appliesFirst_iff hp] at hj
      refine ⟨ha, ⟨p, hp, ?_, hc⟩, hw⟩
      rintro x ⟨⟩ q hq
      apply Nat.le_of_not_lt
      intro hlt
      exact hj ⟨q, hq, hlt⟩

theorem run_arranged (hw : Waits ops w) (ha : a.IsOperand)
    (hr : ∀ x ∈ rest, x.2.IsOperand ∧ ∃ p, ops.get? x.1.op.kind = some p) :
    (run ops Expr.join w a rest).Arranged ops := by
  induction rest generalizing w a with
  | nil => exact finish_arranged hw ha.arranged (by simp [ha.operator?_eq])
  | cons x rest ih =>
    obtain ⟨k, b⟩ := x
    obtain ⟨hb, p, hp⟩ := hr (k, b) List.mem_cons_self
    refine ih (shunt_waits hp hw ha.arranged ?_ ?_) hb fun x hx => hr x (List.mem_cons_of_mem _ hx)
    · simp [ha.operator?_eq]
    · simp [ha.operator?_eq]

theorem shuntingYard_arranged (ha : a.IsOperand)
    (hr : ∀ x ∈ rest, x.2.IsOperand ∧ ∃ p, ops.get? x.1.op.kind = some p) :
    (shuntingYard ops Expr.join a rest).Arranged ops :=
  run_arranged trivial ha hr

theorem spine_shuntingYard (ha : a.IsOperand) (hr : ∀ x ∈ rest, x.2.IsOperand) :
    (shuntingYard ops Expr.join a rest).spine = (a, rest) := by
  have hmap : ∀ l k r, (Expr.join l k r).spine = Expr.joinSpines l.spine k r.spine :=
    fun _ _ _ => rfl
  have hassoc : ∀ x j y k z, Expr.joinSpines (Expr.joinSpines x j y) k z =
      Expr.joinSpines x j (Expr.joinSpines y k z) := by simp [Expr.joinSpines]
  rw [map_shuntingYard hmap, shuntingYard_of_assoc hassoc, ha.spine_eq]
  clear ha
  induction rest generalizing a with
  | nil => rfl
  | cons x rest ih =>
    obtain ⟨k, b⟩ := x
    have hb := (hr (k, b) List.mem_cons_self).spine_eq
    have ih := @ih b (List.forall_mem_cons.mp hr).2
    simp only [List.map_cons, joinAll, hb, ih]
    rfl

end Existence

end ShuntingYard

end Verbatim
