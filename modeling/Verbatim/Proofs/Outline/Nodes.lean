import Verbatim.Block.Outline
import Mathlib.Data.List.Infix
import Mathlib.Tactic.Common

/-! # Nodes of an outline

The roots of a block are unfolded along the references. A node of the unfolding is a term with an
address, which tells its place and that of each node above it among their siblings. In the order of
addresses a node comes before all that is below it, and this before its later siblings.
-/

namespace Verbatim.Block

/-- The places among siblings by which one comes to a node from the roots. -/
abbrev Address := List Nat

namespace Address

def above (a : Address) : List Address :=
  a.inits.tail.dropLast

def next : Address → Address
  | [] => []
  | [k] => [k + 1]
  | k :: l :: a => k :: next (l :: a)

variable {a : Address}

theorem next_cons (h : a ≠ []) (k : Nat) : next (k :: a) = k :: next a := by
  cases a with
  | nil => exact (h rfl).elim
  | cons l a => rfl

theorem next_ne_nil (h : a ≠ []) : next a ≠ [] := by
  match a, h with
  | [_], _ => simp [next]
  | _ :: _ :: _, _ => simp [next]

theorem above_singleton (k : Nat) : above [k] = [] := rfl

theorem above_cons (h : a ≠ []) (k : Nat) : above (k :: a) = [k] :: (above a).map (k :: ·) := by
  cases a with
  | nil => exact (h rfl).elim
  | cons l a =>
    simp only [above, List.inits_cons, List.tail_cons, List.map_cons]
    rw [List.dropLast_cons_of_ne_nil (by cases a <;> simp), List.map_dropLast]

theorem ne_nil_of_mem_above {p : Address} (h : p ∈ above a) : p ≠ [] := by
  cases a with
  | nil => simp [above] at h
  | cons k a =>
    have hm := List.mem_of_mem_dropLast h
    rw [List.inits_cons, List.tail_cons] at hm
    obtain ⟨q, -, rfl⟩ := List.mem_map.mp hm
    exact List.cons_ne_nil k q

end Address

namespace Outline

variable (b : Block)

def descend (ts : List Term) : Address → Option Term
  | [] => none
  | [k] => ts[k]?
  | k :: l :: a => ts[k]?.bind fun t => descend (children b t) (l :: a)

def hasLater (ts : List Term) (a : Address) : Bool :=
  (descend b ts a.next).isSome

/-- The line of a node: a column for each node above it, which goes on to a later sibling of that
node if there is one, and what the node shows behind a connector. -/
def line (ts : List Term) (a : Address) (t : Term) : String :=
  String.join (a.above.map fun p => if hasLater b ts p then "│ " else "  ") ++
    (if hasLater b ts a then "├─ " else "└─ ") ++ caption t ++ "\n"

/-- The siblings from place `k` on, each before the nodes below it, which `below` lists. -/
def nodesFrom (below : List Term → List (Address × Term)) (k : Nat) :
    List Term → List (Address × Term)
  | [] => []
  | t :: ts =>
    ([k], t) :: (below (children b t)).map (fun x => (k :: x.1, x.2)) ++ nodesFrom below (k + 1) ts

def nodes : Nat → List Term → List (Address × Term)
  | 0 => fun _ => []
  | depth + 1 => nodesFrom b (nodes depth) 0

variable {b} {ts us : List Term} {t u : Term} {a : Address} {k depth : Nat}

section Lines

theorem descend_cons (h : a ≠ []) (hk : ts[k]? = some t) :
    descend b ts (k :: a) = descend b (children b t) a := by
  cases a with
  | nil => exact (h rfl).elim
  | cons l a => simp [descend, hk]

theorem hasLater_cons (h : a ≠ []) (hk : ts[k]? = some t) :
    hasLater b ts (k :: a) = hasLater b (children b t) a := by
  rw [hasLater, Address.next_cons h, descend_cons (Address.next_ne_nil h) hk, hasLater]

theorem hasLater_singleton (h : ts.drop k = t :: us) : hasLater b ts [k] = !us.isEmpty := by
  have hn : (ts.drop k)[1]? = us.head? := by rw [h]; cases us <;> rfl
  rw [List.getElem?_drop] at hn
  rw [hasLater, Address.next, descend, hn]
  cases us <;> rfl

theorem line_singleton (h : ts.drop k = t :: us) : line b ts [k] t =
    connector us.isEmpty ++ " " ++ caption t ++ "\n" := by
  rw [line, hasLater_singleton h, Address.above_singleton]
  cases us <;> rfl

theorem line_cons (h : a ≠ []) (hk : ts.drop k = t :: us) : line b ts (k :: a) u =
    rail us.isEmpty ++ line b (children b t) a u := by
  have ht : ts[k]? = some t := by
    have h0 : (ts.drop k)[0]? = some t := by rw [hk]; rfl
    simpa using h0
  have hmap : (a.above.map (k :: ·)).map (fun p => if hasLater b ts p then "│ " else "  ") =
      a.above.map fun p => if hasLater b (children b t) p then "│ " else "  " := by
    rw [List.map_map]
    refine List.map_congr_left fun p hp => ?_
    rw [Function.comp_apply, hasLater_cons (Address.ne_nil_of_mem_above hp) ht]
  rw [line, Address.above_cons h, List.map_cons, hmap, hasLater_singleton hk, hasLater_cons h ht,
    String.join_cons, line]
  cases us <;> simp [rail, String.append_assoc]

theorem eq_cons_of_mem_nodesFrom {below : List Term → List (Address × Term)}
    (h : (a, u) ∈ nodesFrom b below k ts) : ∃ j c, a = j :: c ∧ k ≤ j := by
  induction ts generalizing k with
  | nil => cases h
  | cons t ts ih =>
    rw [nodesFrom, List.cons_append] at h
    rcases List.mem_cons.mp h with h | h
    · exact ⟨k, [], congrArg Prod.fst h, Nat.le_refl k⟩
    · rcases List.mem_append.mp h with h | h
      · obtain ⟨x, -, hx⟩ := List.mem_map.mp h
        exact ⟨k, x.1, (congrArg Prod.fst hx).symm, Nat.le_refl k⟩
      · obtain ⟨j, c, rfl, hle⟩ := ih h
        exact ⟨j, c, rfl, Nat.le_of_succ_le hle⟩

theorem ne_nil_of_mem_nodes (h : (a, u) ∈ nodes b depth ts) : a ≠ [] := by
  cases depth with
  | zero => cases h
  | succ depth =>
    obtain ⟨j, c, rfl, -⟩ := eq_cons_of_mem_nodesFrom h
    exact List.cons_ne_nil j c

theorem siblings_eq_join
    (h : ∀ lead us, levels b depth lead us =
      String.join ((nodes b depth us).map fun x => lead ++ line b us x.1 x.2))
    (lead : String) (hk : us.drop k = ts) : siblings b (levels b depth) lead ts =
      String.join ((nodesFrom b (nodes b depth) k ts).map fun x => lead ++ line b us x.1 x.2) := by
  induction ts generalizing k with
  | nil => rfl
  | cons t ts ih =>
    have hbelow : ∀ x ∈ nodes b depth (children b t), lead ++ rail ts.isEmpty ++
        line b (children b t) x.1 x.2 = lead ++ line b us (k :: x.1) x.2 := by
      intro x hx
      rw [line_cons (ne_nil_of_mem_nodes hx) hk, String.append_assoc]
    have hlater : us.drop (k + 1) = ts := by
      rw [← List.drop_drop, hk, List.drop_one, List.tail_cons]
    rw [siblings, h, ih hlater, nodesFrom, List.cons_append, List.map_cons, List.map_append,
      List.map_map, String.join_cons, String.join_append, line_singleton hk,
      List.map_congr_left hbelow]
    simp only [String.append_assoc, Function.comp_def]

/-- The lines that are drawn are those of the nodes, in order. -/
theorem levels_eq_join (depth : Nat) (lead : String) (ts : List Term) : levels b depth lead ts =
    String.join ((nodes b depth ts).map fun x => lead ++ line b ts x.1 x.2) := by
  induction depth generalizing lead ts with
  | zero => rfl
  | succ depth ih => exact siblings_eq_join ih lead List.drop_zero

end Lines

section Order

variable {below : List Term → List (Address × Term)}

theorem pairwise_nodesFrom (hne : ∀ us, ∀ x ∈ below us, x.1 ≠ [])
    (h : ∀ us, (below us).Pairwise fun x y => x.1 < y.1) (k : Nat) (ts : List Term) :
    (nodesFrom b below k ts).Pairwise fun x y => x.1 < y.1 := by
  induction ts generalizing k with
  | nil => exact .nil
  | cons t ts ih =>
    rw [nodesFrom]
    refine List.pairwise_append.mpr ⟨List.pairwise_cons.mpr ⟨?_, ?_⟩, ih (k + 1), ?_⟩
    · intro x hx
      obtain ⟨y, hy, rfl⟩ := List.mem_map.mp hx
      obtain ⟨l, a, ha⟩ := List.exists_cons_of_ne_nil (hne _ y hy)
      rw [ha]
      exact List.cons_lt_cons_iff.mpr (.inr ⟨rfl, List.nil_lt_cons l a⟩)
    · exact List.pairwise_map.mpr
        ((h _).imp fun hlt => List.cons_lt_cons_iff.mpr (.inr ⟨rfl, hlt⟩))
    · intro x hx y hy
      obtain ⟨a, ha⟩ : ∃ a, x.1 = k :: a := by
        rcases List.mem_cons.mp hx with rfl | hx
        · exact ⟨[], rfl⟩
        · obtain ⟨z, -, rfl⟩ := List.mem_map.mp hx
          exact ⟨z.1, rfl⟩
      obtain ⟨j, c, hc, hle⟩ := eq_cons_of_mem_nodesFrom hy
      rw [ha, hc]
      exact List.cons_lt_cons_iff.mpr (.inl hle)

theorem pairwise_nodes (depth : Nat) (ts : List Term) :
    (nodes b depth ts).Pairwise fun x y => x.1 < y.1 := by
  induction depth generalizing ts with
  | zero => exact .nil
  | succ depth ih => exact pairwise_nodesFrom (fun _ _ hx => ne_nil_of_mem_nodes hx) ih 0 ts

end Order

end Outline

end Verbatim.Block
