import Verbatim.Proofs.Block.Forest
import Verbatim.Proofs.Outline.Nodes
import Mathlib.Data.List.Sort

/-! # Outlines in preorder

If the terms of a block refer back, their unfolding is finite, and an outline as deep as the block
is long shows all of it: one line for each node, in preorder. A parsed block is a forest, so each of
its terms has one line.
-/

namespace Verbatim.Block

open Outline

/-- Each index to which a term refers is smaller than that of the term, or no term stands there. -/
def Backward (b : Block) : Prop :=
  ∀ i, ∀ h : i < b.length, ∀ j ∈ b[i].references, j < i ∨ b.length ≤ j

instance (b : Block) : Decidable b.Backward :=
  inferInstanceAs (Decidable (∀ i, ∀ h : i < b.length, ∀ j ∈ b[i].references, j < i ∨ b.length ≤ j))

/-- The nodes of the unfolding of the roots, in preorder. -/
def preorder (b : Block) : List (Address × Term) :=
  nodes b b.length b.roots

def Before (b : Block) (n : Nat) (ts : List Term) : Prop :=
  ∀ t ∈ ts, ∃ i < n, b[i]? = some t

variable {b : Block} {ts : List Term} {t u : Term} {a : Address} {n depth : Nat}

theorem children_eq (b : Block) (t : Term) : children b t = t.references.filterMap (b[·]?) := by
  rw [children, Term.references, List.filterMap_filterMap]
  rfl

theorem Before.mono (h : b.Before n ts) (hn : n ≤ depth) : b.Before depth ts := by
  intro t ht
  obtain ⟨i, hi, hbi⟩ := h t ht
  exact ⟨i, hi.trans_le hn, hbi⟩

theorem Before.eq_nil (h : b.Before 0 ts) : ts = [] := by
  refine List.eq_nil_iff_forall_not_mem.mpr fun t ht => ?_
  obtain ⟨i, hi, -⟩ := h t ht
  exact Nat.not_lt_zero i hi

theorem Before.children (hb : b.Backward) (h : b.Before (n + 1) ts) (ht : t ∈ ts) :
    b.Before n (children b t) := by
  obtain ⟨i, hi, hbi⟩ := h t ht
  obtain ⟨hlt, rfl⟩ := List.getElem?_eq_some_iff.mp hbi
  intro u hu
  rw [children_eq] at hu
  obtain ⟨j, hj, hbj⟩ := List.mem_filterMap.mp hu
  have hjlt := (List.getElem?_eq_some_iff.mp hbj).1
  rcases hb i hlt j hj with hji | hle
  · exact ⟨j, by omega, hbj⟩
  · omega

theorem before_roots (b : Block) : b.Before b.length b.roots := by
  intro t ht
  obtain ⟨i, hi⟩ := List.mem_iff_getElem?.mp ((roots_sublist b).mem ht)
  exact ⟨i, (List.getElem?_eq_some_iff.mp hi).1, hi⟩

theorem mem_nodesFrom_iff {below : List Term → List (Address × Term)} {k : Nat} :
    (a, u) ∈ nodesFrom b below k ts ↔ ∃ i t, ts[i]? = some t ∧
      (a = [k + i] ∧ u = t ∨ ∃ c, a = (k + i) :: c ∧ (c, u) ∈ below (children b t)) := by
  induction ts generalizing k with
  | nil => simp [nodesFrom]
  | cons t ts ih =>
    have hfirst : (a, u) ∈ ([k], t) :: (below (children b t)).map (fun x => (k :: x.1, x.2)) ↔
        a = [k] ∧ u = t ∨ ∃ c, a = k :: c ∧ (c, u) ∈ below (children b t) := by
      simp [eq_comm, and_comm]
    have hk (i : Nat) : k + 1 + i = k + (i + 1) := by omega
    rw [nodesFrom, List.mem_append, hfirst, ih]
    constructor
    · rintro (h | ⟨i, v, hv, h⟩)
      · exact ⟨0, t, rfl, h⟩
      · exact ⟨i + 1, v, hv, by rwa [hk] at h⟩
    · rintro ⟨i, v, hv, h⟩
      cases i with
      | zero =>
        obtain rfl : t = v := by simpa using hv
        exact .inl h
      | succ i => exact .inr ⟨i, v, by simpa using hv, by rwa [hk]⟩

theorem mem_nodes_iff (hb : b.Backward) (h : b.Before n ts) :
    (a, u) ∈ nodes b n ts ↔ descend b ts a = some u := by
  induction n generalizing ts a with
  | zero =>
    rw [h.eq_nil]
    cases a with
    | nil => simp [nodes, descend]
    | cons k a => cases a <;> simp [nodes, descend]
  | succ n ih =>
    have hbelow {i : Nat} {t : Term} (ht : ts[i]? = some t) (c : Address) :
        (c, u) ∈ nodes b n (children b t) ↔ descend b (children b t) c = some u :=
      ih (h.children hb (List.mem_of_getElem? ht))
    rw [nodes, mem_nodesFrom_iff]
    simp only [Nat.zero_add]
    constructor
    · rintro ⟨i, t, ht, ⟨rfl, rfl⟩ | ⟨c, rfl, hc⟩⟩
      · exact ht
      · rw [descend_cons (ne_nil_of_mem_nodes hc) ht]
        exact (hbelow ht c).mp hc
    · intro ha
      rcases a with _ | ⟨i, _ | ⟨l, a⟩⟩
      · cases ha
      · exact ⟨i, u, ha, .inl ⟨rfl, rfl⟩⟩
      · obtain ⟨t, ht, hc⟩ := Option.bind_eq_some_iff.mp ha
        exact ⟨i, t, ht, .inr ⟨l :: a, rfl, (hbelow ht _).mpr hc⟩⟩

theorem nodes_eq_of_le (hb : b.Backward) (h : b.Before n ts) (hn : n ≤ depth) :
    nodes b depth ts = nodes b n ts := by
  let r (x y : Address × Term) : Prop := x.1 < y.1
  have : Std.Antisymm r := ⟨fun _ _ hxy hyx => (List.lt_asymm hxy hyx).elim⟩
  have : Std.Irrefl r := ⟨fun x => List.lt_irrefl x.1⟩
  refine List.Pairwise.eq_of_mem_iff (r := r) (pairwise_nodes _ _) (pairwise_nodes _ _) ?_
  rintro ⟨a, u⟩
  rw [mem_nodes_iff hb (h.mono hn), mem_nodes_iff hb h]

theorem outline_eq_join (b : Block) : b.outline = "⧉ " ++ toString b.length ++ " terms\n" ++
    String.join (b.preorder.map fun x => line b b.roots x.1 x.2) := by
  rw [outline, levels_eq_join, preorder]
  simp only [String.empty_append]

section Forests

theorem Forest.backward (h : b.Forest) : b.Backward :=
  fun i hi j hj => .inl ((h.placed i _ (List.getElem?_eq_getElem hi)).lt_of_mem j hj)

/-- What is below the terms at the places `is` stands at the places of a walk from there. -/
theorem Walk.map_nodesFrom {is js : List Nat} (h : b.Forest) (hw : b.Walk is js)
    (hd : ∀ i ∈ is, i ≤ depth) (k : Nat) :
    (nodesFrom b (nodes b depth) k (is.filterMap (b[·]?))).map (fun x => some x.2) =
      js.map (b[·]?) := by
  induction hw generalizing depth k with
  | nil => rfl
  | @cons i t is below js ht hwalk _ ihbelow ihjs =>
    obtain ⟨hi, his⟩ := List.forall_mem_cons.mp hd
    have hlt := (h.placed i t ht).lt_of_mem
    have hbelow : (nodes b depth (children b t)).map (fun x => some x.2) = below.map (b[·]?) := by
      rw [children_eq]
      cases depth with
      | zero =>
        have href : t.references = [] :=
          List.eq_nil_iff_forall_not_mem.mpr fun j hj => by have := hlt j hj; omega
        rw [href] at hwalk ⊢
        cases hwalk
        rfl
      | succ depth => exact ihbelow (fun j hj => by have := hlt j hj; omega) 0
    rw [List.filterMap_cons_some ht, nodesFrom, List.map_append, List.map_cons, List.map_map,
      ihjs his, List.map_cons, List.map_append, ← hbelow, ht]
    rfl

theorem getElem?_index_of_mem_roots (h : b.Forest) (ht : t ∈ b.roots) :
    b[t.index]? = some t := by
  obtain ⟨i, -, hi⟩ := before_roots b t ht
  rw [(h.placed i t hi).index_eq, hi]

theorem filterMap_index_roots (h : b.Forest) :
    (b.roots.map Term.index).filterMap (b[·]?) = b.roots := by
  rw [List.filterMap_map]
  exact (List.filterMap_congr fun _ ht => getElem?_index_of_mem_roots h ht).trans
    List.filterMap_some

theorem perm_preorder (h : b.Forest) {js : List Nat} (hw : b.Walk (b.roots.map Term.index) js)
    (hjs : js.Perm (List.range b.length)) : (b.preorder.map (·.2)).Perm b := by
  have hle : ∀ i ∈ b.roots.map Term.index, i ≤ b.length := by
    intro i hi
    obtain ⟨t, ht, rfl⟩ := List.mem_map.mp hi
    exact (List.getElem?_eq_some_iff.mp (getElem?_index_of_mem_roots h ht)).1.le
  have hnodes : b.preorder.map (fun x => some x.2) = js.map (b[·]?) := by
    rw [preorder, ← nodes_eq_of_le h.backward (before_roots b) (Nat.le_succ _), nodes]
    rw [← hw.map_nodesFrom h hle 0, filterMap_index_roots h]
  have hrange : (List.range b.length).map (b[·]?) = b.map some := by
    refine List.ext_getElem (by simp) fun i hi hi' => ?_
    simp
  have hperm := hjs.map (b[·]?)
  rw [← hnodes, hrange] at hperm
  refine (List.map_perm_map_iff (Option.some_injective _)).mp ?_
  rw [List.map_map]
  exact hperm

theorem perm_preorder_ofPhrases (ps : List Phrase) :
    ((ofPhrases 0 ps).preorder.map (·.2)).Perm (ofPhrases 0 ps) := by
  have hw := walk_ofPhrases (List.prefix_refl (ofPhrases 0 ps))
  rw [← roots_ofPhrases, ← List.range_eq_range'] at hw
  obtain ⟨js, hw, hjs⟩ := hw
  exact perm_preorder (forest_ofPhrases ps) hw hjs

end Forests

end Verbatim.Block
