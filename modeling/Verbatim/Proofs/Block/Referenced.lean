import Verbatim.Proofs.Outline.Preorder

/-! # Referenced terms

Whether a term is referred to is told by the terms behind it, while roots are found by the
references of the whole block. In a block whose terms refer back the two agree, and the last term is
a root.
-/

namespace Verbatim.Block

def Numbered (b : Block) : Prop :=
  b.map Term.index = List.range b.length

variable {b d : Block} {ts : List Term} {t : Term} {i j : Nat}

section Appending

theorem numbered_nil : Numbered [] :=
  rfl

theorem Numbered.push (h : b.Numbered) (t : Term) : (b.push t).Numbered := by
  unfold Numbered Block.push at *
  rw [List.map_append, h, List.length_append, List.length_singleton, List.range_succ]
  rfl

theorem map_references_push (b : Block) (t : Term) :
    (b.push t).map Term.references = b.map Term.references ++ [t.references] := by
  unfold push
  rw [List.map_append]
  rfl

theorem foldl_push (h : b.Numbered) (ts : List Term) : (ts.foldl push b).Numbered ∧
    (ts.foldl push b).map Term.references = b.map Term.references ++ ts.map Term.references := by
  induction ts generalizing b with
  | nil => exact ⟨h, (List.append_nil _).symm⟩
  | cons t ts ih =>
    obtain ⟨hnumbered, hrefs⟩ := ih (h.push t)
    constructor
    · exact hnumbered
    · rw [List.foldl_cons, hrefs, map_references_push, List.append_assoc]
      rfl

theorem numbered_ofTerms (ts : List Term) : (ofTerms ts).Numbered :=
  (foldl_push numbered_nil ts).1

theorem map_references_ofTerms (ts : List Term) :
    (ofTerms ts).map Term.references = ts.map Term.references :=
  (foldl_push numbered_nil ts).2

theorem Backward.congr (hb : b.Backward) (h : d.map Term.references = b.map Term.references) :
    d.Backward := by
  have hlen : d.length = b.length := by simpa using congrArg List.length h
  rintro i hd j hj
  have hi : i < b.length := hlen ▸ hd
  have hget : d[i].references = b[i].references := by
    simpa [hd, hi] using congrArg (·[i]?) h
  rw [hget] at hj
  rw [hlen]
  exact hb i hi j hj

end Appending

theorem isReferenced_iff :
    b.isReferenced i ↔ ∃ k t, i < k ∧ b[k]? = some t ∧ i ∈ t.references := by
  unfold isReferenced
  rw [List.any_eq_true]
  constructor
  · rintro ⟨t, ht, hi⟩
    obtain ⟨k, hk⟩ := List.mem_iff_getElem?.mp ht
    rw [List.getElem?_drop] at hk
    exact ⟨i + 1 + k, t, by omega, hk, by simpa [Term.refersTo] using hi⟩
  · rintro ⟨k, t, hk, ht, hi⟩
    refine ⟨t, List.mem_iff_getElem?.mpr ⟨k - (i + 1), ?_⟩, by simpa [Term.refersTo] using hi⟩
    rw [List.getElem?_drop, Nat.add_sub_cancel' hk, ht]

theorem mem_references_iff :
    i ∈ b.references ↔ ∃ k : Nat, ∃ t : Term, b[k]? = some t ∧ i ∈ t.references := by
  unfold references
  rw [List.mem_flatMap]
  constructor
  · rintro ⟨t, ht, hi⟩
    obtain ⟨k, hk⟩ := List.mem_iff_getElem?.mp ht
    exact ⟨k, t, hk, hi⟩
  · rintro ⟨k, t, ht, hi⟩
    exact ⟨t, List.mem_of_getElem? ht, hi⟩

/-- Where terms refer back, only those behind a term can refer to it. -/
theorem isReferenced_iff_mem_references (hb : b.Backward) (hi : i < b.length) :
    b.isReferenced i ↔ i ∈ b.references := by
  rw [isReferenced_iff, mem_references_iff]
  constructor
  · rintro ⟨k, t, -, ht, hm⟩
    exact ⟨k, t, ht, hm⟩
  · rintro ⟨k, t, ht, hm⟩
    obtain ⟨hk, rfl⟩ := List.getElem?_eq_some_iff.mp ht
    rcases hb k hk i hm with hlt | hle
    · exact ⟨k, b[k], hlt, ht, hm⟩
    · omega

section Roots

theorem Numbered.index_eq (h : b.Numbered) (ht : b[i]? = some t) : t.index = i := by
  have hi : i < b.length := (List.getElem?_eq_some_iff.mp ht).1
  have hget : (b.map Term.index)[i]? = some t.index := by
    rw [List.getElem?_map, ht]
    rfl
  rw [h, List.getElem?_range hi] at hget
  exact (Option.some.inj hget).symm

theorem Numbered.zipIdx_eq (h : b.Numbered) : b.zipIdx = b.map fun t => (t, t.index) := by
  rw [List.map_prod_left_eq_zip, h, List.zipIdx_eq_zip_range', List.range_eq_range']

theorem Numbered.roots_eq (h : b.Numbered) :
    b.roots = b.filter fun t => !b.references.contains t.index := by
  unfold roots
  dsimp only
  rw [h.zipIdx_eq, List.filter_map, List.map_map]
  exact List.map_id _

theorem Numbered.pairwise_roots (h : b.Numbered) :
    (b.roots.map Term.index).Pairwise (· < ·) := by
  have hsub : (b.roots.map Term.index).Sublist (List.range b.length) := by
    rw [← h]
    exact (roots_sublist b).map Term.index
  exact List.pairwise_lt_range.sublist hsub

theorem Numbered.roots_eq_filter (h : b.Numbered) (hb : b.Backward) :
    b.roots = b.filter fun t => !b.isReferenced t.index := by
  rw [h.roots_eq]
  refine List.filter_congr fun t ht => ?_
  obtain ⟨i, hi, rfl⟩ := List.mem_iff_getElem.mp ht
  have hindex : b[i].index = i := h.index_eq (List.getElem?_eq_getElem hi)
  have hback : b.isReferenced i = b.references.contains i := by
    rw [Bool.eq_iff_iff, isReferenced_iff_mem_references hb hi, List.contains_iff_mem]
  rw [hindex, hback]

theorem Numbered.mem_roots_iff (h : b.Numbered) (hb : b.Backward) (ht : b[i]? = some t) :
    t ∈ b.roots ↔ ¬ b.isReferenced i := by
  rw [h.roots_eq_filter hb, List.mem_filter, h.index_eq ht]
  simp [List.mem_of_getElem? ht]

theorem not_isReferenced_last (b : Block) : ¬ b.isReferenced (b.length - 1) := by
  rw [isReferenced_iff]
  rintro ⟨k, t, hk, ht, -⟩
  have := (List.getElem?_eq_some_iff.mp ht).1
  omega

theorem Numbered.roots_ne_nil (h : b.Numbered) (hb : b.Backward) (hne : b ≠ []) :
    b.roots ≠ [] := by
  have hlast : b[b.length - 1]? = some (b.getLast hne) := by
    rw [← List.getLast?_eq_getElem?, List.getLast?_eq_some_getLast]
  exact List.ne_nil_of_mem ((h.mem_roots_iff hb hlast).mpr (not_isReferenced_last b))

end Roots

/-- In a block to which terms were appended that refer back or to no term, a term is referred to
from behind if and only if it is no root. The roots are the others, in the order of their places,
and there are some unless the block is empty. -/
theorem roots_ofTerms (ts : List Term) (hts : Backward ts) :
    let b := ofTerms ts
    (∀ i t, b[i]? = some t → (b.isReferenced i ↔ t ∉ b.roots)) ∧
    b.roots = b.filter (fun t => !b.isReferenced t.index) ∧
    (b.roots.map Term.index).Pairwise (· < ·) ∧ (b ≠ [] → b.roots ≠ []) := by
  intro b
  have h : b.Numbered := numbered_ofTerms ts
  have hb : b.Backward := hts.congr (map_references_ofTerms ts)
  refine ⟨fun i t ht => ?_, h.roots_eq_filter hb, h.pairwise_roots, h.roots_ne_nil hb⟩
  rw [h.mem_roots_iff hb ht, not_not]

/-- The first term has a root behind it that refers to it, the second refers to no term. -/
theorem roots_ofTerms_pair :
    let ts : List Term := [⟨.identifier, 7, [.named "x"], none, "x", none⟩,
      ⟨.identifier, 7, [.indexed 5], none, "y", none⟩,
      ⟨.call, 7, [.named "f", .indexed 0], none, "f(x)", none⟩]
    Backward ts ∧ (ofTerms ts).isReferenced 0 ∧ (ofTerms ts).roots.map Term.index = [1, 2] ∧
      ((ofTerms ts).roots.map Term.index).Pairwise (· < ·) := by
  intro ts
  have h : Backward ts := by decide
  exact ⟨h, by decide, by decide, (roots_ofTerms ts h).2.2.1⟩

end Verbatim.Block
