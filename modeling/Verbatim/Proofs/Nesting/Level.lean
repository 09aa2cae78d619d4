import Verbatim.Proofs.Block.Forest
import Verbatim.Proofs.Syntax.Rules

/-! # Nesting levels

The terms of a block have levels, counted from the roots along the references. A forest gives each
term one level, and the greatest of them is how deep the trees nest that the block shows.
-/

namespace Verbatim

/-- The level of the operand at place `j` of a term that has level `n`. The arguments of a call and
the right operand of a binary term are one level further down, the left operand is not. -/
def Term.operandLevel (t : Term) (n j : Nat) : Nat :=
  if t.kind = .binary ∧ t.references.head? = some j then n else n + 1

/-- The term at place `i` of a block has level `n`. -/
inductive Block.Level (b : Block) : (i n : Nat) → Prop where

  | root {i : Nat} {t : Term} : b[i]? = some t → t ∈ b.roots → Level b i 1

  | operand {i j n : Nat} {t : Term} : b[i]? = some t → j ∈ t.references → Level b i n →
      Level b j (t.operandLevel n j)

theorem exists_mem_of_forall₂ {α β : Type} {R : α → β → Prop} {y : β} :
    ∀ {xs : List α} {ys : List β}, List.Forall₂ R xs ys → y ∈ ys → ∃ x ∈ xs, R x y
  | _, _, .cons h hs, hy => by
    rcases List.mem_cons.mp hy with rfl | hy
    · exact ⟨_, List.mem_cons_self, h⟩
    · obtain ⟨x, hx, h⟩ := exists_mem_of_forall₂ hs hy
      exact ⟨x, List.mem_cons_of_mem _ hx, h⟩

theorem Term.references_of_inputs {t : Term} {name : String} {is : List Nat}
    (h : t.inputs = .named name :: is.map .indexed) : t.references = is := by
  rw [references, h, List.filterMap_cons_none rfl, List.filterMap_map]
  exact List.filterMap_some

theorem Term.operandLevel_call {t : Term} (h : t.kind = .call) (n j : Nat) :
    t.operandLevel n j = n + 1 := by
  simp [operandLevel, h]

theorem Term.operandLevel_left {t : Term} {l r : Nat} (h : t.kind = .binary)
    (hr : t.references = [l, r]) (n : Nat) : t.operandLevel n l = n := by
  simp [operandLevel, h, hr]

theorem Term.operandLevel_right {t : Term} {l r : Nat} (hr : t.references = [l, r]) (hne : l ≠ r)
    (n : Nat) : t.operandLevel n r = n + 1 := by
  simp [operandLevel, hr, hne]

namespace Tree

theorem le_deepestArg (n : Nat) : ∀ us : List Tree, n ≤ Tree.deepestArg n us
  | [] => Nat.le_refl n
  | _ :: us => (le_deepestArg n us).trans (Nat.le_max_right ..)

theorem le_deepest (n : Nat) : ∀ u : Tree, n ≤ u.deepest n
  | .name _ => Nat.le_refl n
  | .call _ args => le_deepestArg n args
  | .binary left _ _ => (left.le_deepest n).trans (Nat.le_max_left ..)

theorem deepest_le_deepestArg {n : Nat} {u : Tree} : ∀ {us : List Tree}, u ∈ us →
    u.deepest (n + 1) ≤ Tree.deepestArg n us
  | _ :: _, .head _ => Nat.le_max_left ..
  | _ :: _, .tail _ h => (deepest_le_deepestArg h).trans (Nat.le_max_right ..)

end Tree

namespace Block

variable {b : Block} {i j k n m : Nat} {t t' : Term}

namespace Forest

theorem references_nodup (hf : b.Forest) : b.references.Nodup := by
  refine List.nodup_iff_count_le_one.mpr fun i => ?_
  by_cases hi : i ∈ b.references
  · obtain ⟨s, hs, his⟩ := List.mem_flatMap.mp hi
    obtain ⟨j, hj⟩ := List.mem_iff_getElem?.mp hs
    have hlt : i < b.length :=
      ((hf.placed j s hj).lt_of_mem i his).trans (List.getElem?_eq_some_iff.mp hj).1
    have ht := List.getElem?_eq_getElem hlt
    have hti := (hf.placed i _ ht).index_eq
    have hroot : b[i] ∉ b.roots := fun h => hf.not_mem_references _ h (hti.symm ▸ hi)
    have hone := hf.count_references _ (List.getElem_mem hlt) hroot
    rw [hti] at hone
    exact hone.le
  · exact (List.count_eq_zero_of_not_mem hi).le.trans (Nat.zero_le 1)

theorem eq_of_mem_references (hf : b.Forest) (hi : b[i]? = some t) (hj : b[j]? = some t')
    (h : k ∈ t.references) (h' : k ∈ t'.references) : i = j := by
  have hd := List.pairwise_iff_getElem.mp (List.nodup_flatMap.mp hf.references_nodup).2
  obtain ⟨hil, rfl⟩ := List.getElem?_eq_some_iff.mp hi
  obtain ⟨hjl, rfl⟩ := List.getElem?_eq_some_iff.mp hj
  rcases Nat.lt_trichotomy i j with hlt | heq | hlt
  · exact (hd i j hil hjl hlt h h').elim
  · exact heq
  · exact (hd j i hjl hil hlt h' h).elim

theorem level_unique (hf : b.Forest) (h : b.Level i n) : ∀ {m}, b.Level i m → n = m := by
  have hroot {i : Nat} {t s : Term} (ht : b[i]? = some t) (hr : t ∈ b.roots) (hs : s ∈ b)
      (hi : i ∈ s.references) : False := by
    refine hf.not_mem_references t hr ?_
    rw [(hf.placed i t ht).index_eq]
    exact List.mem_flatMap_of_mem hs hi
  induction h with
  | root ht hr =>
    intro m h'
    cases h' with
    | root => rfl
    | operand hs hi => exact (hroot ht hr (List.mem_of_getElem? hs) hi).elim
  | operand hs hi _ ih =>
    intro m h'
    cases h' with
    | root ht hr => exact (hroot ht hr (List.mem_of_getElem? hs) hi).elim
    | operand hs' hi' h' =>
      obtain rfl := hf.eq_of_mem_references hs hs' hi hi'
      obtain rfl := Option.some.inj (hs.symm.trans hs')
      rw [ih h']

theorem exists_level (hf : b.Forest) : ∀ {i : Nat}, i < b.length → ∃ n, b.Level i n
  | i, hi => by
    have ht := List.getElem?_eq_getElem hi
    by_cases hr : b[i] ∈ b.roots
    · exact ⟨1, .root ht hr⟩
    · have hc := hf.count_references _ (List.getElem_mem hi) hr
      rw [(hf.placed i _ ht).index_eq] at hc
      have hm : i ∈ b.references := List.count_pos_iff.mp (by omega)
      obtain ⟨s, hs, his⟩ := List.mem_flatMap.mp hm
      obtain ⟨j, hj⟩ := List.mem_iff_getElem?.mp hs
      have hlt := (hf.placed j s hj).lt_of_mem i his
      have hjl := (List.getElem?_eq_some_iff.mp hj).1
      obtain ⟨n, hn⟩ := hf.exists_level hjl
      exact ⟨_, .operand hj his hn⟩
termination_by i => b.length - i

theorem existsUnique_level (hf : b.Forest) (hi : i < b.length) : ∃! n, b.Level i n := by
  obtain ⟨n, hn⟩ := hf.exists_level hi
  exact ⟨n, hn, fun m hm => hf.level_unique hm hn⟩

theorem ne_of_references (hf : b.Forest) (hi : b[i]? = some t) (h : t.references = [j, k]) :
    j ≠ k := by
  have hn := (List.nodup_flatMap.mp hf.references_nodup).1 t (List.mem_of_getElem? hi)
  rw [h] at hn
  rintro rfl
  simp at hn

end Forest

mutual

theorem Shows.exists_level (hf : b.Forest) : ∀ {u : Tree} {t : Term} {i n : Nat}, b.Shows t u →
    b[i]? = some t → b.Level i n → ∃ j, b.Level j (u.deepest n)
  | .name _, _, i, _, _, _, hl => ⟨i, hl⟩
  | .call _ args, t, i, n, ⟨hk, is, hin, hs⟩, hi, hl => by
    have hrefs : t.references = is := Term.references_of_inputs hin
    refine hs.exists_level hf ⟨i, hl⟩ fun j hj => ?_
    rw [← Term.operandLevel_call hk n j]
    exact .operand hi (hrefs ▸ hj) hl
  | .binary left _ right, t, i, n, ⟨hk, j, k, l, r, hin, hj, hsl, hk', hsr⟩, hi, hl => by
    have hrefs : t.references = [j, k] := Term.references_of_inputs hin
    have hll : b.Level j n := by
      rw [← Term.operandLevel_left hk hrefs n]
      exact .operand hi (by simp [hrefs]) hl
    have hlr : b.Level k (n + 1) := by
      rw [← Term.operandLevel_right hrefs (hf.ne_of_references hi hrefs) n]
      exact .operand hi (by simp [hrefs]) hl
    rw [Tree.deepest]
    rcases Nat.le_total (left.deepest n) (right.deepest (n + 1)) with hle | hle
    · rw [Nat.max_eq_right hle]
      exact hsr.exists_level hf hk' hlr
    · rw [Nat.max_eq_left hle]
      exact hsl.exists_level hf hj hll

theorem ShowsAll.exists_level (hf : b.Forest) : ∀ {us : List Tree} {is : List Nat} {n : Nat},
    b.ShowsAll is us → (∃ i, b.Level i n) → (∀ i ∈ is, b.Level i (n + 1)) →
    ∃ j, b.Level j (Tree.deepestArg n us)
  | [], _, _, _, hn, _ => hn
  | u :: us, _, n, ⟨i, js, t, his, hi, hs, hss⟩, hn, hl => by
    subst his
    obtain ⟨hli, hljs⟩ := List.forall_mem_cons.mp hl
    rw [Tree.deepestArg]
    rcases Nat.le_total (u.deepest (n + 1)) (Tree.deepestArg n us) with hle | hle
    · rw [Nat.max_eq_right hle]
      exact hss.exists_level hf hn hljs
    · rw [Nat.max_eq_left hle]
      exact hs.exists_level hf hi hli

end

theorem ShowsAll.exists_of_mem : ∀ {us : List Tree} {is : List Nat}, b.ShowsAll is us → i ∈ is →
    ∃ t, ∃ u ∈ us, b[i]? = some t ∧ b.Shows t u
  | [], _, rfl, hm => by cases hm
  | u :: _, _, ⟨_, _, t, rfl, ht, hs, _⟩, .head _ => ⟨t, u, List.mem_cons_self, ht, hs⟩
  | _ :: _, _, ⟨_, _, _, rfl, _, _, hss⟩, .tail _ hm => by
    obtain ⟨t, u, hu, ht, hs⟩ := hss.exists_of_mem hm
    exact ⟨t, u, List.mem_cons_of_mem _ hu, ht, hs⟩

theorem Shows.exists_operand (hf : b.Forest) {u : Tree} (h : b.Shows t u) (hi : b[i]? = some t)
    (hj : j ∈ t.references) : ∃ s v, b[j]? = some s ∧ b.Shows s v ∧
      v.deepest (t.operandLevel n j) ≤ u.deepest n := by
  cases u with
  | name =>
    have hrefs : t.references = [] := Term.references_of_inputs h.2
    simp [hrefs] at hj
  | call callee args =>
    obtain ⟨hk, is, hin, hs⟩ := h
    rw [Term.references_of_inputs hin] at hj
    obtain ⟨s, v, hv, hs, hsv⟩ := hs.exists_of_mem hj
    rw [Term.operandLevel_call hk]
    exact ⟨s, v, hs, hsv, Tree.deepest_le_deepestArg hv⟩
  | binary left op right =>
    obtain ⟨hk, l, r, s, s', hin, hl, hsl, hr, hsr⟩ := h
    have hrefs : t.references = [l, r] := Term.references_of_inputs hin
    rw [hrefs] at hj
    rcases List.mem_pair.mp hj with rfl | rfl
    · rw [Term.operandLevel_left hk hrefs]
      exact ⟨s, left, hl, hsl, Nat.le_max_left ..⟩
    · rw [Term.operandLevel_right hrefs (hf.ne_of_references hi hrefs)]
      exact ⟨s', right, hr, hsr, Nat.le_max_right ..⟩

/-- A term that has a level shows a tree that nests no deeper than the trees of the roots. -/
theorem Level.exists_shows {us : List Tree} (hf : b.Forest) (hs : List.Forall₂ b.Shows b.roots us)
    (hm : ∀ u ∈ us, u.deepest 1 ≤ m) (h : b.Level i n) :
    ∃ t u, b[i]? = some t ∧ b.Shows t u ∧ u.deepest n ≤ m := by
  induction h with
  | root ht hr =>
    obtain ⟨u, hu, hsu⟩ := exists_mem_of_forall₂ (.flip hs) hr
    exact ⟨_, u, ht, hsu, hm u hu⟩
  | operand hi hj _ ih =>
    obtain ⟨t, u, ht, hsu, hle⟩ := ih
    obtain rfl := Option.some.inj (ht.symm.trans hi)
    obtain ⟨s, v, hs, hsv, hvu⟩ := hsu.exists_operand hf hi hj
    exact ⟨s, v, hs, hsv, hvu.trans hle⟩

theorem level_le_iff (ps : List Phrase) : (∀ i n, (ofPhrases 0 ps).Level i n → n ≤ m) ↔
    ∀ u ∈ ps.map Phrase.tree, u.deepest 1 ≤ m := by
  have hf := forest_ofPhrases ps
  have hs := shows_roots ps
  constructor
  · intro h u hu
    obtain ⟨t, ht, hsu⟩ := exists_mem_of_forall₂ hs hu
    obtain ⟨i, hi⟩ := List.mem_iff_getElem?.mp ((roots_sublist _).mem ht)
    obtain ⟨j, hj⟩ := hsu.exists_level hf hi (.root hi ht)
    exact h j _ hj
  · intro h i n hl
    obtain ⟨t, u, -, -, hle⟩ := hl.exists_shows hf hs h
    exact (u.le_deepest n).trans hle

end Block

end Verbatim
