import Verbatim.Token.Lines
import Mathlib.Data.List.Basic
import Mathlib.Tactic.Common

/-! # Slices by binary search

Where a predicate holds of a first run of elements only, binary search finds the end of this run. So
in tokens with ascending line numbers it finds the two ends of a line, and between them stand the
tokens with the number of the line and no others.
-/

namespace Verbatim

/-- The search keeps the end `k` of the run among the places that are left, or right after them. -/
theorem partitionFrom_eq {p : Nat → Bool} {base size k : Nat} (hb : base ≤ k)
    (hk : k ≤ base + size) (hs : 0 < size)
    (hp : ∀ i, base ≤ i → i < base + size → (p i ↔ i < k)) : partitionFrom p base size = k := by
  fun_induction partitionFrom p base size with
  | case1 base size h hpb =>
    have := (hp base (Nat.le_refl _) (by omega)).mp hpb
    omega
  | case2 base size h hpb =>
    have : ¬ base < k := fun hlt => hpb ((hp base (Nat.le_refl _) (by omega)).mpr hlt)
    omega
  | case3 base size h ih =>
    have hmid := hp (base + size / 2) (by omega) (by omega)
    split_ifs at ih ⊢ with hpm
    · have := hmid.mp hpm
      exact ih (by omega) (by omega) (by omega) fun i hi hlt => hp i (by omega) (by omega)
    · have : ¬ base + size / 2 < k := fun hlt => hpm (hmid.mpr hlt)
      exact ih hb (by omega) (by omega) fun i hi hlt => hp i hi (by omega)

theorem partitionPoint_append {α : Type} {p : α → Bool} {xs ys : List α} (hx : ∀ x ∈ xs, p x)
    (hy : ∀ y ∈ ys, ¬ p y) : partitionPoint p (xs ++ ys).toArray = xs.length := by
  unfold partitionPoint
  by_cases he : xs ++ ys = []
  · obtain ⟨rfl, rfl⟩ := List.append_eq_nil_iff.mp he
    rfl
  · rw [if_neg (by simpa using he)]
    have hs : 0 < (xs ++ ys).toArray.size := by
      rw [List.size_toArray]
      exact List.length_pos_iff.mpr he
    refine partitionFrom_eq (Nat.zero_le _) (by simp) hs ?_
    intro i _ hi
    rw [List.getElem?_toArray]
    by_cases hlt : i < xs.length
    · simp [List.getElem?_append_left hlt, hlt, hx]
    · have hlen : i - xs.length < ys.length := by
        simp only [List.size_toArray, List.length_append] at hi
        omega
      simp [List.getElem?_append_right (Nat.le_of_not_lt hlt), hlen, hlt, hy]

namespace Token

variable {ts : List Token}

/-- Ascending line numbers divide tokens into those before a line, on it and behind it. -/
theorem eq_filter_append (h : ts.Pairwise (·.line ≤ ·.line)) (n : Nat) :
    ts = ts.filter (·.line < n) ++ (ts.filter (·.line = n) ++ ts.filter (n < ·.line)) := by
  induction ts with
  | nil => rfl
  | cons t ts ih =>
    obtain ⟨ht, hts⟩ := List.pairwise_cons.mp h
    have hnone {p : Token → Bool} (hp : ∀ u, t.line ≤ u.line → ¬ p u) : ts.filter p = [] :=
      List.filter_eq_nil_iff.mpr fun u hu => hp u (ht u hu)
    rcases Nat.lt_trichotomy t.line n with hlt | rfl | hgt
    · nth_rewrite 1 [ih hts]
      have : ¬ t.line = n := by omega
      simp [hlt, this, Nat.not_lt_of_gt hlt]
    · have hl : ts.filter (·.line < t.line) = [] := hnone fun u hu => by simpa using hu
      nth_rewrite 1 [ih hts]
      simp [hl]
    · have hl : ts.filter (·.line < n) = [] := hnone fun u hu => by
        simp only [decide_eq_true_eq]
        omega
      have he : ts.filter (·.line = n) = [] := hnone fun u hu => by
        simp only [decide_eq_true_eq]
        omega
      have : ¬ t.line = n := by omega
      nth_rewrite 1 [ih hts]
      simp [hl, he, hgt, this, Nat.not_lt_of_gt hgt]

theorem onLine_append {before line after : List Token} {n : Nat} (hb : ∀ t ∈ before, t.line < n)
    (hl : ∀ t ∈ line, t.line = n) (ha : ∀ t ∈ after, n < t.line) :
    onLine (before ++ (line ++ after)) n = line := by
  have hstart : partitionPoint (fun t => t.line < n) (before ++ (line ++ after)).toArray =
      before.length := by
    apply partitionPoint_append
    · simpa using hb
    · simpa [or_imp, forall_and] using
        ⟨fun t ht => Nat.le_of_eq (hl t ht).symm, fun t ht => Nat.le_of_lt (ha t ht)⟩
  have hstop : partitionPoint (fun t => t.line ≤ n) (before ++ (line ++ after)).toArray =
      (before ++ line).length := by
    rw [← List.append_assoc]
    apply partitionPoint_append
    · simpa [or_imp, forall_and] using
        ⟨fun t ht => Nat.le_of_lt (hb t ht), fun t ht => Nat.le_of_eq (hl t ht)⟩
    · simpa using ha
  rw [onLine, hstart, hstop, ← List.append_assoc, List.take_left, List.drop_left]

theorem onLine_eq_filter (h : ts.Pairwise (·.line ≤ ·.line)) (n : Nat) :
    onLine ts n = ts.filter (·.line = n) := by
  nth_rewrite 1 [eq_filter_append h n]
  apply onLine_append <;> simp

end Token

end Verbatim
