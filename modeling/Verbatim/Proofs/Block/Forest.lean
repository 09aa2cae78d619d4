import Verbatim.Proofs.Block.Tree
import Mathlib.Data.List.Perm.Basic
import Mathlib.Data.List.Nodup

/-! # Blocks as forests

In a parsed block every term refers to earlier places only, and every term is referred to from one
place, but for the roots, to which nothing refers. So the references lead from the roots to each
term in exactly one way.
-/

namespace Verbatim

namespace Term

def WellShaped (t : Term) : Prop :=
  match t.kind with
  | .identifier => ∃ name, t.inputs = [.named name]
  | .call => ∃ name, ∃ is : List Nat, t.inputs = .named name :: is.map .indexed ∧
      is.Pairwise (· < ·)
  | .binary => ∃ name i, t.inputs = [.named name, .indexed i, .indexed (i + 1)]

structure Placed (i : Nat) (t : Term) : Prop where
  index_eq : t.index = i
  nested_eq : t.nested = none
  wellShaped : t.WellShaped
  lt_of_mem : ∀ j ∈ t.references, j < i

end Term

namespace Block

/-- Each term knows its place and refers back, and each is referred to once unless it is a root. -/
structure Forest (b : Block) : Prop where
  placed : ∀ (i : Nat) (t : Term), b[i]? = some t → t.Placed i
  count_references : ∀ t ∈ b, t ∉ b.roots → b.references.count t.index = 1
  not_mem_references : ∀ t ∈ b.roots, t.index ∉ b.references

/-- Following the references `is` and those of the terms at which they point, one goes by the places
`js`: each comes before those below it. -/
inductive Walk (b : Block) : List Nat → List Nat → Prop where

  | nil : Walk b [] []

  | cons {i : Nat} {t : Term} {is below js : List Nat} : b[i]? = some t →
      Walk b t.references below → Walk b is js → Walk b (i :: is) (i :: (below ++ js))

def PlacedFrom : Nat → List Term → Prop
  | _, [] => True
  | n, t :: ts => t.Placed n ∧ PlacedFrom (n + 1) ts

theorem placedFrom_append_iff {n : Nat} {ts us : List Term} :
    PlacedFrom n (ts ++ us) ↔ PlacedFrom n ts ∧ PlacedFrom (n + ts.length) us := by
  induction ts generalizing n with
  | nil => simp [PlacedFrom]
  | cons t ts ih =>
    have hn : n + (ts.length + 1) = n + 1 + ts.length := by omega
    simp only [List.cons_append, PlacedFrom, ih, List.length_cons, hn, and_assoc]

theorem PlacedFrom.getElem? {n i : Nat} {t : Term} {ts : List Term} (h : PlacedFrom n ts)
    (ht : ts[i]? = some t) : t.Placed (n + i) := by
  induction ts generalizing n i with
  | nil => simp at ht
  | cons u ts ih =>
    cases i with
    | zero =>
      obtain rfl : u = t := by simpa using ht
      exact h.1
    | succ i =>
      have := ih h.2 (by simpa using ht)
      rwa [Nat.add_right_comm] at this

end Block

open Block (PlacedFrom placedFrom_append_iff)

theorem Expr.mem_references_terms {n i : Nat} {e : Expr} (h : i ∈ (e.terms n).2.references) :
    n ≤ i ∧ i < n + (e.terms n).1.length :=
  List.mem_range'_1.mp ((e.references_terms n).mem_iff.mp (List.mem_append_right _ h))

theorem Expr.placed_top {n i : Nat} {e : Expr} {t : Term} (hs : (e.terms n).2.WellShaped)
    (hk : t.kind = (e.terms n).2.kind) (hi : t.inputs = (e.terms n).2.inputs)
    (hn : t.nested = none) (hx : t.index = i) (hle : n + (e.terms n).1.length ≤ i) :
    t.Placed i where
  index_eq := hx
  nested_eq := hn
  wellShaped := by simpa only [Term.WellShaped, hk, hi] using hs
  lt_of_mem := by
    intro j hj
    rw [Term.references, hi] at hj
    have := (Expr.mem_references_terms hj).2
    omega

theorem Expr.nested_terms (n : Nat) (e : Expr) : (e.terms n).2.nested = none := by
  cases e <;> rfl

mutual

theorem Expr.placed_terms (n : Nat) : ∀ e : Expr,
    PlacedFrom n (e.terms n).1 ∧ (e.terms n).2.WellShaped
  | .name ident => ⟨trivial, _, rfl⟩
  | .call callee opening args closing => by
    obtain ⟨hb, is, hi, hp, -⟩ := args.placed_terms n
    exact ⟨hb, _, is, by rw [← hi]; rfl, hp⟩
  | .binary left gap op trivia right => by
    obtain ⟨hl, hsl⟩ := left.placed_terms n
    obtain ⟨hr, hsr⟩ := right.placed_terms (n + (left.terms n).1.length)
    refine ⟨?_, _, _, rfl⟩
    refine placedFrom_append_iff.mpr ⟨placedFrom_append_iff.mpr ⟨hl, hr⟩, ?_, ?_, trivial⟩
    · rw [List.length_append, ← Nat.add_assoc]
      exact Expr.placed_top hsl rfl rfl (left.nested_terms n) rfl (Nat.le_add_right _ _)
    · rw [List.length_append, ← Nat.add_assoc]
      exact Expr.placed_top hsr rfl rfl (right.nested_terms _) rfl (Nat.le_succ _)

theorem Phrase.placed_terms (n : Nat) : ∀ p : Phrase,
    PlacedFrom n ((p.terms n).1 ++ [(p.terms n).2])
  | .mk leading core gap junk trailing => by
    obtain ⟨hb, hs⟩ := core.placed_terms n
    refine placedFrom_append_iff.mpr ⟨hb, ?_, trivial⟩
    exact Expr.placed_top hs rfl rfl (core.nested_terms n) rfl (Nat.le_refl _)

theorem Args.placed_terms (n : Nat) : ∀ args : Args, PlacedFrom n (args.terms n).1 ∧
    ∃ is : List Nat, (args.terms n).2.1 = is.map .indexed ∧ is.Pairwise (· < ·) ∧ ∀ i ∈ is, n ≤ i
  | .nil => ⟨trivial, [], rfl, .nil, by simp⟩
  | .trivia t more => more.placed_terms n
  | .phrase p more => by
    have hp := p.placed_terms n
    obtain ⟨hm, is, hi, hs, hle⟩ := more.placed_terms (n + (p.terms n).1.length + 1)
    refine ⟨?_, (p.terms n).2.index :: is, ?_, ?_, ?_⟩
    · obtain ⟨hb, ht, -⟩ := placedFrom_append_iff.mp hp
      exact placedFrom_append_iff.mpr ⟨hb, ht, hm⟩
    · rw [List.map_cons, ← hi]
      rfl
    · refine List.pairwise_cons.mpr ⟨?_, hs⟩
      intro i h
      have := hle i h
      rw [p.index_terms]
      omega
    · rw [p.index_terms]
      refine List.forall_mem_cons.mpr ⟨Nat.le_add_right _ _, ?_⟩
      intro i h
      have := hle i h
      omega

end

section Walks

variable {b : Block} {n a c : Nat} {is js : List Nat}

theorem perm_walk_pair (hi : is.Perm (List.range' n a)) (hj : js.Perm (List.range' (n + a) c)) :
    ((n + a + c) :: (is ++ (n + a + c + 1) :: (js ++ []))).Perm (List.range' n (a + (c + 2))) := by
  have hpair : (is ++ js ++ [n + a + c, n + a + c + 1]).Perm (List.range' n (a + (c + 2))) := by
    rw [← List.append_nil is] at hi
    rw [← List.append_nil js] at hj
    simpa using perm_range'_pair hi hj
  rw [List.append_nil]
  refine (List.perm_middle.cons _).trans (.trans ?_ hpair)
  exact @List.perm_append_comm _ [_, _] (is ++ js)

theorem perm_walk_cons (hi : is.Perm (List.range' n a))
    (hj : js.Perm (List.range' (n + a + 1) c)) :
    ((n + a) :: (is ++ js)).Perm (List.range' n (a + (c + 1))) := by
  rw [← List.append_nil is] at hi
  exact List.perm_middle.symm.trans (by simpa using perm_range'_cons hi (B := []) hj)

mutual

theorem Expr.walk_terms : ∀ (e : Expr) {n : Nat}, (e.terms n).1 <+: b.drop n →
    ∃ js, b.Walk (e.terms n).2.references js ∧ js.Perm (List.range' n (e.terms n).1.length)
  | .name ident, n, _ => ⟨[], .nil, .refl _⟩
  | .call callee opening args closing, n, h => args.walk_terms h
  | .binary left gap op trivia right, n, h => by
    obtain ⟨hl, hr, hi, hj⟩ := Expr.prefix_drop_terms h
    obtain ⟨is, hwl, hpl⟩ := left.walk_terms hl
    obtain ⟨js, hwr, hpr⟩ := right.walk_terms hr
    refine ⟨_, .cons hi hwl (.cons hj hwr .nil), ?_⟩
    simpa [Expr.terms] using perm_walk_pair hpl hpr

theorem Phrase.walk_terms : ∀ (p : Phrase) {n : Nat}, (p.terms n).1 <+: b.drop n →
    ∃ js, b.Walk (p.terms n).2.references js ∧ js.Perm (List.range' n (p.terms n).1.length)
  | .mk _ core _ _ _, _, h => core.walk_terms h

theorem Args.walk_terms : ∀ (args : Args) {n : Nat}, (args.terms n).1 <+: b.drop n →
    ∃ js, b.Walk ((args.terms n).2.1.filterMap Ref.index?) js ∧
      js.Perm (List.range' n (args.terms n).1.length)
  | .nil, n, _ => ⟨[], .nil, .refl _⟩
  | .trivia t more, n, h => more.walk_terms h
  | .phrase p more, n, h => by
    obtain ⟨hp, hi, hm⟩ := p.prefix_drop_terms h
    obtain ⟨js, hwp, hjs⟩ := p.walk_terms hp
    obtain ⟨ks, hwm, hks⟩ := more.walk_terms hm
    refine ⟨_, .cons hi hwp hwm, ?_⟩
    rw [p.index_terms]
    simpa [Args.terms] using perm_walk_cons hjs hks

end

end Walks

namespace Block

variable {b : Block}

theorem placed_ofPhrases (n : Nat) (ps : List Phrase) : PlacedFrom n (ofPhrases n ps) := by
  induction ps generalizing n with
  | nil => trivial
  | cons p ps ih =>
    obtain ⟨hb, ht, -⟩ := placedFrom_append_iff.mp (p.placed_terms n)
    exact placedFrom_append_iff.mpr ⟨hb, ht, ih _⟩

theorem walk_ofPhrases {ps : List Phrase} {n : Nat} (h : ofPhrases n ps <+: b.drop n) :
    ∃ js, b.Walk ((rootTerms n ps).map Term.index) js ∧
      js.Perm (List.range' n (ofPhrases n ps).length) := by
  induction ps generalizing n with
  | nil => exact ⟨[], .nil, .refl _⟩
  | cons p ps ih =>
    obtain ⟨hp, hi, hps⟩ := p.prefix_drop_terms h
    obtain ⟨js, hwp, hjs⟩ := p.walk_terms hp
    obtain ⟨ks, hwm, hks⟩ := ih hps
    refine ⟨_, .cons hi hwp hwm, ?_⟩
    rw [p.index_terms]
    simpa [ofPhrases] using perm_walk_cons hjs hks

theorem perm_references_roots (n : Nat) (ps : List Phrase) :
    (references (ofPhrases n ps) ++ (rootTerms n ps).map Term.index).Perm
      (List.range' n (ofPhrases n ps).length) := by
  induction ps generalizing n with
  | nil => exact .refl _
  | cons p ps ih =>
    have hp := p.references_terms n
    have hps := ih (n + (p.terms n).1.length + 1)
    simpa [ofPhrases, references, rootTerms, p.index_terms] using perm_range'_cons hp hps

theorem roots_sublist (b : Block) : b.roots.Sublist b := by
  have h := (List.filter_sublist (l := b.zipIdx) (p := fun t => !b.references.contains t.2)).map
    Prod.fst
  rwa [List.zipIdx_map_fst] at h

theorem placed_of_getElem? {ps : List Phrase} {i : Nat} {t : Term}
    (h : (ofPhrases 0 ps)[i]? = some t) : t.Placed i := by
  simpa using (placed_ofPhrases 0 ps).getElem? h

theorem mem_references_or_mem_roots {ps : List Phrase} {i : Nat} {t : Term}
    (h : (ofPhrases 0 ps)[i]? = some t) :
    i ∈ references (ofPhrases 0 ps) ∨ t ∈ roots (ofPhrases 0 ps) := by
  have hlt : i < (ofPhrases 0 ps).length := (List.getElem?_eq_some_iff.mp h).1
  have hmem : i ∈ references (ofPhrases 0 ps) ++ (rootTerms 0 ps).map Term.index :=
    (perm_references_roots 0 ps).mem_iff.mpr (List.mem_range'_1.mpr ⟨Nat.zero_le i, by omega⟩)
  refine (List.mem_append.mp hmem).imp_right fun hr => ?_
  obtain ⟨r, hm, hri⟩ := List.mem_map.mp hr
  rw [← roots_ofPhrases] at hm
  obtain ⟨j, hj⟩ := List.mem_iff_getElem?.mp ((roots_sublist _).mem hm)
  obtain rfl : j = i := (placed_of_getElem? hj).index_eq.symm.trans hri
  obtain rfl : r = t := Option.some.inj (hj.symm.trans h)
  exact hm

theorem forest_ofPhrases (ps : List Phrase) : (ofPhrases 0 ps).Forest := by
  have hnodup := (perm_references_roots 0 ps).nodup_iff.mpr List.nodup_range'
  obtain ⟨hrefs, -, hdisj⟩ := List.nodup_append.mp hnodup
  refine ⟨fun i t => placed_of_getElem?, ?_, ?_⟩
  · intro t ht hroot
    obtain ⟨i, hi⟩ := List.mem_iff_getElem?.mp ht
    rw [(placed_of_getElem? hi).index_eq]
    exact List.count_eq_one_of_mem hrefs ((mem_references_or_mem_roots hi).resolve_right hroot)
  · intro t ht hm
    rw [roots_ofPhrases] at ht
    exact hdisj _ hm _ (List.mem_map_of_mem ht) rfl

theorem roots_forall₂ (ps : List Phrase) (n : Nat) :
    List.Forall₂ (fun t p => t.text = detokenize p.tokens) (rootTerms n ps) ps := by
  induction ps generalizing n with
  | nil => exact .nil
  | cons p ps ih => exact .cons (p.text_terms n) (ih _)

/-- A parsed block is a forest. Its roots are those of its terms that stand for the phrases that
were read, one each and in order, and from them one comes to each term exactly once. -/
theorem forest_of_parse {g : Grammar} {tokens : List Token} {b : Block}
    (h : parse g tokens = .ok b) :
    b.Forest ∧ b.roots.Sublist b ∧
      (∃ ps, g.program tokens = .ok ps ∧ tokens = ps.flatMap Phrase.tokens ∧
        List.Forall₂ (fun t p => t.text = detokenize p.tokens) b.roots ps ∧
        List.Forall₂ b.Shows b.roots (ps.map Phrase.tree)) ∧
      ∃ js, b.Walk (b.roots.map Term.index) js ∧ js.Perm (List.range b.length) := by
  obtain ⟨ps, hps, rfl⟩ := parse_eq_ok_iff.mp h
  have hroots := roots_ofPhrases ps
  refine ⟨forest_ofPhrases ps, roots_sublist _,
    ⟨ps, hps, (Grammar.program_eq_ok_iff.mp hps).1, ?_, shows_roots ps⟩, ?_⟩
  · rw [hroots]
    exact roots_forall₂ ps 0
  · rw [hroots, List.range_eq_range']
    exact walk_ofPhrases (List.prefix_refl _)

/-- Calls as operands and as arguments, operators that associate to both sides, and junk. -/
theorem forest_of_parse_nested :
    let g : Grammar := { operators := .ofList [(.slash, ⟨1, .right⟩), (.unrecognized, ⟨1, .left⟩)] }
    let tokens := tokenize "f(a + g(b) / c d [) / e + h()\n i ]"
    ∃ b, parse g tokens = .ok b ∧ b.Forest ∧
      ∃ js, b.Walk (b.roots.map Term.index) js ∧ js.Perm (List.range b.length) := by
  intro g tokens
  obtain ⟨b, hb⟩ : ∃ b, parse g tokens = .ok b := exists_of_isOk (by decide +kernel)
  obtain ⟨hf, -, -, hw⟩ := forest_of_parse hb
  exact ⟨b, hb, hf, hw⟩

end Block

end Verbatim
