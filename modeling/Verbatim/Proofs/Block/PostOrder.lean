import Verbatim.Proofs.Nesting.Level
import Mathlib.Logic.Relation
import Mathlib.Tactic.TFAE

/-! # The order of terms

The terms of a block come after those below them. But the two operands of a binary term stand side
by side, so what is below the right operand comes before the left one. The order is that of a walk
along the references which visits each term last exactly if no right operand has terms below it.
-/

namespace Verbatim

namespace Block

/-- The term at place `i` refers to place `j`. -/
def Refers (b : Block) (i j : Nat) : Prop :=
  ∃ t, b[i]? = some t ∧ j ∈ t.references

/-- Along the references one comes from place `i` to place `j`. -/
def Leads (b : Block) : Nat → Nat → Prop :=
  Relation.ReflTransGen b.Refers

inductive PostWalk (b : Block) : List Nat → List Nat → Prop where

  | nil : PostWalk b [] []

  | cons {i : Nat} {t : Term} {is below js : List Nat} : b[i]? = some t →
      PostWalk b t.references below → PostWalk b is js → PostWalk b (i :: is) (below ++ i :: js)

/-- The places to which `i` leads are those of a range that ends at `i`. -/
def Sliced (b : Block) (i : Nat) : Prop :=
  ∃ k, ∀ j, b.Leads i j ↔ k ≤ j ∧ j ≤ i

/-- Every term is the last of a slice of the block, and its operands have their slices in order. -/
structure PostOrdered (b : Block) : Prop where
  sliced : ∀ i < b.length, b.Sliced i
  ordered : ∀ t ∈ b, t.references.Pairwise fun i j =>
    ∀ k l, b.Leads i k → b.Leads j l → k < l

/-- No right operand has operands of its own. -/
def RightBare (b : Block) : Prop :=
  ∀ t ∈ b, t.kind = .binary → ∀ j ∈ t.references.getLast?, ∀ u ∈ b[j]?, u.references = []

instance (b : Block) : Decidable b.RightBare :=
  inferInstanceAs (Decidable (∀ t ∈ b, _))

/-- The places below a term make up a range, and arguments are the last of slices of it. -/
structure Grouped (b : Block) (t : Term) : Prop where
  below : ∃ k m, ∀ j, (∃ i ∈ t.references, b.Leads i j) ↔ k ≤ j ∧ j < m
  arguments : t.kind = .call → ∀ i ∈ t.references, b.Sliced i

variable {b : Block} {i j : Nat} {t t' : Term} {is js : List Nat}

theorem leads_iff (hi : b[i]? = some t) :
    b.Leads i j ↔ i = j ∨ ∃ r ∈ t.references, b.Leads r j := by
  rw [Leads, Relation.ReflTransGen.cases_head_iff]
  refine or_congr_right ⟨?_, ?_⟩
  · rintro ⟨r, ⟨u, hu, hr⟩, hl⟩
    obtain rfl := Option.some.inj (hi.symm.trans hu)
    exact ⟨r, hr, hl⟩
  · rintro ⟨r, hr, hl⟩
    exact ⟨r, ⟨t, hi, hr⟩, hl⟩

theorem Forest.le_of_leads (hf : b.Forest) (h : b.Leads i j) : j ≤ i := by
  induction h with
  | refl => exact le_rfl
  | tail _ hr ih =>
    obtain ⟨t, ht, hj⟩ := hr
    exact ((hf.placed _ t ht).lt_of_mem _ hj).le.trans ih

theorem Grouped.congr (h : b.Grouped t) (hk : t'.kind = t.kind) (hi : t'.inputs = t.inputs) :
    b.Grouped t' := by
  have hr : t'.references = t.references := by rw [Term.references, hi, Term.references]
  refine ⟨?_, ?_⟩
  · rw [hr]
    exact h.below
  · rw [hr, hk]
    exact h.arguments

theorem Walk.mem_iff (h : b.Walk is js) : j ∈ js ↔ ∃ i ∈ is, b.Leads i j := by
  induction h with
  | nil => simp
  | cons hi _ _ ihb ih =>
    simp only [List.mem_cons, List.mem_append, ihb, ih, or_and_right, exists_or, exists_eq_left,
      leads_iff hi, or_assoc, @eq_comm _ j]

theorem range_eq_append {n : Nat} {before below after : List Nat}
    (h : List.range n = before ++ (below ++ i :: after)) :
    ∃ k ≤ i, below = List.range' k (i - k) := by
  rw [List.range_eq_range'] at h
  obtain ⟨k, -, -, hbelow⟩ := List.range'_eq_append_iff.mp h
  obtain ⟨m, -, rfl, hafter⟩ := List.range'_eq_append_iff.mp hbelow.symm
  obtain ⟨hi, -⟩ := List.range'_eq_cons_iff.mp hafter.symm
  refine ⟨0 + k * 1, by omega, ?_⟩
  rw [show i - (0 + k * 1) = m by omega]

namespace PostWalk

theorem exists_walk (h : b.PostWalk is js) : ∃ ks, b.Walk is ks ∧ ks.Perm js := by
  induction h with
  | nil => exact ⟨[], .nil, .refl _⟩
  | cons hi _ _ ihb ih =>
    obtain ⟨ks, hwb, hpb⟩ := ihb
    obtain ⟨ls, hw, hp⟩ := ih
    exact ⟨_, .cons hi hwb hw, List.perm_middle.symm.trans (hpb.append (hp.cons _))⟩

theorem mem_iff (h : b.PostWalk is js) : j ∈ js ↔ ∃ i ∈ is, b.Leads i j := by
  obtain ⟨ks, hw, hp⟩ := h.exists_walk
  rw [← hp.mem_iff, hw.mem_iff]

theorem exists_below (h : b.PostWalk is js) (hj : j ∈ js) : ∃ t below before after,
    b[j]? = some t ∧ b.PostWalk t.references below ∧ js = before ++ (below ++ j :: after) := by
  induction h with
  | nil => simp at hj
  | @cons i u is below js hi hb _ ihb ih =>
    rcases List.mem_append.mp hj with hj | hj
    · obtain ⟨t, ks, before, after, ht, hw, rfl⟩ := ihb hj
      exact ⟨t, ks, before, after ++ i :: js, ht, hw, by simp⟩
    · rcases List.mem_cons.mp hj with rfl | hj
      · exact ⟨u, below, [], js, hi, hb, rfl⟩
      · obtain ⟨t, ks, before, after, ht, hw, rfl⟩ := ih hj
        exact ⟨t, ks, below ++ i :: before, after, ht, hw, by simp⟩

theorem pairwise_of_sorted (h : b.PostWalk is js) (hs : js.Pairwise (· < ·)) :
    is.Pairwise fun i j => ∀ k l, b.Leads i k → b.Leads j l → k < l := by
  induction h with
  | nil => exact .nil
  | @cons i t is below js hi hb hw _ ih =>
    obtain ⟨-, hjs, hlt⟩ := List.pairwise_append.mp hs
    obtain ⟨hij, hjs⟩ := List.pairwise_cons.mp hjs
    refine List.pairwise_cons.mpr ⟨fun j hj k l hk hl => ?_, ih hjs⟩
    have hl : l ∈ js := hw.mem_iff.mpr ⟨j, hj, hl⟩
    rcases (leads_iff hi).mp hk with rfl | hk
    · exact hij l hl
    · exact hlt k (hb.mem_iff.mpr hk) l (List.mem_cons_of_mem _ hl)

theorem cons_range {n a c : Nat} (hi : b[n + a]? = some t)
    (hb : b.PostWalk t.references (List.range' n a))
    (hw : b.PostWalk is (List.range' (n + a + 1) c)) :
    b.PostWalk ((n + a) :: is) (List.range' n (a + (c + 1))) := by
  rw [← List.range'_append_1, List.range'_succ]
  exact .cons hi hb hw

theorem pair_range {n a : Nat} (hi : b[n + a]? = some t) (hj : b[n + a + 1]? = some t')
    (hb : b.PostWalk t.references (List.range' n a)) (hbare : t'.references = []) :
    b.PostWalk [n + a, n + a + 1] (List.range' n (a + 2)) := by
  have hlast : b.PostWalk t'.references [] := by
    rw [hbare]
    exact .nil
  rw [← List.range'_append_1]
  exact .cons hi hb (.cons hj hlast .nil)

theorem postOrdered (h : b.PostWalk is (List.range b.length)) : b.PostOrdered := by
  have hsplit {i : Nat} (hi : i < b.length) : ∃ t, b[i]? = some t ∧ ∃ k ≤ i,
      b.PostWalk t.references (List.range' k (i - k)) := by
    obtain ⟨t, below, before, after, ht, hw, heq⟩ := h.exists_below (List.mem_range.mpr hi)
    obtain ⟨k, hk, rfl⟩ := range_eq_append heq
    exact ⟨t, ht, k, hk, hw⟩
  constructor
  · intro i hi
    obtain ⟨t, ht, k, hk, hw⟩ := hsplit hi
    refine ⟨k, fun j => ?_⟩
    rw [leads_iff ht, ← hw.mem_iff, List.mem_range'_1]
    omega
  · intro t ht
    obtain ⟨i, hi⟩ := List.mem_iff_getElem?.mp ht
    obtain ⟨u, hu, k, -, hw⟩ := hsplit (List.getElem?_eq_some_iff.mp hi).1
    obtain rfl := Option.some.inj (hi.symm.trans hu)
    exact hw.pairwise_of_sorted List.pairwise_lt_range'

end PostWalk

/-- The right operand of a binary term stands behind the left one, so a slice that has terms below
the right operand has the left one too. But only the binary term refers to that. -/
theorem Forest.rightBare_of_sliced (hf : b.Forest) (h : ∀ i < b.length, b.Sliced i) :
    b.RightBare := by
  intro t ht hk j hj u hu
  obtain ⟨i, hi⟩ := List.mem_iff_getElem?.mp ht
  have hplaced := hf.placed i t hi
  have hshape := hplaced.wellShaped
  rw [Term.WellShaped, hk] at hshape
  obtain ⟨name, l, hin⟩ := hshape
  have hrefs : t.references = [l, l + 1] := by rw [Term.references, hin]; rfl
  obtain rfl : l + 1 = j := by simpa [hrefs] using hj
  have hu : b[l + 1]? = some u := hu
  refine List.eq_nil_iff_forall_not_mem.mpr fun m hm => ?_
  have hml := (hf.placed _ u hu).lt_of_mem m hm
  have hli := hplaced.lt_of_mem (l + 1) (by simp [hrefs])
  obtain ⟨k, hslice⟩ := h (l + 1) (List.getElem?_eq_some_iff.mp hu).1
  have hkm := ((hslice m).mp ((leads_iff hu).mpr (.inr ⟨m, hm, .refl⟩))).1
  have hl : b.Leads (l + 1) l := (hslice l).mpr (by omega)
  -- the last step to `l` is from `i`, which comes after all to which `l + 1` leads
  rcases Relation.ReflTransGen.cases_tail hl with heq | ⟨p, hp, s, hs, hsl⟩
  · omega
  · obtain rfl := hf.eq_of_mem_references hi hs (by simp [hrefs]) hsl
    have := hf.le_of_leads hp
    omega

end Block

section Terms

variable {b : Block} {n : Nat}

theorem Expr.length_terms_of_bare (e : Expr) (h : (e.terms n).1 <+: b.drop n)
    (hbare : (e.terms n).2.references = []) : (e.terms n).1.length = 0 := by
  obtain ⟨js, hw, hp⟩ := e.walk_terms h
  rw [hbare] at hw
  cases hw
  simpa using hp.length_eq.symm

mutual

theorem Expr.postWalk_terms (hb : b.RightBare) : ∀ (e : Expr) {n : Nat},
    (e.terms n).1 <+: b.drop n →
    (∃ t ∈ b, t.kind = (e.terms n).2.kind ∧ t.inputs = (e.terms n).2.inputs) →
    b.PostWalk (e.terms n).2.references (List.range' n (e.terms n).1.length)
  | .name ident, n, _, _ => .nil
  | .call callee opening args closing, n, h, _ => args.postWalk_terms hb h
  | .binary left gap op trivia right, n, h, ⟨t, ht, hk, hin⟩ => by
    obtain ⟨hl, hr, hi, hj⟩ := Expr.prefix_drop_terms h
    have hrefs : t.references.getLast? = some (n + (left.terms n).1.length +
        (right.terms (n + (left.terms n).1.length)).1.length + 1) := by
      rw [Term.references, hin]
      rfl
    have hbare := hb t ht hk _ hrefs _ hj
    have hnil := right.length_terms_of_bare hr hbare
    rw [hnil, Nat.add_zero] at hi hj hbare
    have hwl := left.postWalk_terms hb hl ⟨_, List.mem_of_getElem? hi, rfl, rfl⟩
    have hw := Block.PostWalk.pair_range hi hj hwl hbare
    simpa [Expr.terms, Term.references, hnil, List.filterMap_cons] using hw

theorem Phrase.postWalk_terms (hb : b.RightBare) : ∀ (p : Phrase) {n : Nat},
    (p.terms n).1 <+: b.drop n →
    (∃ t ∈ b, t.kind = (p.terms n).2.kind ∧ t.inputs = (p.terms n).2.inputs) →
    b.PostWalk (p.terms n).2.references (List.range' n (p.terms n).1.length)
  | .mk _ core _ _ _, _, h, ht => core.postWalk_terms hb h ht

theorem Args.postWalk_terms (hb : b.RightBare) : ∀ (args : Args) {n : Nat},
    (args.terms n).1 <+: b.drop n →
    b.PostWalk ((args.terms n).2.1.filterMap Ref.index?)
      (List.range' n (args.terms n).1.length)
  | .nil, n, _ => .nil
  | .trivia t more, n, h => more.postWalk_terms hb h
  | .phrase p more, n, h => by
    obtain ⟨hp, hi, hm⟩ := p.prefix_drop_terms h
    have hwp := p.postWalk_terms hb hp ⟨_, List.mem_of_getElem? hi, rfl, rfl⟩
    rw [p.index_terms] at hi
    have hw := Block.PostWalk.cons_range hi hwp (more.postWalk_terms hb hm)
    simpa [Args.terms, p.index_terms, List.filterMap_cons] using hw

end

theorem Expr.leads_terms (e : Expr) (h : (e.terms n).1 <+: b.drop n) (j : Nat) :
    (∃ i ∈ (e.terms n).2.references, b.Leads i j) ↔ n ≤ j ∧ j < n + (e.terms n).1.length := by
  obtain ⟨js, hw, hp⟩ := e.walk_terms h
  rw [← hw.mem_iff, hp.mem_iff, List.mem_range'_1]

theorem Phrase.sliced_terms : ∀ (p : Phrase), (p.terms n).1 <+: b.drop n →
    b[(p.terms n).2.index]? = some (p.terms n).2 → b.Sliced (p.terms n).2.index
  | .mk leading core gap junk trailing, h, hi => by
    refine ⟨n, fun j => (Block.leads_iff hi).trans ?_⟩
    refine (or_congr_right (core.leads_terms h j)).trans ?_
    show n + (core.terms n).1.length = j ∨ _ ↔ n ≤ j ∧ j ≤ n + (core.terms n).1.length
    omega

theorem Args.sliced_terms : ∀ (args : Args) {n : Nat}, (args.terms n).1 <+: b.drop n →
    ∀ i ∈ (args.terms n).2.1.filterMap Ref.index?, b.Sliced i
  | .nil, _, _ => by simp [Args.terms]
  | .trivia _ more, _, h => more.sliced_terms h
  | .phrase p more, n, h => by
    obtain ⟨hp, hi, hm⟩ := p.prefix_drop_terms h
    exact List.forall_mem_cons.mpr ⟨p.sliced_terms hp hi, more.sliced_terms hm⟩

theorem Expr.grouped_top : ∀ (e : Expr), (e.terms n).1 <+: b.drop n → b.Grouped (e.terms n).2
  | .name ident, h => ⟨⟨_, _, (Expr.name ident).leads_terms h⟩, nofun⟩
  | .call callee opening args closing, h =>
    ⟨⟨_, _, (Expr.call callee opening args closing).leads_terms h⟩, fun _ => args.sliced_terms h⟩
  | .binary left gap op trivia right, h =>
    ⟨⟨_, _, (Expr.binary left gap op trivia right).leads_terms h⟩, nofun⟩

mutual

theorem Expr.grouped_terms : ∀ (e : Expr) {n : Nat}, (e.terms n).1 <+: b.drop n →
    ∀ t ∈ (e.terms n).1, b.Grouped t
  | .name _, _, _ => by simp [Expr.terms]
  | .call _ _ args _, _, h => args.grouped_terms h
  | .binary left gap op trivia right, n, h => by
    obtain ⟨hl, hr, -, -⟩ := Expr.prefix_drop_terms h
    refine List.forall_mem_append.mpr ⟨List.forall_mem_append.mpr ⟨left.grouped_terms hl,
      right.grouped_terms hr⟩, List.forall_mem_cons.mpr ⟨?_, List.forall_mem_singleton.mpr ?_⟩⟩
    · exact (left.grouped_top hl).congr rfl rfl
    · exact (right.grouped_top hr).congr rfl rfl

theorem Phrase.grouped_terms : ∀ (p : Phrase) {n : Nat}, (p.terms n).1 <+: b.drop n →
    ∀ t ∈ (p.terms n).1 ++ [(p.terms n).2], b.Grouped t
  | .mk _ core _ _ _, _, h => List.forall_mem_append.mpr ⟨core.grouped_terms h,
    List.forall_mem_singleton.mpr ((core.grouped_top h).congr rfl rfl)⟩

theorem Args.grouped_terms : ∀ (args : Args) {n : Nat}, (args.terms n).1 <+: b.drop n →
    ∀ t ∈ (args.terms n).1, b.Grouped t
  | .nil, _, _ => by simp [Args.terms]
  | .trivia _ more, _, h => more.grouped_terms h
  | .phrase p more, n, h => by
    obtain ⟨hp, -, hm⟩ := p.prefix_drop_terms h
    have hgp := List.forall_mem_append.mp (p.grouped_terms hp)
    exact List.forall_mem_append.mpr ⟨hgp.1, List.forall_mem_cons.mpr
      ⟨List.forall_mem_singleton.mp hgp.2, more.grouped_terms hm⟩⟩

end

end Terms

namespace Block

variable {b : Block} {n : Nat} {ps : List Phrase}

theorem postWalk_ofPhrases (hb : b.RightBare) (h : ofPhrases n ps <+: b.drop n) :
    b.PostWalk ((rootTerms n ps).map Term.index) (List.range' n (ofPhrases n ps).length) := by
  induction ps generalizing n with
  | nil => exact .nil
  | cons p ps ih =>
    obtain ⟨hp, hi, hps⟩ := p.prefix_drop_terms h
    have hwp := p.postWalk_terms hb hp ⟨_, List.mem_of_getElem? hi, rfl, rfl⟩
    rw [p.index_terms] at hi
    have hw := PostWalk.cons_range hi hwp (ih hps)
    simpa [ofPhrases, rootTerms, p.index_terms] using hw

theorem grouped_ofPhrases (h : ofPhrases n ps <+: b.drop n) :
    (∀ t ∈ rootTerms n ps, b.Sliced t.index) ∧ ∀ t ∈ ofPhrases n ps, b.Grouped t := by
  induction ps generalizing n with
  | nil => exact ⟨by simp [rootTerms], by simp [ofPhrases]⟩
  | cons p ps ih =>
    obtain ⟨hp, hi, hps⟩ := p.prefix_drop_terms h
    obtain ⟨hs, hg⟩ := ih hps
    have hgp := List.forall_mem_append.mp (p.grouped_terms hp)
    refine ⟨List.forall_mem_cons.mpr ⟨p.sliced_terms hp hi, hs⟩, ?_⟩
    exact List.forall_mem_append.mpr ⟨hgp.1, List.forall_mem_cons.mpr
      ⟨List.forall_mem_singleton.mp hgp.2, hg⟩⟩

/-- The terms of a parsed block are in post-order exactly if no right operand has terms below it. In
any case a root and an argument are the last of slices of the block, and what is below a term is a
slice. -/
theorem postOrdered_tfae_of_parse {g : Grammar} {tokens : List Token} (h : parse g tokens = .ok b) :
    [b.PostWalk (b.roots.map Term.index) (List.range b.length), b.PostOrdered,
      ∀ i < b.length, b.Sliced i, b.RightBare].TFAE ∧
      (∀ t ∈ b.roots, b.Sliced t.index) ∧ ∀ t ∈ b, b.Grouped t := by
  obtain ⟨ps, -, rfl⟩ := parse_eq_ok_iff.mp h
  rw [roots_ofPhrases]
  refine ⟨?_, grouped_ofPhrases (List.prefix_refl _)⟩
  tfae_have 1 → 2 := PostWalk.postOrdered
  tfae_have 2 → 3 := PostOrdered.sliced
  tfae_have 3 → 4 := (forest_ofPhrases ps).rightBare_of_sliced
  tfae_have 4 → 1 := by
    intro hb
    rw [List.range_eq_range']
    exact postWalk_ofPhrases hb (List.prefix_refl _)
  tfae_finish

/-- A call as the right operand is not the last of a slice, as the left one it is. -/
theorem postOrdered_tfae_of_parse_slash :
    let g : Grammar := { operators := .ofList [(.slash, ⟨1, .left⟩)] }
    (∃ b, parse g (tokenize "a/f(x)") = .ok b ∧ ¬ b.PostOrdered ∧
      ∀ t ∈ b.roots, b.Sliced t.index) ∧
    ∃ b, parse g (tokenize "f(x)/a") = .ok b ∧ b.PostOrdered := by
  intro g
  obtain ⟨b, hb, hbare⟩ := exists_of_any (x := parse g (tokenize "a/f(x)"))
    (p := fun b : Block => !decide b.RightBare) (by decide +kernel)
  obtain ⟨b', hb', hbare'⟩ := exists_of_any (x := parse g (tokenize "f(x)/a"))
    (p := fun b : Block => decide b.RightBare) (by decide +kernel)
  obtain ⟨htfae, hroots, -⟩ := postOrdered_tfae_of_parse hb
  refine ⟨⟨b, hb, fun ho => ?_, hroots⟩, b', hb', ?_⟩
  · simp [(htfae.out 1 3).mp ho] at hbare
  · exact ((postOrdered_tfae_of_parse hb').1.out 1 3).mpr (of_decide_eq_true hbare')

end Block

end Verbatim
