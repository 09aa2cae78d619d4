import Verbatim.Proofs.Block.Parse
import Mathlib.Data.List.Forall2

/-! # Blocks as trees

The tree of an expression is what is left of it without layout. The terms of a block, followed along
their references, show the trees of the phrases that the block is made of: each root shows the tree
of a phrase, and each term shows one node.
-/

namespace Verbatim

inductive Tree where
  | name (ident : Token)
  | call (callee : Token) (args : List Tree)
  | binary (left : Tree) (op : Token) (right : Tree)

mutual

def Expr.tree : Expr → Tree
  | .name ident => .name ident
  | .call callee _ args _ => .call callee args.trees
  | .binary left _ op _ right => .binary left.tree op right.tree

def Phrase.tree : Phrase → Tree
  | .mk _ core _ _ _ => core.tree

def Args.trees : Args → List Tree
  | .nil => []
  | .trivia _ more => more.trees
  | .phrase p more => p.tree :: more.trees

end

mutual

/-- The nodes below a tree, in the order in which their terms are placed. -/
def Tree.descendants : Tree → List Tree
  | .name _ => []
  | .call _ args => Tree.nodes args
  | .binary left _ right => left.descendants ++ right.descendants ++ [left, right]

def Tree.nodes : List Tree → List Tree
  | [] => []
  | u :: us => u.descendants ++ u :: Tree.nodes us

end

namespace Block

mutual

/-- The term `t` and the terms to which it refers, directly or not, make up the tree `u`. -/
def Shows (b : Block) (t : Term) (u : Tree) : Prop :=
  match u with
  | .name ident => t.kind = .identifier ∧ t.inputs = [.named ident.sourceText]
  | .call callee args =>
    t.kind = .call ∧ ∃ is : List Nat, t.inputs = .named callee.sourceText :: is.map .indexed ∧
      ShowsAll b is args
  | .binary left op right =>
    t.kind = .binary ∧ ∃ i j l r, t.inputs = [.named op.sourceText, .indexed i, .indexed j] ∧
      b[i]? = some l ∧ Shows b l left ∧ b[j]? = some r ∧ Shows b r right

def ShowsAll (b : Block) (is : List Nat) (us : List Tree) : Prop :=
  match us with
  | [] => is = []
  | u :: us => ∃ i js t, is = i :: js ∧ b[i]? = some t ∧ Shows b t u ∧ ShowsAll b js us

end

variable {b : Block}

theorem Shows.congr {t t' : Term} {u : Tree} (h : b.Shows t u) (hk : t'.kind = t.kind)
    (hi : t'.inputs = t.inputs) : b.Shows t' u := by
  cases u <;> simpa only [Shows, hk, hi] using h

section Prefixes

variable {α : Type} {l xs ys : List α} {x : α} {n : Nat}

theorem getElem?_of_prefix_drop (h : x :: xs <+: l.drop n) : l[n]? = some x := by
  obtain ⟨us, hu⟩ := h
  have hn : (l.drop n)[0]? = some x := by rw [← hu]; rfl
  simpa using hn

theorem prefix_drop_of_cons (h : x :: xs <+: l.drop n) : xs <+: l.drop (n + 1) := by
  obtain ⟨us, hu⟩ := h
  exact ⟨us, by rw [← List.drop_drop, ← hu]; rfl⟩

theorem prefix_drop_append_iff :
    xs ++ ys <+: l.drop n ↔ xs <+: l.drop n ∧ ys <+: l.drop (n + xs.length) := by
  constructor
  · rintro ⟨zs, hz⟩
    refine ⟨⟨ys ++ zs, by simpa using hz⟩, ⟨zs, ?_⟩⟩
    rw [← List.drop_drop, ← hz]
    simp
  · rintro ⟨⟨zs, hz⟩, ⟨vs, hv⟩⟩
    rw [← List.drop_drop, ← hz, List.drop_left] at hv
    exact ⟨vs, by rw [List.append_assoc, hv, hz]⟩

end Prefixes

end Block

open Block (prefix_drop_append_iff prefix_drop_of_cons getElem?_of_prefix_drop)

variable {b : Block}

theorem Phrase.prefix_drop_terms {p : Phrase} {n : Nat} {ts : List Term}
    (h : (p.terms n).1 ++ (p.terms n).2 :: ts <+: b.drop n) :
    (p.terms n).1 <+: b.drop n ∧ b[(p.terms n).2.index]? = some (p.terms n).2 ∧
      ts <+: b.drop (n + (p.terms n).1.length + 1) := by
  obtain ⟨hp, hts⟩ := prefix_drop_append_iff.mp h
  rw [p.index_terms]
  exact ⟨hp, getElem?_of_prefix_drop hts, prefix_drop_of_cons hts⟩

theorem Expr.prefix_drop_terms {left right : Expr} {gap trivia : List Token} {op : Token} {n : Nat}
    (h : ((Expr.binary left gap op trivia right).terms n).1 <+: b.drop n) :
    let l := left.terms n
    let r := right.terms (n + l.1.length)
    let i := n + l.1.length + r.1.length
    l.1 <+: b.drop n ∧ r.1 <+: b.drop (n + l.1.length) ∧ b[i]? = some { l.2 with index := i } ∧
      b[i + 1]? = some { r.2 with index := i + 1 } := by
  obtain ⟨h, htop⟩ := prefix_drop_append_iff.mp h
  obtain ⟨hl, hr⟩ := prefix_drop_append_iff.mp h
  rw [List.length_append, ← Nat.add_assoc] at htop
  exact ⟨hl, hr, getElem?_of_prefix_drop htop, getElem?_of_prefix_drop (prefix_drop_of_cons htop)⟩

mutual

theorem Expr.shows_terms : ∀ (e : Expr) {n : Nat}, (e.terms n).1 <+: b.drop n →
    List.Forall₂ b.Shows (e.terms n).1 e.tree.descendants ∧ b.Shows (e.terms n).2 e.tree
  | .name ident, n, _ => ⟨.nil, rfl, rfl⟩
  | .call callee opening args closing, n, h => by
    obtain ⟨hb, is, hi, hs⟩ := args.shows_terms h
    exact ⟨hb, rfl, is, by rw [← hi]; rfl, hs⟩
  | .binary left gap op trivia right, n, h => by
    obtain ⟨hl, hr, hi, hj⟩ := Expr.prefix_drop_terms h
    obtain ⟨hbl, hsl⟩ := left.shows_terms hl
    obtain ⟨hbr, hsr⟩ := right.shows_terms hr
    refine ⟨List.rel_append (List.rel_append hbl hbr)
      (.cons (hsl.congr rfl rfl) (.cons (hsr.congr rfl rfl) .nil)), ?_⟩
    exact ⟨rfl, _, _, _, _, rfl, hi, hsl.congr rfl rfl, hj, hsr.congr rfl rfl⟩

theorem Phrase.shows_terms : ∀ (p : Phrase) {n : Nat}, (p.terms n).1 <+: b.drop n →
    List.Forall₂ b.Shows (p.terms n).1 p.tree.descendants ∧ b.Shows (p.terms n).2 p.tree
  | .mk _ core _ _ _, _, h => by
    obtain ⟨hb, hs⟩ := core.shows_terms h
    exact ⟨hb, hs.congr rfl rfl⟩

theorem Args.shows_terms : ∀ (args : Args) {n : Nat}, (args.terms n).1 <+: b.drop n →
    List.Forall₂ b.Shows (args.terms n).1 (Tree.nodes args.trees) ∧
      ∃ is : List Nat, (args.terms n).2.1 = is.map .indexed ∧ b.ShowsAll is args.trees
  | .nil, n, _ => ⟨.nil, [], rfl, rfl⟩
  | .trivia t more, n, h => more.shows_terms h
  | .phrase p more, n, h => by
    obtain ⟨hp, hi, hm⟩ := p.prefix_drop_terms h
    obtain ⟨hbp, hsp⟩ := p.shows_terms hp
    obtain ⟨hbm, is, his, hsm⟩ := more.shows_terms hm
    refine ⟨List.rel_append hbp (.cons hsp hbm), _ :: is, ?_, _, is, _, rfl, hi, hsp, hsm⟩
    rw [List.map_cons, ← his]
    rfl

end

namespace Block

theorem shows_ofPhrases {ps : List Phrase} {n : Nat} (h : ofPhrases n ps <+: b.drop n) :
    List.Forall₂ b.Shows (ofPhrases n ps) (Tree.nodes (ps.map Phrase.tree)) ∧
      List.Forall₂ b.Shows (rootTerms n ps) (ps.map Phrase.tree) := by
  induction ps generalizing n with
  | nil => exact ⟨.nil, .nil⟩
  | cons p ps ih =>
    obtain ⟨hp, -, hps⟩ := p.prefix_drop_terms h
    obtain ⟨hb, hs⟩ := p.shows_terms hp
    obtain ⟨hn, hr⟩ := ih hps
    exact ⟨List.rel_append hb (.cons hs hn), .cons hs hr⟩

theorem shows_nodes (ps : List Phrase) :
    List.Forall₂ (ofPhrases 0 ps).Shows (ofPhrases 0 ps) (Tree.nodes (ps.map Phrase.tree)) :=
  (shows_ofPhrases (List.prefix_refl _)).1

theorem shows_roots (ps : List Phrase) :
    List.Forall₂ (ofPhrases 0 ps).Shows (ofPhrases 0 ps).roots (ps.map Phrase.tree) := by
  rw [roots_ofPhrases]
  exact (shows_ofPhrases (List.prefix_refl _)).2

end Block

end Verbatim
