import Verbatim.Block.OfExpr
import Mathlib.Data.List.Basic
import Mathlib.Tactic.Common

/-! # Roots of a block

The terms of an expression, placed from a given index on, refer to exactly the places they take
up, each place once. Of a block of phrases only the terms of the phrases are left over, so these
are its roots, and their texts make up the text that was read.
-/

namespace Verbatim

@[simp] theorem Ref.index?_named (name : String) : (Ref.named name).index? = none := rfl

@[simp] theorem Ref.index?_indexed (i : Nat) : (Ref.indexed i).index? = some i := rfl

section Ranges

variable {A B L R : List Nat} {n a b : Nat}

theorem perm_range'_pair (hl : (A ++ L).Perm (List.range' n a))
    (hr : (B ++ R).Perm (List.range' (n + a) b)) :
    (A ++ B ++ (L ++ R) ++ [n + a + b, n + a + b + 1]).Perm (List.range' n (a + (b + 2))) := by
  have hswap : (A ++ B ++ (L ++ R)).Perm (A ++ L ++ (B ++ R)) := by
    simp only [List.append_assoc]
    exact (List.perm_append_comm_assoc B L R).append_left A
  have hrange : List.range' n (a + (b + 2)) =
      List.range' n a ++ List.range' (n + a) b ++ [n + a + b, n + a + b + 1] := by
    rw [← List.range'_append_1, ← List.range'_append_1, List.append_assoc]
    rfl
  rw [hrange]
  exact (hswap.trans (hl.append hr)).append_right _

theorem perm_range'_cons (hp : (A ++ L).Perm (List.range' n a))
    (hm : (B ++ R).Perm (List.range' (n + a + 1) b)) :
    (A ++ (L ++ B) ++ (n + a) :: R).Perm (List.range' n (a + (b + 1))) := by
  have hswap : (A ++ (L ++ B) ++ (n + a) :: R).Perm (A ++ L ++ (n + a) :: (B ++ R)) := by
    rw [← List.append_assoc, List.append_assoc (A ++ L)]
    exact List.perm_middle.append_left (A ++ L)
  rw [← List.range'_append_1, List.range'_succ]
  exact hswap.trans (hp.append (hm.cons _))

end Ranges

theorem Phrase.index_terms (n : Nat) : ∀ p : Phrase,
    (p.terms n).2.index = n + (p.terms n).1.length
  | .mk .. => rfl

mutual

theorem Expr.references_terms (n : Nat) : ∀ e : Expr,
    ((e.terms n).1.flatMap Term.references ++ (e.terms n).2.references).Perm
      (List.range' n (e.terms n).1.length)
  | .name ident => .refl _
  | .call callee opening args closing => args.references_terms n
  | .binary left gap op trivia right => by
    have hl := left.references_terms n
    have hr := right.references_terms (n + (left.terms n).1.length)
    simpa [Expr.terms, Term.references, List.filterMap_cons] using perm_range'_pair hl hr

theorem Phrase.references_terms (n : Nat) : ∀ p : Phrase,
    ((p.terms n).1.flatMap Term.references ++ (p.terms n).2.references).Perm
      (List.range' n (p.terms n).1.length)
  | .mk _ core _ _ _ => core.references_terms n

theorem Args.references_terms (n : Nat) : ∀ args : Args,
    ((args.terms n).1.flatMap Term.references ++ (args.terms n).2.1.filterMap Ref.index?).Perm
      (List.range' n (args.terms n).1.length)
  | .nil => .refl _
  | .trivia t more => more.references_terms n
  | .phrase p more => by
    have hp := p.references_terms n
    have hm := more.references_terms (n + (p.terms n).1.length + 1)
    simpa [Args.terms, List.filterMap_cons, p.index_terms] using perm_range'_cons hp hm

end

namespace Block

def rootTerms (n : Nat) : List Phrase → List Term
  | [] => []
  | p :: ps => (p.terms n).2 :: rootTerms (n + (p.terms n).1.length + 1) ps

variable {n i : Nat} {p : Phrase} {ps : List Phrase}

theorem mem_references_phrase :
    i ∈ (p.terms n).1.flatMap Term.references ++ (p.terms n).2.references ↔
      n ≤ i ∧ i < n + (p.terms n).1.length := by
  rw [(p.references_terms n).mem_iff, List.mem_range'_1]

theorem le_of_mem_references (h : i ∈ references (ofPhrases n ps)) : n ≤ i := by
  induction ps generalizing n with
  | nil => simp [ofPhrases, references] at h
  | cons p ps ih =>
    simp only [ofPhrases, references, List.flatMap_append, List.flatMap_cons,
      ← List.append_assoc, List.mem_append] at h
    rcases h with h | h
    · exact (mem_references_phrase.mp (List.mem_append.mpr h)).1
    · have := ih h
      omega

theorem mem_references_cons : i ∈ references (ofPhrases n (p :: ps)) ↔
    (n ≤ i ∧ i < n + (p.terms n).1.length) ∨
      i ∈ references (ofPhrases (n + (p.terms n).1.length + 1) ps) := by
  rw [← mem_references_phrase]
  simp only [ofPhrases, references, List.flatMap_append, List.flatMap_cons, List.mem_append,
    or_assoc]

/-- Filtering what `used` does not contain leaves the terms of the phrases, if `used` contains the
indices that are referred to. -/
theorem filter_ofPhrases {used : List Nat}
    (h : ∀ i, n ≤ i → (i ∈ used ↔ i ∈ references (ofPhrases n ps))) :
    (((ofPhrases n ps).zipIdx n).filter fun t => !used.contains t.2).map (·.1) =
      rootTerms n ps := by
  induction ps generalizing n with
  | nil => rfl
  | cons p ps ih =>
    have hbelow : ((p.terms n).1.zipIdx n).filter (fun t => !used.contains t.2) = [] := by
      refine List.filter_eq_nil_iff.mpr ?_
      rintro ⟨t, i⟩ ht
      have hi := List.mem_zipIdx ht
      simp [(h i hi.1).mpr (mem_references_cons.mpr (.inl ⟨hi.1, hi.2.1⟩))]
    have hown : n + (p.terms n).1.length ∉ used := by
      rw [h _ (by omega), mem_references_cons]
      rintro (⟨_, hlt⟩ | hm)
      · omega
      · have := le_of_mem_references hm
        omega
    have hrest : ∀ i, n + (p.terms n).1.length + 1 ≤ i →
        (i ∈ used ↔ i ∈ references (ofPhrases (n + (p.terms n).1.length + 1) ps)) := by
      intro i hi
      rw [h i (by omega), mem_references_cons]
      exact or_iff_right fun hlt => by omega
    simp only [ofPhrases, List.zipIdx_append, List.zipIdx_cons, List.filter_append, hbelow,
      List.nil_append]
    rw [List.filter_cons_of_pos (by simp [hown]), List.map_cons, ih hrest]
    rfl

theorem roots_ofPhrases (ps : List Phrase) : roots (ofPhrases 0 ps) = rootTerms 0 ps :=
  filter_ofPhrases fun _ _ => .rfl

theorem ofPhrases_append (n : Nat) (ps qs : List Phrase) : ofPhrases n (ps ++ qs) =
    ofPhrases n ps ++ ofPhrases (n + (ofPhrases n ps).length) qs := by
  induction ps generalizing n with
  | nil => rfl
  | cons p ps ih =>
    have hn (a b : Nat) : n + a + 1 + b = n + (a + (b + 1)) := by omega
    simp [ofPhrases, ih, hn]

theorem ofPhrases_concat : ofPhrases n (ps ++ [p]) = ofPhrases n ps ++
    (p.terms (n + (ofPhrases n ps).length)).1 ++ [(p.terms (n + (ofPhrases n ps).length)).2] := by
  rw [ofPhrases_append, List.append_assoc]
  rfl

theorem rootTerms_concat : rootTerms n (ps ++ [p]) =
    rootTerms n ps ++ [(p.terms (n + (ofPhrases n ps).length)).2] := by
  induction ps generalizing n with
  | nil => rfl
  | cons q ps ih =>
    have hn (a b : Nat) : n + a + 1 + b = n + (a + (b + 1)) := by omega
    simp [rootTerms, ofPhrases, ih, hn]

theorem getLast?_roots_concat : (roots (ofPhrases 0 (ps ++ [p]))).getLast? =
    some (p.terms (0 + (ofPhrases 0 ps).length)).2 := by
  rw [roots_ofPhrases, rootTerms_concat, List.getLast?_concat]

end Block

mutual

theorem Expr.text_terms (n : Nat) : ∀ e : Expr, (e.terms n).2.text = detokenize e.tokens
  | .name ident => by simp [Expr.terms, Expr.tokens]
  | .call callee opening args closing => by
    simp [Expr.terms, Expr.tokens, args.text_terms n, String.append_assoc]
  | .binary left gap op trivia right => by
    simp [Expr.terms, Expr.tokens, left.text_terms n, right.text_terms, String.append_assoc]

theorem Phrase.text_terms (n : Nat) : ∀ p : Phrase, (p.terms n).2.text = detokenize p.tokens
  | .mk leading core gap junk trailing => by
    simp [Phrase.terms, Phrase.tokens, core.text_terms n, String.append_assoc]

theorem Args.text_terms (n : Nat) : ∀ args : Args, (args.terms n).2.2 = detokenize args.tokens
  | .nil => rfl
  | .trivia t more => by simp [Args.terms, Args.tokens, more.text_terms n]
  | .phrase p more => by simp [Args.terms, Args.tokens, p.text_terms n, more.text_terms]

end

theorem Block.reconstruct_ofPhrases (ps : List Phrase) :
    reconstruct (ofPhrases 0 ps) = detokenize (ps.flatMap Phrase.tokens) := by
  have h (n : Nat) : (rootTerms n ps).foldr (fun t s => t.text ++ s) "" =
      detokenize (ps.flatMap Phrase.tokens) := by
    induction ps generalizing n with
    | nil => rfl
    | cons p ps ih => simp [rootTerms, p.text_terms, ih]
  rw [reconstruct, roots_ofPhrases, h]

end Verbatim
