import Verbatim.Proofs.Syntax.Rules

/-! # What is read without errors

A block has no errors if nothing was skipped for any of its phrases. The tokens of such phrases
derive by the rules of the syntax, and their trees are those of the derivation.
-/

namespace Verbatim

open Token (Kind Stream)

mutual

/-- Nothing was skipped. -/
def Expr.Clean : Expr → Prop
  | .name _ => True
  | .call _ _ args _ => args.Clean
  | .binary left _ _ _ right => left.Clean ∧ right.Clean

def Phrase.Clean : Phrase → Prop
  | .mk _ core _ junk _ => core.Clean ∧ junk = []

def Args.Clean : Args → Prop
  | .nil => True
  | .trivia _ more => more.Clean
  | .phrase p more => p.Clean ∧ more.Clean

end

section Errors

variable {b c : Block} {t : Term}

@[simp] theorem Block.errors_nil : Block.errors [] = [] := rfl

@[simp] theorem Block.errors_append : Block.errors (b ++ c) = b.errors ++ c.errors :=
  List.filter_append ..

theorem Block.errors_cons_eq_nil_iff :
    Block.errors (t :: c) = [] ↔ t.error = none ∧ c.errors = [] := by
  cases h : t.error <;> simp [errors, Term.hasError, h]

theorem Expr.error_terms (n : Nat) (e : Expr) : (e.terms n).2.error = none := by
  cases e <;> rfl

theorem junkError_eq_none_iff {junk : List Token} : junkError junk = none ↔ junk = [] := by
  cases junk <;> simp [junkError]

mutual

theorem Expr.errors_terms (n : Nat) : ∀ e : Expr, Block.errors (e.terms n).1 = [] ↔ e.Clean
  | .name _ => by simp [Expr.terms, Expr.Clean]
  | .call _ _ args _ => args.errors_terms n
  | .binary left _ _ _ right => by
    simp only [Expr.terms, Expr.Clean, Block.errors_append, List.append_eq_nil_iff,
      Block.errors_cons_eq_nil_iff, Block.errors_nil, left.errors_terms, right.errors_terms,
      Expr.error_terms, and_true]

theorem Phrase.errors_terms (n : Nat) : ∀ p : Phrase,
    (p.terms n).2.error = none ∧ Block.errors (p.terms n).1 = [] ↔ p.Clean
  | .mk _ core _ junk _ => by
    simp only [Phrase.terms, Phrase.Clean, core.errors_terms, junkError_eq_none_iff, and_comm]

theorem Args.errors_terms (n : Nat) : ∀ args : Args,
    Block.errors (args.terms n).1 = [] ↔ args.Clean
  | .nil => by simp [Args.terms, Args.Clean]
  | .trivia _ more => more.errors_terms n
  | .phrase p more => by
    rw [Args.Clean, ← p.errors_terms n, ← more.errors_terms (n + (p.terms n).1.length + 1)]
    simp only [Args.terms, Block.errors_append, List.append_eq_nil_iff,
      Block.errors_cons_eq_nil_iff]
    tauto

end

theorem Block.errors_ofPhrases (n : Nat) (ps : List Phrase) :
    errors (ofPhrases n ps) = [] ↔ ∀ p ∈ ps, p.Clean := by
  induction ps generalizing n with
  | nil => simp [ofPhrases]
  | cons p ps ih =>
    simp only [ofPhrases, errors_append, List.append_eq_nil_iff, errors_cons_eq_nil_iff, ih,
      List.forall_mem_cons, ← p.errors_terms n]
    tauto

end Errors

variable {ops : Operators}

theorem Phrase.Fits.trivia {inCall : Bool} {leading gap trailing : List Token} {core : Expr}
    {rest : Stream} (h : (Phrase.mk leading core gap [] trailing).Fits ops inCall rest) :
    ∀ t ∈ gap ++ trailing, t.isTrivia := by
  obtain ⟨_, _, _, hr⟩ := h
  intro t ht
  rcases List.mem_append.mp ht with ht | ht
  · rw [← hr.blank_eq] at ht
    exact Token.isTrivia_of_isWhitespace (List.mem_takeWhile_imp ht)
  · rw [← hr.trivia_eq] at ht
    exact Stream.isTrivia_of_mem_trivia ht

mutual

theorem Expr.Fits.chain (hb : ops.Bounded) : ∀ {e : Expr} {rest : Stream},
    e.Fits ops rest → e.Clean →
      Syntax.Chain ops e.tokens e.spine.1.tree (e.spine.2.map fun x => (x.1, x.2.tree))
  | .name _, _, h, _ => .item (.name h.1)
  | .call .., _, ⟨hc, ho, hr, hf⟩, h => .item (.call hc ho hr (hf.arguments hb h))
  | .binary left gap op trivia right, _, ⟨hl, hr, hg, _, ht, p, hp, _⟩, h => by
    have hk : Syntax.Joint ops ⟨gap, op, trivia⟩ := ⟨hg, by simp [hp], ht⟩
    have hc := Syntax.Chain.append hk (hr.chain hb h.2) (hl.chain hb h.1)
    simpa [Expr.tokens, Expr.spine] using hc

theorem Phrase.Fits.chain (hb : ops.Bounded) : ∀ {p : Phrase} {inCall : Bool} {rest : Stream},
    p.Fits ops inCall rest → p.Clean → ∃ ts trailing u vs,
      p.tokens = p.leading ++ (ts ++ trailing) ∧ (∀ t ∈ p.leading, t.isTrivia) ∧
      (∀ t ∈ trailing, t.isTrivia) ∧ Syntax.Chain ops ts u vs ∧
      shuntingYard ops Tree.join u vs = p.tree
  | .mk leading core gap junk trailing, inCall, rest, hf, ⟨hc, hj⟩ => by
    subst hj
    refine ⟨core.tokens, gap ++ trailing, _, _, ?_, hf.1, hf.trivia, hf.2.1.chain hb hc,
      (hf.2.1.arranged hb).shuntingYard_tree⟩
    simp [Phrase.tokens, Phrase.leading]

theorem Args.Fits.arguments (hb : ops.Bounded) : ∀ {args : Args} {rest : Stream},
    args.Fits ops rest → args.Clean → Syntax.Arguments ops args.tokens args.trees
  | .nil, _, _, _ => .nil
  | .trivia .., _, h, hc => .trivia h.1 (h.2.arguments hb hc)
  | .phrase p more, _, ⟨hl, hp, hf⟩, hc => by
    obtain ⟨ts, trailing, u, vs, hts, _, htr, hch, hu⟩ := hp.chain hb hc.1
    rw [Args.tokens, Args.trees, hts, hl, List.nil_append, List.append_assoc, ← hu]
    exact .chain hch (.trivia_append htr (hf.arguments hb hc.2))

end

/-- Phrases that fit and for which nothing was skipped are a program. -/
theorem Phrase.AllFit.program (hb : ops.Bounded) {inCall : Bool} :
    ∀ {ps : List Phrase} {rest : Stream},
    ps ≠ [] → AllFit ops inCall ps rest → (∀ p ∈ ps, p.Clean) →
    Syntax.Program ops (ps.flatMap tokens) (ps.map tree)
  | [p], _, _, hf, hc => by
    obtain ⟨ts, trailing, u, vs, hts, hl, htr, hch, hu⟩ := hf.1.chain hb (hc p List.mem_cons_self)
    rw [List.flatMap_singleton, hts, List.map_singleton, ← hu]
    exact .last hl hch htr
  | p :: q :: ps, _, _, hf, hc => by
    obtain ⟨ts, trailing, u, vs, hts, hl, htr, hch, hu⟩ := hf.1.chain hb (hc p List.mem_cons_self)
    have hps := hf.2.program hb (List.cons_ne_nil q ps) fun p h => hc p (List.mem_cons_of_mem _ h)
    rw [List.flatMap_cons, hts, List.map_cons, ← hu, List.append_assoc, List.append_assoc]
    exact .cons hl hch (.trivia_append htr hps)

end Verbatim
