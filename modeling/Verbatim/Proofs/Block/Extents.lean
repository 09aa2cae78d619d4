import Verbatim.Proofs.Block.Tree

/-! # Extents of terms

Each term of a parsed block stands for a run of the tokens, its extent. The extents of operands lie
within that of their term, one after the other: those of arguments between the parentheses of the
call, those of the operands of an operator on the two sides of it.
-/

namespace Verbatim

open Token (Stream)

structure Extent where
  start : Nat
  stop : Nat

namespace Extent

def slice (x : Extent) (tokens : List Token) : List Token :=
  (tokens.take x.stop).drop x.start

def Within (x y : Extent) : Prop :=
  y.start ≤ x.start ∧ x.stop ≤ y.stop

def Before (x y : Extent) : Prop :=
  x.stop ≤ y.start

@[simp] theorem within_mk {a b c d : Nat} : Within ⟨a, b⟩ ⟨c, d⟩ ↔ c ≤ a ∧ b ≤ d :=
  Iff.rfl

theorem Within.refl (x : Extent) : x.Within x :=
  ⟨le_rfl, le_rfl⟩

theorem Within.trans {x y z : Extent} (h : x.Within y) (h' : y.Within z) : x.Within z :=
  ⟨h'.1.trans h.1, h.2.trans h'.2⟩

theorem slice_of_prefix {tokens xs : List Token} {k m : Nat} (h : xs <+: tokens.drop k)
    (hm : m = k + xs.length) : slice ⟨k, m⟩ tokens = xs := by
  rw [slice, hm, List.drop_take, Nat.add_sub_cancel_left]
  exact (List.prefix_iff_eq_take.mp h).symm

end Extent

namespace Term

/-- A call is written with its callee at place `p`, the opening parenthesis behind it and the
closing one at place `q`. -/
structure CallAt (tokens : List Token) (extent : Nat → Extent) (t : Term) (p q : Nat) : Prop where
  callee : ∃ u, tokens[p]? = some u ∧ u.kind = .identifier ∧
    t.inputs.head? = some (.named u.sourceText)
  opening : ∃ u, tokens[p + 1]? = some u ∧ u.kind = .leftParen
  closing : ∃ u, tokens[q]? = some u ∧ u.kind = .rightParen
  opening_lt : p + 1 < q
  arguments : ∀ i ∈ t.references, (extent i).Within ⟨p + 2, q⟩

structure JoinsAt (ops : Operators) (tokens : List Token) (extent : Nat → Extent) (t : Term)
    (p i j : Nat) : Prop where
  operator : ∃ u, tokens[p]? = some u ∧ (∃ op, ops.get? u.kind = some op) ∧
    t.inputs = [.named u.sourceText, .indexed i, .indexed j]
  left_le : (extent i).stop ≤ p
  lt_right : p < (extent j).start
  gap : ∀ u ∈ Extent.slice ⟨(extent i).stop, p⟩ tokens, u.isWhitespace
  trivia : ∀ u ∈ Extent.slice ⟨p + 1, (extent j).start⟩ tokens, u.isTrivia

/-- What a term is made of is written within `x`, if its operands have the extents given. -/
structure Encloses (ops : Operators) (tokens : List Token) (extent : Nat → Extent) (x : Extent)
    (t : Term) : Prop where
  within : ∀ i ∈ t.references, (extent i).Within x
  ordered : t.references.Pairwise fun i j => (extent i).Before (extent j)
  call : t.kind = .call → ∃ p q, t.CallAt tokens extent p q ∧ Extent.Within ⟨p, q + 1⟩ x
  binary : t.kind = .binary → ∃ p i j, t.JoinsAt ops tokens extent p i j

/-- A term has the extent `x`: its text is that of the tokens there, and its operands are nested
in them. -/
structure Nests (ops : Operators) (tokens : List Token) (extent : Nat → Extent) (x : Extent)
    (t : Term) : Prop where
  nonempty : x.start < x.stop
  stop_le : x.stop ≤ tokens.length
  text : t.text = detokenize (x.slice tokens)
  encloses : t.Encloses ops tokens extent x

variable {ops : Operators} {tokens : List Token} {extent : Nat → Extent} {x y : Extent}
  {t t' : Term}

theorem Encloses.mono (h : t.Encloses ops tokens extent x) (hx : x.Within y)
    (hk : t'.kind = t.kind) (hi : t'.inputs = t.inputs) : t'.Encloses ops tokens extent y := by
  have hr : t'.references = t.references := by rw [references, hi, references]
  refine ⟨?_, ?_, ?_, ?_⟩
  · rw [hr]
    exact fun i hm => (h.within i hm).trans hx
  · rw [hr]
    exact h.ordered
  · intro hc
    obtain ⟨p, q, ⟨hcallee, ho, hcl, hlt, ha⟩, hpq⟩ := h.call (hk.symm.trans hc)
    exact ⟨p, q, ⟨by rwa [hi], ho, hcl, hlt, by rwa [hr]⟩, hpq.trans hx⟩
  · intro hb
    obtain ⟨p, i, j, hop, hl, hr, hg, htr⟩ := h.binary (hk.symm.trans hb)
    exact ⟨p, i, j, by rwa [hi], hl, hr, hg, htr⟩

theorem Encloses.nests {xs : List Token} {k : Nat} (h : t.Encloses ops tokens extent x)
    (hx : x.Within ⟨k, k + xs.length⟩) (hk : t'.kind = t.kind) (hi : t'.inputs = t.inputs)
    (hne : xs ≠ []) (hs : xs <+: tokens.drop k) (ht : t'.text = detokenize xs) :
    t'.Nests ops tokens extent ⟨k, k + xs.length⟩ := by
  have hpos := List.length_pos_iff.mpr hne
  have hle := hs.length_le
  rw [List.length_drop] at hle
  refine ⟨Nat.lt_add_of_pos_right hpos, ?_, ?_, h.mono hx hk hi⟩
  · show k + xs.length ≤ tokens.length
    omega
  · rw [Extent.slice_of_prefix hs rfl, ht]

end Term

mutual

def Expr.extents (k : Nat) : Expr → List Extent
  | .name _ => []
  | .call _ _ args _ => args.extents (k + 2)
  | .binary left gap _ trivia right =>
    let l := k + left.tokens.length
    let r := l + gap.length + 1 + trivia.length
    left.extents k ++ right.extents r ++ [⟨k, l⟩, ⟨r, r + right.tokens.length⟩]

def Phrase.extents (k : Nat) : Phrase → List Extent
  | .mk leading core _ _ _ => core.extents (k + leading.length)

def Args.extents (k : Nat) : Args → List Extent
  | .nil => []
  | .trivia _ more => more.extents (k + 1)
  | .phrase p more =>
    p.extents k ++ ⟨k, k + p.tokens.length⟩ :: more.extents (k + p.tokens.length)

end

def Phrase.allExtents (k : Nat) : List Phrase → List Extent
  | [] => []
  | p :: ps => p.extents k ++ ⟨k, k + p.tokens.length⟩ :: allExtents (k + p.tokens.length) ps

def extentAt (xs : List Extent) (i : Nat) : Extent :=
  xs.getD i ⟨0, 0⟩

open Block (prefix_drop_append_iff prefix_drop_of_cons getElem?_of_prefix_drop)

theorem extentAt_of_prefix_drop {xs ys : List Extent} {x : Extent} {n : Nat}
    (h : x :: ys <+: xs.drop n) : extentAt xs n = x := by
  rw [extentAt, List.getD_eq_getElem?_getD, getElem?_of_prefix_drop h, Option.getD_some]

section Terms

variable {ops : Operators} {tokens : List Token} {xs : List Extent}

theorem Term.encloses_of_operands {extent : Nat → Extent} {x : Extent} {t : Term} {op : Token}
    {p : Operator} {gap trivia : List Token} {i j q : Nat} (hop : tokens[q]? = some op)
    (hp : ops.get? op.kind = some p)
    (hin : t.inputs = [.named op.sourceText, .indexed i, .indexed j]) (hk : t.kind = .binary)
    (hgap : ∀ u ∈ gap, u.isWhitespace) (htrivia : ∀ u ∈ trivia, u.isTrivia)
    (hg : gap <+: tokens.drop (extent i).stop) (htr : trivia <+: tokens.drop (q + 1))
    (hl : (extent i).stop + gap.length = q) (hr : q + 1 + trivia.length = (extent j).start)
    (hi : (extent i).Within x) (hj : (extent j).Within x) :
    t.Encloses ops tokens extent x := by
  have hrefs : t.references = [i, j] := by rw [references, hin]; rfl
  refine ⟨?_, ?_, fun hc => by simp [hk] at hc, fun _ => ⟨q, i, j, ?_⟩⟩
  · rw [hrefs]
    exact List.forall_mem_cons.mpr ⟨hi, List.forall_mem_singleton.mpr hj⟩
  · rw [hrefs]
    refine List.pairwise_pair.mpr ?_
    rw [Extent.Before]
    omega
  · refine ⟨⟨op, hop, ⟨p, hp⟩, hin⟩, by omega, by omega, ?_, ?_⟩
    · rwa [Extent.slice_of_prefix hg hl.symm]
    · rwa [Extent.slice_of_prefix htr hr.symm]

mutual

theorem Expr.nests_terms : ∀ (e : Expr) {k n : Nat} {rest : Stream}, e.Fits ops rest →
    e.tokens <+: tokens.drop k → e.extents k <+: xs.drop n →
    List.Forall₂ (Term.Nests ops tokens (extentAt xs)) (e.extents k) (e.terms n).1 ∧
      (e.terms n).2.Encloses ops tokens (extentAt xs) ⟨k, k + e.tokens.length⟩
  | .name ident, _, _, _, _, _, _ =>
    ⟨.nil, by simp [Expr.terms, Term.references], .nil, nofun, nofun⟩
  | .call callee opening args closing, k, n, rest, ⟨hc, ho, hr, hf⟩, ht, hx => by
    have hopening := prefix_drop_of_cons ht
    obtain ⟨hargs, hclosing⟩ := prefix_drop_append_iff.mp (prefix_drop_of_cons hopening)
    obtain ⟨hb, hw, hord⟩ := args.nests_terms hf hargs hx
    have hlen : (Expr.call callee opening args closing).tokens.length = args.tokens.length + 3 := by
      simp [Expr.tokens]
    have hin : Extent.Within ⟨k + 2, k + 2 + args.tokens.length⟩
        ⟨k, k + (Expr.call callee opening args closing).tokens.length⟩ := by
      simp only [hlen, Extent.within_mk]
      omega
    refine ⟨hb, fun i hi => (hw i hi).trans hin, hord, fun _ => ?_, nofun⟩
    refine ⟨k, k + 2 + args.tokens.length, ⟨?_, ?_, ?_, by omega, hw⟩, ?_⟩
    · exact ⟨callee, getElem?_of_prefix_drop ht, hc, rfl⟩
    · exact ⟨opening, getElem?_of_prefix_drop hopening, ho⟩
    · exact ⟨closing, getElem?_of_prefix_drop hclosing, hr⟩
    · simp only [hlen, Extent.within_mk]
      omega
  | .binary left gap op trivia right, k, n, rest, ⟨hfl, hfr, hg, _, htr, p, hp, _⟩, ht, hx => by
    obtain ⟨hlg, hop⟩ := prefix_drop_append_iff.mp ht
    obtain ⟨hl, hgap⟩ := prefix_drop_append_iff.mp hlg
    rw [List.length_append, ← Nat.add_assoc] at hop
    obtain ⟨htrivia, hr⟩ := prefix_drop_append_iff.mp (prefix_drop_of_cons hop)
    obtain ⟨hx, htop⟩ := prefix_drop_append_iff.mp hx
    obtain ⟨hxl, hxr⟩ := prefix_drop_append_iff.mp hx
    obtain ⟨hbl, hel⟩ := left.nests_terms hfl hl hxl
    rw [hbl.length_eq] at hxr
    obtain ⟨hbr, her⟩ := right.nests_terms hfr hr hxr
    rw [List.length_append, hbl.length_eq, hbr.length_eq, ← Nat.add_assoc] at htop
    have hi := extentAt_of_prefix_drop htop
    have hj := extentAt_of_prefix_drop (prefix_drop_of_cons htop)
    have hlen : (Expr.binary left gap op trivia right).tokens.length = left.tokens.length +
        gap.length + (trivia.length + right.tokens.length + 1) := by
      simp [Expr.tokens, Nat.add_assoc]
    refine ⟨List.rel_append (List.rel_append hbl hbr) (.cons ?_ (.cons ?_ .nil)), ?_⟩
    · exact hel.nests (.refl _) rfl rfl hfl.tokens_ne_nil hl (left.text_terms n)
    · exact her.nests (.refl _) rfl rfl hfr.tokens_ne_nil hr (right.text_terms _)
    · refine Term.encloses_of_operands (getElem?_of_prefix_drop hop) hp rfl rfl hg htr ?_ htrivia ?_
        ?_ ?_ ?_
      · rwa [hi]
      · rw [hi]
      · rw [hj]
      · simp only [hi, hlen, Extent.within_mk]
        omega
      · simp only [hj, hlen, Extent.within_mk]
        omega

theorem Phrase.nests_terms : ∀ (p : Phrase) {k n : Nat} {inCall : Bool} {rest : Stream},
    p.Fits ops inCall rest → p.tokens <+: tokens.drop k → p.extents k <+: xs.drop n →
    List.Forall₂ (Term.Nests ops tokens (extentAt xs)) (p.extents k) (p.terms n).1 ∧
      (p.terms n).2.Nests ops tokens (extentAt xs) ⟨k, k + p.tokens.length⟩
  | .mk leading core gap junk trailing, k, n, inCall, rest, hf, ht, hx => by
    have hcore : leading ++ (core.tokens ++ (gap ++ (junk ++ trailing))) <+: tokens.drop k := by
      simpa [Phrase.tokens] using ht
    obtain ⟨-, hcore⟩ := prefix_drop_append_iff.mp hcore
    obtain ⟨hb, he⟩ := core.nests_terms hf.2.1 (prefix_drop_append_iff.mp hcore).1 hx
    have hlen : (Phrase.mk leading core gap junk trailing).tokens.length = leading.length +
        core.tokens.length + gap.length + junk.length + trailing.length := by
      simp [Phrase.tokens, Nat.add_assoc]
    have hin : Extent.Within ⟨k + leading.length, k + leading.length + core.tokens.length⟩
        ⟨k, k + (Phrase.mk leading core gap junk trailing).tokens.length⟩ := by
      simp only [hlen, Extent.within_mk]
      omega
    exact ⟨hb, he.nests hin rfl rfl hf.tokens_ne_nil ht (Phrase.text_terms n _)⟩

theorem Args.nests_terms : ∀ (args : Args) {k n : Nat} {rest : Stream}, args.Fits ops rest →
    args.tokens <+: tokens.drop k → args.extents k <+: xs.drop n →
    List.Forall₂ (Term.Nests ops tokens (extentAt xs)) (args.extents k) (args.terms n).1 ∧
      (∀ i ∈ (args.terms n).2.1.filterMap Ref.index?,
        (extentAt xs i).Within ⟨k, k + args.tokens.length⟩) ∧
      ((args.terms n).2.1.filterMap Ref.index?).Pairwise
        fun i j => (extentAt xs i).Before (extentAt xs j)
  | .nil, _, _, _, _, _, _ => ⟨.nil, by simp [Args.terms], .nil⟩
  | .trivia t more, k, n, rest, hf, ht, hx => by
    obtain ⟨hb, hw, hord⟩ := more.nests_terms hf.2 (prefix_drop_of_cons ht) hx
    refine ⟨hb, fun i hi => (hw i hi).trans ?_, hord⟩
    simp only [Args.tokens, List.length_cons, Extent.within_mk]
    omega
  | .phrase p more, k, n, rest, ⟨_, hp, hf⟩, ht, hx => by
    obtain ⟨htp, htm⟩ := prefix_drop_append_iff.mp ht
    obtain ⟨hxp, hxm⟩ := prefix_drop_append_iff.mp hx
    obtain ⟨hbp, hnp⟩ := p.nests_terms hp htp hxp
    rw [hbp.length_eq] at hxm
    obtain ⟨hbm, hwm, hord⟩ := more.nests_terms hf htm (prefix_drop_of_cons hxm)
    have hi := extentAt_of_prefix_drop hxm
    rw [← p.index_terms] at hi
    refine ⟨List.rel_append hbp (.cons hnp hbm), ?_, List.pairwise_cons.mpr ⟨?_, hord⟩⟩
    · refine List.forall_mem_cons.mpr ⟨?_, fun i him => (hwm i him).trans ?_⟩
      all_goals simp only [hi, Args.tokens, List.length_append, Extent.within_mk]
      all_goals omega
    · intro j hj
      rw [Extent.Before, hi]
      exact (hwm j hj).1

end

end Terms

namespace Block

theorem nests_ofPhrases {ops : Operators} {tokens : List Token} {xs : List Extent}
    {ps : List Phrase} {k n : Nat} {inCall : Bool} {rest : Stream}
    (hf : Phrase.AllFit ops inCall ps rest) (ht : ps.flatMap Phrase.tokens <+: tokens.drop k)
    (hx : Phrase.allExtents k ps <+: xs.drop n) :
    List.Forall₂ (Term.Nests ops tokens (extentAt xs)) (Phrase.allExtents k ps)
      (ofPhrases n ps) := by
  induction ps generalizing k n with
  | nil => exact .nil
  | cons p ps ih =>
    obtain ⟨htp, htps⟩ := prefix_drop_append_iff.mp ht
    obtain ⟨hxp, hxps⟩ := prefix_drop_append_iff.mp hx
    obtain ⟨hb, hp⟩ := p.nests_terms hf.1 htp hxp
    rw [hb.length_eq] at hxps
    exact List.rel_append hb (.cons hp (ih hf.2 htps (prefix_drop_of_cons hxps)))

variable {g : Grammar} {tokens : List Token} {b : Block}

theorem exists_of_forall₂_of_getElem? {α β : Type} {R : α → β → Prop} {l : List α} {m : List β}
    {i : Nat} {y : β} (h : List.Forall₂ R l m) (hy : m[i]? = some y) :
    ∃ x, l[i]? = some x ∧ R x y := by
  obtain ⟨hi, rfl⟩ := List.getElem?_eq_some_iff.mp hy
  have hl : i < l.length := h.length_eq ▸ hi
  exact ⟨l[i], List.getElem?_eq_getElem hl, h.get hl hi⟩

/-- The terms of a parsed block have extents. The text of each is that of the tokens there, and its
operands are nested in them: they follow each other, the arguments of a call between its
parentheses and the operands of an operator on its two sides. -/
theorem nests_of_parse (h : parse g tokens = .ok b) : ∃ extent : Nat → Extent,
    ∀ (i : Nat) (t : Term), b[i]? = some t → t.Nests g.operators tokens extent (extent i) := by
  obtain ⟨ps, hps, rfl⟩ := parse_eq_ok_iff.mp h
  obtain ⟨hs, hf, -⟩ := Grammar.program_eq_ok_iff.mp hps
  have ht : ps.flatMap Phrase.tokens <+: tokens.drop 0 :=
    ⟨[], by rw [List.append_nil, List.drop_zero, ← hs]⟩
  have hb := nests_ofPhrases (n := 0) hf ht (List.prefix_refl _)
  refine ⟨extentAt (Phrase.allExtents 0 ps), fun i t hi => ?_⟩
  obtain ⟨x, hx, hn⟩ := exists_of_forall₂_of_getElem? hb hi
  rwa [extentAt, List.getD_eq_getElem?_getD, hx, Option.getD_some]

/-- Calls with junk in them, as operands and as arguments, and an operand behind a comment. -/
theorem nests_of_parse_nested :
    let g : Grammar := { operators := .ofList [(.slash, ⟨1, .left⟩)] }
    let tokens := tokenize " f(a [/, b, g( c) / d / // e\n h)] "
    ∃ b, parse g tokens = .ok b ∧ b.map Term.kind = [.identifier, .identifier, .identifier, .call,
        .identifier, .binary, .identifier, .binary, .call] ∧ ∃ extent : Nat → Extent,
      ∀ (i : Nat) (t : Term), b[i]? = some t → t.Nests g.operators tokens extent (extent i) := by
  intro g tokens
  obtain ⟨b, hb, hkinds⟩ := exists_of_any (x := parse g tokens) (p := fun b => b.map Term.kind ==
    [.identifier, .identifier, .identifier, .call, .identifier, .binary, .identifier, .binary,
      .call]) (by decide +kernel)
  exact ⟨b, hb, beq_iff_eq.mp hkinds, nests_of_parse hb⟩

end Block

end Verbatim
