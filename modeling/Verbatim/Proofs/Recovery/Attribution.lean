import Verbatim.Proofs.Nesting.Level
import Verbatim.Proofs.Reading.Sites
import Verbatim.Proofs.Syntax.Sound

/-! # Where skipped tokens are reported

The roots of a block and the arguments of its calls stand for runs of tokens in which trivia, an
expression, tokens that were skipped and more trivia follow each other. The error of such a term
names the first token that was skipped for it. Operands of operators carry no errors.
-/

namespace Verbatim

open Token (Kind Stream)

open Grammar (Reaches Runs)

/-- What cannot stand behind an expression while `calls` calls are open. -/
def Token.Stray (calls : Nat) (t : Token) : Prop :=
  ¬ t.isTrivia ∧ t.kind ≠ .identifier ∧ t.kind ≠ .endOfStream ∧
    ¬ (t.kind = .rightParen ∧ 0 < calls)

theorem Token.stray_iff {t : Token} {calls : Nat} :
    t.Stray calls ↔ ¬ t.canFollow (decide (0 < calls)) := by
  unfold Stray isTrivia canFollow
  cases t.kind <;> simp [Kind.isTrivia]

/-- The parts of a run of tokens around an expression while `calls` calls are open: trivia before
it, and behind it at most one whitespace token, tokens that cannot stand there, and trivia, each
going on as long as it can before `after`. -/
structure Surrounds (calls : Nat) (leading gap junk trailing after : Stream) : Prop where
  leading : ∀ t ∈ leading, t.isTrivia
  gap : gap = [] ∧ ¬ (Stream.next (junk ++ (trailing ++ after))).isWhitespace ∨
    ∃ t, gap = [t] ∧ t.isWhitespace
  stray : ∀ t ∈ junk, t.Stray calls
  stray_maximal : ¬ (Stream.next (trailing ++ after)).Stray calls
  trailing : ∀ t ∈ trailing, t.isTrivia
  trailing_maximal : ¬ after.next.isTrivia

namespace Token.Stream

variable {xs s gap junk trailing after : Stream} {p : Token → Bool} {calls : Nat}

theorem forall_of_takeWhile_append (hp : ¬ p endOfStream) (h : (xs ++ s).takeWhile p = xs) :
    (∀ t ∈ xs, p t) ∧ ¬ p s.next := by
  have hxs : ∀ t ∈ xs, p t := by
    intro t ht
    rw [← h] at ht
    exact List.mem_takeWhile_imp ht
  refine ⟨hxs, ?_⟩
  rw [List.takeWhile_append_of_pos hxs] at h
  cases s with
  | nil => exact hp
  | cons t s =>
    intro ht
    simp [List.takeWhile_cons_of_pos (show p t from ht)] at h

theorem eq_of_blank_append (h : Stream.blank (gap ++ s) = gap) :
    gap = [] ∧ ¬ s.next.isWhitespace ∨ ∃ t, gap = [t] ∧ t.isWhitespace := by
  cases gap with
  | nil =>
    refine .inl ⟨rfl, ?_⟩
    cases s with
    | nil => decide
    | cons t s => simpa [blank] using h
  | cons t gap =>
    by_cases ht : t.isWhitespace
    · have hb : Stream.blank (t :: gap ++ s) = [t] := by simp [blank, ht]
      rw [hb] at h
      exact .inr ⟨t, h.symm, ht⟩
    · have hb : Stream.blank (t :: gap ++ s) = [] := by simp [blank, ht]
      rw [hb] at h
      cases h

theorem Recovers.surrounds {leading : Stream} (hl : ∀ t ∈ leading, t.isTrivia)
    (h : Recovers (decide (0 < calls)) gap junk trailing after) :
    Surrounds calls leading gap junk trailing after := by
  obtain ⟨hj, hjn⟩ := forall_of_takeWhile_append (by simp [canFollow, endOfStream]) h.junk_eq
  obtain ⟨ht, htn⟩ := forall_of_takeWhile_append (by decide) h.trivia_eq
  refine ⟨hl, eq_of_blank_append h.blank_eq, ?_, ?_, ht, htn⟩
  · intro t htj
    rw [stray_iff]
    simpa using hj t htj
  · rw [stray_iff, not_not]
    simpa using hjn

end Token.Stream

namespace Block

variable {b : Block} {sites : List Site} {i j calls : Nat} {t u : Term}

/-- `calls` calls are open where the term at place `i` of a block is read. -/
inductive OpenCalls (b : Block) : (i calls : Nat) → Prop where

  | root {i : Nat} {t : Term} : b[i]? = some t → t ∈ b.roots → OpenCalls b i 0

  | argument {i j calls : Nat} {t : Term} : b[i]? = some t → t.kind = .call →
      j ∈ t.references → OpenCalls b i calls → OpenCalls b j (calls + 1)

  | operand {i j calls : Nat} {t : Term} : b[i]? = some t → t.kind = .binary →
      j ∈ t.references → OpenCalls b i calls → OpenCalls b j calls

structure Stands (b : Block) (site : Site) (t : Term) : Prop where
  text : t.text = detokenize site.phrase.tokens
  error : t.error = junkError site.phrase.junk
  shows : b.Shows t site.phrase.tree

/-- The arguments of a call stand for phrases at sites, and operands have no errors. -/
structure Attributed (b : Block) (sites : List Site) (c : Term) : Prop where
  argument : c.kind = .call → ∀ i ∈ c.references, ∃ t, ∃ site ∈ sites,
    b[i]? = some t ∧ b.OpenCalls i site.calls ∧ 0 < site.calls ∧ b.Stands site t
  operand : c.kind = .binary → ∀ i ∈ c.references, ∃ t, b[i]? = some t ∧ t.error = none

/-- A term of a block has the kind and the inputs of `u`, and `calls` calls are open around it. -/
def Has (b : Block) (calls : Nat) (u : Term) : Prop :=
  ∃ i t, b[i]? = some t ∧ t.kind = u.kind ∧ t.inputs = u.inputs ∧ b.OpenCalls i calls

theorem Has.argument (h : b.Has calls u) (hk : u.kind = .call) (hj : j ∈ u.references) :
    b.OpenCalls j (calls + 1) := by
  obtain ⟨i, t, ht, hkt, hin, ho⟩ := h
  exact .argument ht (hkt.trans hk) (by rwa [Term.references, hin]) ho

theorem Has.operand (h : b.Has calls u) (hk : u.kind = .binary) (hj : j ∈ u.references) :
    b.OpenCalls j calls := by
  obtain ⟨i, t, ht, hkt, hin, ho⟩ := h
  exact .operand ht (hkt.trans hk) (by rwa [Term.references, hin]) ho

theorem Attributed.congr (h : b.Attributed sites u) (hk : t.kind = u.kind)
    (hin : t.inputs = u.inputs) : b.Attributed sites t := by
  have hr : t.references = u.references := by rw [Term.references, hin, Term.references]
  exact ⟨by rw [hk, hr]; exact h.argument, by rw [hk, hr]; exact h.operand⟩

end Block

section Terms

variable {b : Block} {sites : List Site}

mutual

theorem Expr.attributed_terms : ∀ (e : Expr) {n calls : Nat} {rest : Stream},
    (e.terms n).1 <+: b.drop n → b.Has calls (e.terms n).2 → e.sites calls rest ⊆ sites →
    (∀ c ∈ (e.terms n).1, b.Attributed sites c) ∧ b.Attributed sites (e.terms n).2
  | .name _, _, _, _, _, _, _ => ⟨by simp [Expr.terms], nofun, nofun⟩
  | .call callee opening args closing, n, calls, rest, h, ho, hs => by
    obtain ⟨hb, ha⟩ := args.attributed_terms h (Nat.succ_pos calls)
      (fun j hj => ho.argument rfl hj) hs
    exact ⟨hb, fun _ => ha, nofun⟩
  | .binary left gap op trivia right, n, calls, rest, h, ho, hs => by
    obtain ⟨hl, hr, hi, hj⟩ := Expr.prefix_drop_terms h
    obtain ⟨hsl, hsr⟩ := List.append_subset.mp hs
    have hol := ho.operand rfl List.mem_cons_self
    have hor := ho.operand rfl (List.mem_cons_of_mem _ List.mem_cons_self)
    obtain ⟨hbl, hcl⟩ := left.attributed_terms hl ⟨_, _, hi, rfl, rfl, hol⟩ hsl
    obtain ⟨hbr, hcr⟩ := right.attributed_terms hr ⟨_, _, hj, rfl, rfl, hor⟩ hsr
    refine ⟨?_, nofun, fun _ => ?_⟩
    · refine List.forall_mem_append.mpr ⟨List.forall_mem_append.mpr ⟨hbl, hbr⟩, ?_⟩
      exact List.forall_mem_cons.mpr
        ⟨hcl.congr rfl rfl, List.forall_mem_singleton.mpr (hcr.congr rfl rfl)⟩
    · refine List.forall_mem_cons.mpr ⟨⟨_, hi, left.error_terms n⟩, ?_⟩
      exact List.forall_mem_singleton.mpr ⟨_, hj, right.error_terms _⟩

theorem Phrase.attributed_terms : ∀ (p : Phrase) {n calls : Nat} {rest : Stream},
    (p.terms n).1 <+: b.drop n → b[(p.terms n).2.index]? = some (p.terms n).2 →
    b.OpenCalls (p.terms n).2.index calls → p.sites calls rest ⊆ sites →
    (∀ c ∈ (p.terms n).1, b.Attributed sites c) ∧ b.Attributed sites (p.terms n).2 ∧
      ∃ site ∈ sites, site.calls = calls ∧ b.Stands site (p.terms n).2
  | .mk leading core gap junk trailing, n, calls, rest, h, hi, ho, hs => by
    obtain ⟨hself, hcore⟩ := List.cons_subset.mp hs
    obtain ⟨hbc, hc⟩ := core.attributed_terms h ⟨_, _, hi, rfl, rfl, ho⟩ hcore
    refine ⟨hbc, hc.congr rfl rfl, _, hself, rfl, ?_⟩
    exact ⟨Phrase.text_terms n _, rfl, (Phrase.shows_terms _ h).2⟩

theorem Args.attributed_terms : ∀ (args : Args) {n calls : Nat} {rest : Stream},
    (args.terms n).1 <+: b.drop n → 0 < calls →
    (∀ j ∈ (args.terms n).2.1.filterMap Ref.index?, b.OpenCalls j calls) →
    args.sites calls rest ⊆ sites →
    (∀ c ∈ (args.terms n).1, b.Attributed sites c) ∧
      ∀ j ∈ (args.terms n).2.1.filterMap Ref.index?, ∃ t, ∃ site ∈ sites,
        b[j]? = some t ∧ b.OpenCalls j site.calls ∧ 0 < site.calls ∧ b.Stands site t
  | .nil, _, _, _, _, _, _, _ => by simp [Args.terms]
  | .trivia _ more, _, _, _, h, hpos, ho, hs => more.attributed_terms h hpos ho hs
  | .phrase p more, n, calls, rest, h, hpos, ho, hs => by
    obtain ⟨hop, hom⟩ := List.forall_mem_cons.mp ho
    obtain ⟨hsp, hsm⟩ := List.append_subset.mp hs
    obtain ⟨hp, hi, hm⟩ := p.prefix_drop_terms h
    obtain ⟨hbp, htop, site, hsite, rfl, hst⟩ := p.attributed_terms hp hi hop hsp
    obtain ⟨hbm, ham⟩ := more.attributed_terms hm hpos hom hsm
    refine ⟨List.forall_mem_append.mpr ⟨hbp, List.forall_mem_cons.mpr ⟨htop, hbm⟩⟩, ?_⟩
    exact List.forall_mem_cons.mpr ⟨⟨_, site, hsite, hi, hop, hpos, hst⟩, ham⟩

end

end Terms

namespace Block

variable {b : Block} {sites : List Site} {g : Grammar} {tokens : List Token} {calls : Nat}
  {t : Term}

theorem attributed_ofPhrases {ps : List Phrase} {n : Nat} {rest : Stream}
    (h : ofPhrases n ps <+: b.drop n) (hr : ∀ t ∈ rootTerms n ps, t ∈ b.roots)
    (hs : Phrase.allSites ps rest ⊆ sites) :
    (∀ c ∈ ofPhrases n ps, b.Attributed sites c) ∧
      ∀ t ∈ rootTerms n ps, ∃ site ∈ sites, site.calls = 0 ∧ b.Stands site t := by
  induction ps generalizing n with
  | nil => simp [ofPhrases, rootTerms]
  | cons p ps ih =>
    obtain ⟨hsp, hsps⟩ := List.append_subset.mp hs
    obtain ⟨hrp, hrps⟩ := List.forall_mem_cons.mp hr
    obtain ⟨hp, hi, hps⟩ := p.prefix_drop_terms h
    obtain ⟨hbp, htop, hroot⟩ := p.attributed_terms hp hi (.root hi hrp) hsp
    obtain ⟨hbps, hroots⟩ := ih hps hrps hsps
    refine ⟨List.forall_mem_append.mpr ⟨hbp, List.forall_mem_cons.mpr ⟨htop, hbps⟩⟩, ?_⟩
    exact List.forall_mem_cons.mpr ⟨hroot, hroots⟩

/-- A term that stands for a run of tokens, read while `calls` calls are open: the parts of the run
are those around an expression, and the error names the first of the tokens that were skipped. -/
structure Covers (b : Block) (g : Grammar) (tokens : List Token) (calls : Nat) (t : Term)
    (leading : Stream) (core : Expr) (gap junk trailing after : Stream) : Prop where
  suffix : leading ++ (core.tokens ++ (gap ++ (junk ++ (trailing ++ after)))) <:+ tokens
  runs : ∃ stack depth, stack.count .call = calls ∧ g.Runs (.program tokens) stack
    (.phrase depth (decide (0 < calls))
      (leading ++ (core.tokens ++ (gap ++ (junk ++ (trailing ++ after))))))
  surrounds : Surrounds calls leading gap junk trailing after
  fits : core.Fits g.operators (gap ++ (junk ++ (trailing ++ after)))
  shows : b.Shows t core.tree
  text : t.text = detokenize (leading ++ core.tokens ++ gap ++ junk ++ trailing)
  error : t.error = junk.head?.map fun u => "unexpected token: " ++ u.sourceText

def IsCovered (b : Block) (g : Grammar) (tokens : List Token) (calls : Nat) (t : Term) : Prop :=
  ∃ leading core gap junk trailing after,
    b.Covers g tokens calls t leading core gap junk trailing after

theorem Stands.isCovered {site : Site} {t : Term} (h : b.Stands site t)
    (hr : g.Reaches (.program tokens) site) : b.IsCovered g tokens site.calls t := by
  obtain ⟨⟨leading, core, gap, junk, trailing⟩, after, calls⟩ := site
  obtain ⟨⟨hl, hc, -, hrec⟩, stack, depth, hcount, hrun⟩ := hr
  rw [Phrase.tokens_mk_append] at hrun
  exact ⟨leading, core, gap, junk, trailing, after, hrun.stream_suffix,
    ⟨stack, depth, hcount, hrun⟩, hrec.surrounds hl, hc, h.shows, h.text, h.error⟩

theorem IsCovered.exists_stray {e : String} (h : b.IsCovered g tokens calls t)
    (he : t.error = some e) :
    ∃ u ∈ tokens, u.Stray calls ∧ e = "unexpected token: " ++ u.sourceText := by
  obtain ⟨leading, core, gap, junk, trailing, after, hc⟩ := h
  rw [hc.error] at he
  obtain ⟨u, hu, rfl⟩ := Option.map_eq_some_iff.mp he
  have hmem := List.mem_of_mem_head? hu
  exact ⟨u, hc.suffix.subset (by simp [hmem]), hc.surrounds.stray u hmem, rfl⟩

theorem exists_sites (h : parse g tokens = .ok b) : ∃ sites : List Site,
    (∀ site ∈ sites, g.Reaches (.program tokens) site) ∧ (∀ c ∈ b, b.Attributed sites c) ∧
      ∀ t ∈ b.roots, ∃ site ∈ sites, site.calls = 0 ∧ b.Stands site t := by
  obtain ⟨ps, hps, rfl⟩ := parse_eq_ok_iff.mp h
  obtain ⟨rfl, hf, ha⟩ := Grammar.program_eq_ok_iff.mp hps
  have hroots := roots_ofPhrases ps
  have hr : ∀ t ∈ rootTerms 0 ps, t ∈ roots (ofPhrases 0 ps) := by rw [hroots]; exact fun _ h => h
  obtain ⟨hc, ht⟩ := attributed_ofPhrases (List.prefix_refl _) hr (List.Subset.refl _)
  refine ⟨Phrase.allSites ps [], ?_, hc, by rwa [hroots]⟩
  intro site hs
  refine Phrase.reaches_all hf ha ?_ hs
  rw [List.append_nil]
  exact .start

theorem exists_stray_of_error {e : String} (h : parse g tokens = .ok b) (ht : t ∈ b)
    (he : t.error = some e) :
    ∃ u ∈ tokens, ∃ calls, u.Stray calls ∧ e = "unexpected token: " ++ u.sourceText := by
  obtain ⟨sites, hsites, hc, hroots⟩ := exists_sites h
  have hcovered : ∃ calls, b.IsCovered g tokens calls t := by
    obtain ⟨ps, -, rfl⟩ := parse_eq_ok_iff.mp h
    obtain ⟨i, hi⟩ := List.mem_iff_getElem?.mp ht
    rcases mem_references_or_mem_roots hi with hm | hm
    · obtain ⟨c, hcb, hic⟩ := List.mem_flatMap.mp hm
      obtain ⟨j, hj⟩ := List.mem_iff_getElem?.mp hcb
      have hshape := (placed_of_getElem? hj).wellShaped
      cases hk : c.kind with
      | identifier =>
        obtain ⟨name, hin⟩ : ∃ name, c.inputs = [.named name] := by
          simpa only [Term.WellShaped, hk] using hshape
        rw [Term.references, hin] at hic
        cases hic
      | call =>
        obtain ⟨u, site, hs, hu, -, -, hst⟩ := (hc c hcb).argument hk i hic
        obtain rfl := Option.some.inj (hi.symm.trans hu)
        exact ⟨_, hst.isCovered (hsites site hs)⟩
      | binary =>
        obtain ⟨u, hu, hnone⟩ := (hc c hcb).operand hk i hic
        obtain rfl := Option.some.inj (hi.symm.trans hu)
        rw [hnone] at he
        cases he
    · obtain ⟨site, hs, -, hst⟩ := hroots t hm
      exact ⟨_, hst.isCovered (hsites site hs)⟩
  obtain ⟨calls, hcov⟩ := hcovered
  obtain ⟨u, hu, hstray, rfl⟩ := hcov.exists_stray he
  exact ⟨u, hu, calls, hstray, rfl⟩

/-- Each root of a parsed block and each argument of a call stands for a run of tokens around an
expression. Its error names the first of the tokens that cannot stand behind the expression, where
a closing parenthesis can only while a call is open. Operands of operators have no errors. -/
theorem covered_of_parse (h : parse g tokens = .ok b) :
    (∀ t ∈ b.roots, b.IsCovered g tokens 0 t) ∧
    (∀ c ∈ b, c.kind = .call → ∀ i ∈ c.references, ∃ t calls, b[i]? = some t ∧
      b.OpenCalls i calls ∧ 0 < calls ∧ b.IsCovered g tokens calls t) ∧
    ∀ c ∈ b, c.kind = .binary → ∀ i ∈ c.references, ∃ t, b[i]? = some t ∧ t.error = none := by
  obtain ⟨sites, hsites, hc, hroots⟩ := exists_sites h
  refine ⟨?_, ?_, fun c hcb => (hc c hcb).operand⟩
  · intro t ht
    obtain ⟨site, hs, hcalls, hst⟩ := hroots t ht
    rw [← hcalls]
    exact hst.isCovered (hsites site hs)
  · intro c hcb hk i hi
    obtain ⟨t, site, hs, ht, ho, hpos, hst⟩ := (hc c hcb).argument hk i hi
    exact ⟨t, site.calls, ht, ho, hpos, hst.isCovered (hsites site hs)⟩

/-- Tokens skipped in a call, in a call within an operand, and behind all calls, where a closing
parenthesis is skipped as well. -/
theorem covered_of_parse_stray :
    let g : Grammar := { operators := .ofList [(.slash, ⟨1, .left⟩)] }
    let tokens := tokenize "f(a [ b / g(c ]) ) / h ) x"
    ∃ b, parse g tokens = .ok b ∧
      b.errors.map Term.error = [some "unexpected token: [", some "unexpected token: ]",
        some "unexpected token: )"] ∧
      (∀ t ∈ b.roots, b.IsCovered g tokens 0 t) ∧
      (∀ c ∈ b, c.kind = .call → ∀ i ∈ c.references, ∃ t calls, b[i]? = some t ∧
        b.OpenCalls i calls ∧ 0 < calls ∧ b.IsCovered g tokens calls t) ∧
      ∀ c ∈ b, c.kind = .binary → ∀ i ∈ c.references, ∃ t, b[i]? = some t ∧ t.error = none := by
  intro g tokens
  obtain ⟨b, hb, he⟩ := exists_of_any (x := parse g tokens)
    (p := fun b => b.errors.map Term.error == [some "unexpected token: [",
      some "unexpected token: ]", some "unexpected token: )"]) (by decide +kernel)
  exact ⟨b, hb, beq_iff_eq.mp he, covered_of_parse hb⟩

end Block

end Verbatim
