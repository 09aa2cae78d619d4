import Verbatim.Proofs.Reading.Exact
import Verbatim.Proofs.Reading.Run

/-! # Where phrases are read

A site is a phrase of a program with the stream after it and the number of calls around it. The run
of the program comes to each site with as many calls open, and what is read there is the phrase.
-/

namespace Verbatim

open Token (Stream)

structure Site where
  phrase : Phrase
  after : Stream
  calls : Nat

mutual

/-- The sites of the arguments in an expression that is followed by `rest`, while `calls` calls are
open around it. -/
def Expr.sites (calls : Nat) (e : Expr) (rest : Stream) : List Site :=
  match e with
  | .name _ => []
  | .call _ _ args closing => args.sites (calls + 1) (closing :: rest)
  | .binary left gap op trivia right =>
    left.sites calls (gap ++ op :: (trivia ++ (right.tokens ++ rest))) ++ right.sites calls rest

def Phrase.sites (calls : Nat) (p : Phrase) (rest : Stream) : List Site :=
  match p with
  | .mk leading core gap junk trailing =>
    ⟨.mk leading core gap junk trailing, rest, calls⟩ ::
      core.sites calls (gap ++ (junk ++ (trailing ++ rest)))

def Args.sites (calls : Nat) (args : Args) (rest : Stream) : List Site :=
  match args with
  | .nil => []
  | .trivia _ more => more.sites calls rest
  | .phrase p more => p.sites calls (more.tokens ++ rest) ++ more.sites calls rest

end

def Phrase.allSites : List Phrase → Stream → List Site
  | [], _ => []
  | p :: ps, rest => p.sites 0 (ps.flatMap tokens ++ rest) ++ allSites ps rest

namespace Grammar

/-- A run from `start` comes to the site, and the phrase there fits before what follows it. -/
structure Reaches (g : Grammar) (start : Call) (site : Site) : Prop where
  fits : site.phrase.Fits g.operators (decide (0 < site.calls)) site.after
  runs : ∃ stack depth, stack.count .call = site.calls ∧
    g.Runs start stack
      (.phrase depth (decide (0 < site.calls)) (site.phrase.tokens ++ site.after))

variable {g : Grammar} {start : Call} {stack : List Frame}

theorem Runs.climb : ∀ {e : Expr} {depth : Nat} {minimum : UInt32} {rest : Stream},
    g.Climbs depth minimum e rest →
    g.Runs start stack (.chain depth minimum (e.tokens ++ rest)) →
    g.Runs start stack (.climb depth minimum e rest)
  | .name ident, _, _, rest, hc, h => by
    rw [Expr.tokens_name_append] at h
    exact h.step (.chainClimb (reads_operand_iff.mpr
      (.inl ⟨ident, rfl, hc.fits.1, hc.fits.2, rfl⟩)))
  | .call callee opening args closing, _, _, rest, hc, h => by
    obtain ⟨hk, ho, hr, hf⟩ := hc.fits
    rw [Expr.tokens_call_append] at h
    exact h.step (.chainClimb (reads_operand_iff.mpr (.inr ⟨callee, opening, args, closing, _, rfl,
      hk, ho, hr, reads_arguments hf hc.allowed, rfl⟩)))
  | .binary left gap op trivia right, depth, minimum, rest, hc, h => by
    obtain ⟨-, hfr, hg, hw, htr, -⟩ := hc.fits
    obtain ⟨p, hp, hle, ha, hright, hstop⟩ := hc.right_operand
    obtain ⟨hgap, hnext, htrivia, hpast⟩ :=
      Stream.cut_operator hg hw htr (hfr.next_not_isTrivia rest)
    rw [Expr.tokens_binary_append] at h
    have hr := reads_chain_of_climb hright (reads_climb_iff.mpr (.inl ⟨hstop, rfl, rfl⟩))
    rw [← hpast] at hr
    have := (h.climb hc.left_operand).step
      (.climbClimb (by rwa [hnext]) hle (checkDepth_of_allows ha _) hr)
    rwa [hgap, hnext, htrivia] at this

/-- The right operand of a binary expression is read with one more frame, which is no call. -/
theorem Runs.right_operand {left right : Expr} {gap trivia : List Token} {op : Token}
    {depth : Nat} {minimum : UInt32} {rest : Stream}
    (hc : g.Climbs depth minimum (.binary left gap op trivia right) rest)
    (h : g.Runs start stack
      (.chain depth minimum ((Expr.binary left gap op trivia right).tokens ++ rest))) :
    ∃ p, g.Climbs (depth + 1) (Operator.rightMinimum p) right rest ∧
      g.Runs start (.right p :: stack)
        (.chain (depth + 1) p.rightMinimum (right.tokens ++ rest)) := by
  obtain ⟨-, hfr, hg, hw, htr, -⟩ := hc.fits
  obtain ⟨p, hp, hle, ha, hright, -⟩ := hc.right_operand
  obtain ⟨-, hnext, -, hpast⟩ := Stream.cut_operator hg hw htr (hfr.next_not_isTrivia rest)
  rw [Expr.tokens_binary_append] at h
  have := (h.climb hc.left_operand).step
    (.climbChain (by rwa [hnext]) hle (checkDepth_of_allows ha _))
  rw [hpast] at this
  exact ⟨p, hright, this⟩

end Grammar

open Grammar

variable {g : Grammar} {start : Call} {site : Site}

mutual

theorem Expr.reaches : ∀ {e : Expr} {stack : List Frame} {depth : Nat} {minimum : UInt32}
    {rest : Stream},
    g.Climbs depth minimum e rest →
    g.Runs start stack (.chain depth minimum (e.tokens ++ rest)) →
    site ∈ e.sites (stack.count .call) rest → g.Reaches start site
  | .name _, _, _, _, _, _, _, hs => by cases hs
  | .call callee opening args closing, stack, depth, _, rest, hc, h, hs => by
    obtain ⟨hk, ho, -, hf⟩ := hc.fits
    rw [Expr.tokens_call_append] at h
    have hargs : g.Runs start (.call :: stack) _ :=
      (h.step .chainOperand).step (.operandArguments hk ho)
    exact Args.reaches hf hc.allowed (by simp) hargs (by simpa [Expr.sites] using hs)
  | .binary left gap op trivia right, stack, depth, minimum, rest, hc, h, hs => by
    obtain ⟨p, hright, hr⟩ := h.right_operand hc
    rw [Expr.tokens_binary_append] at h
    rcases List.mem_append.mp hs with hs | hs
    · exact Expr.reaches hc.left_operand h hs
    · exact Expr.reaches hright hr (by simpa using hs)

theorem Phrase.reaches : ∀ {p : Phrase} {stack : List Frame} {depth : Nat} {rest : Stream},
    p.Fits g.operators (decide (0 < stack.count .call)) rest → g.Allows (p.deepest depth) →
    g.Runs start stack
      (.phrase depth (decide (0 < stack.count .call)) (p.tokens ++ rest)) →
    site ∈ p.sites (stack.count .call) rest → g.Reaches start site
  | .mk leading core gap junk trailing, stack, depth, rest, hf, ha, h, hs => by
    rcases List.mem_cons.mp hs with rfl | hs
    · exact ⟨hf, stack, depth, rfl, h⟩
    · obtain ⟨hl, hc, hstop, -⟩ := hf
      rw [Phrase.tokens_mk_append] at h
      have hchain := h.step (.phraseChain (checkDepth_of_allows (ha.mono (core.le_deepest _)) _))
      rw [(Stream.cut_trivia hl (hc.next_not_isTrivia _)).2] at hchain
      exact Expr.reaches (climbs_zero hc ha hstop) hchain (by simpa using hs)

theorem Args.reaches : ∀ {args : Args} {stack : List Frame} {depth : Nat} {rest : Stream},
    args.Fits g.operators rest → g.Allows (args.deepest depth) → 0 < stack.count .call →
    g.Runs start stack (.arguments depth (args.tokens ++ rest)) →
    site ∈ args.sites (stack.count .call) rest → g.Reaches start site
  | .nil, _, _, _, _, _, _, _, hs => by cases hs
  | .trivia t more, stack, depth, rest, hf, ha, hcall, h, hs =>
    Args.reaches hf.2 ha hcall (h.step (.argumentsTrivia hf.1)) hs
  | .phrase p more, stack, depth, rest, ⟨hl, hp, hf⟩, ha, hcall, h, hs => by
    obtain ⟨hap, ha⟩ := allows_max_iff.mp ha
    obtain ⟨t, ts, hts, hk⟩ := hp.exists_tokens hl
    have hr : t.kind ≠ .rightParen := by simp [hk]
    have ht : ¬ t.isTrivia := by simp [Token.isTrivia, hk, Token.Kind.isTrivia]
    have hread := reads_phrase hp hap
    have hin : decide (0 < stack.count .call) = true := by simpa using hcall
    rw [Args.tokens, List.append_assoc] at h
    rw [hts] at h hread
    rcases List.mem_append.mp hs with hs | hs
    · have hrun : g.Runs start stack (.phrase depth (decide (0 < stack.count .call))
          (p.tokens ++ (more.tokens ++ rest))) := by
        rw [hin, hts]
        exact h.step (.argumentsPhrase hr ht)
      exact Phrase.reaches (by rwa [hin]) hap hrun hs
    · exact Args.reaches hf ha hcall (h.step (.argumentsArguments hr ht hread)) hs

end

theorem Phrase.reaches_all {tokens : List Token} : ∀ {ps : List Phrase} {rest : Stream},
    AllFit g.operators false ps rest → (∀ p ∈ ps, g.Allows (p.deepest 0)) →
    g.Runs (.program tokens) [] (.program (ps.flatMap Phrase.tokens ++ rest)) →
    site ∈ allSites ps rest → g.Reaches (.program tokens) site
  | [], _, _, _, _, hs => by cases hs
  | p :: ps, rest, ⟨hp, hps⟩, ha, h, hs => by
    obtain ⟨hap, haps⟩ := List.forall_mem_cons.mp ha
    have hread := reads_phrase hp hap
    rw [List.flatMap_cons, List.append_assoc] at h
    obtain ⟨t, ts, hts⟩ := List.exists_cons_of_length_pos (Nat.zero_lt_of_lt hread.length_lt)
    rw [hts] at h hread
    rcases List.mem_append.mp hs with hs | hs
    · have hrun : g.Runs (.program tokens) []
          (.phrase 0 false (p.tokens ++ (ps.flatMap Phrase.tokens ++ rest))) := by
        rw [hts]
        exact h.step .programPhrase
      exact @Phrase.reaches _ _ _ p [] 0 _ hp hap hrun hs
    · exact reaches_all hps haps (h.step (.programProgram hread)) hs

end Verbatim
