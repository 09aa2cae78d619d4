import Verbatim.Proofs.Reading.Fits

/-! # What is read

A tree is read from a stream exactly if its tokens are the front of the stream, it fits before
the rest, and its nesting is within the limit. One direction follows the reading functions, the
other one the tree.
-/

namespace Verbatim

open Token (Kind Stream)

variable {g : Grammar}

namespace Token.Stream

variable {s : Stream}

theorem not_isWhitespace_of_pastGap_eq {t : Token} {rest : Stream} (h : s.pastGap = t :: rest) :
    ¬ t.isWhitespace := by
  have hn := List.head?_dropWhile_not Token.isWhitespace s
  rw [show s.dropWhile Token.isWhitespace = t :: rest from h] at hn
  simpa using hn

theorem eq_gap_append_cons (h : s.pastOperator.pastTrivia ≠ []) :
    s = s.gap ++ s.pastGap.next :: (s.pastOperator.trivia ++ s.pastOperator.pastTrivia) ∧
      ¬ s.pastGap.next.isWhitespace := by
  have hs := s.gap_append_pastGap
  cases hp : s.pastGap with
  | nil => simp [pastOperator, hp, advance, pastTrivia] at h
  | cons t rest =>
    have ho : s.pastOperator = rest := by simp [pastOperator, hp, advance]
    refine ⟨?_, not_isWhitespace_of_pastGap_eq hp⟩
    rw [trivia_append_pastTrivia, ho, next_cons, ← hp, hs]

end Token.Stream

namespace Grammar

/-- What holds of an expression that is read from `s` while `depth` are open. -/
structure Sound (g : Grammar) (depth : Nat) (s : Stream) (e : Expr) (rest : Stream) : Prop where
  tokens : s = e.tokens ++ rest
  fits : e.Fits g.operators rest
  allowed : g.Allows (e.deepest depth)

/-- An expression may be the left operand of any operator that comes next. -/
def Closed (g : Grammar) (e : Expr) (rest : Stream) : Prop :=
  ∀ q ∈ e.edge g.operators, g.operators.StopsAt q.rightMinimum rest

/-- What holds besides of an expression whose operators have precedence `minimum` and above: it is
as long as it can be. -/
structure Bounded (g : Grammar) (minimum : UInt32) (e : Expr) (rest : Stream) : Prop where
  tight : ∀ q, e.operator? g.operators = some q → minimum ≤ q.precedence
  closed : g.Closed e rest
  stops : g.operators.StopsAt minimum rest

theorem Closed.binary {left right : Expr} {gap trivia : List Token} {op : Token} {p : Operator}
    {rest : Stream} (hp : g.operators.get? op.kind = some p)
    (hs : g.operators.StopsAt p.rightMinimum rest) (hr : g.Closed right rest) :
    g.Closed (.binary left gap op trivia right) rest := by
  intro q hq
  rw [Expr.edge_binary hp] at hq
  rcases List.mem_cons.mp hq with rfl | hq
  · exact hs
  · exact hr q hq

section Soundness

variable {depth : Nat} {minimum : UInt32} {inCall : Bool} {s : Stream} {left : Expr}

variable (g) in
def OperandSound (depth : Nat) (s : Stream) : Prop :=
  g.Allows depth → ∀ e rest, Reads (g.operand depth s) e rest →
    g.Sound depth s e rest ∧ e.operator? g.operators = none ∧ e.edge g.operators = []

variable (g) in
def ArgumentsSound (depth : Nat) (s : Stream) : Prop :=
  g.Allows depth → ∀ args rest, Reads (g.arguments depth s) args rest →
    s = args.tokens ++ rest ∧ args.Fits g.operators rest ∧ g.Allows (args.deepest depth)

variable (g) in
def PhraseSound (depth : Nat) (inCall : Bool) (s : Stream) : Prop :=
  ∀ p rest, Reads (g.phrase depth inCall s) p rest →
    s = p.tokens ++ rest ∧ p.Fits g.operators inCall rest ∧ g.Allows (p.deepest depth)

variable (g) in
def ChainSound (depth : Nat) (minimum : UInt32) (s : Stream) : Prop :=
  g.Allows depth → ∀ e rest, Reads (g.chain depth minimum s) e rest →
    g.Sound depth s e rest ∧ g.Bounded minimum e rest

variable (g) in
/-- The invariant of climbing: `left` is closed by whatever operator comes next. -/
def ClimbSound (depth : Nat) (minimum : UInt32) (left : Expr) (s : Stream) : Prop :=
  left.Fits g.operators s → g.Allows (left.deepest depth) →
    (∀ q, left.operator? g.operators = some q → minimum ≤ q.precedence) → g.Closed left s →
    ∀ e rest, Reads (g.climb depth minimum left s) e rest →
      g.Sound depth (left.tokens ++ s) e rest ∧ g.Bounded minimum e rest

theorem operandSound (ih : ∀ callee opening mid, s = callee :: opening :: mid →
    callee.kind = .identifier → opening.kind = .leftParen → g.ArgumentsSound depth mid) :
    g.OperandSound depth s := by
  intro ha e rest h
  rcases reads_operand_iff.mp h with ⟨ident, rfl, hi, hn, rfl⟩ |
    ⟨callee, opening, args, closing, mid, rfl, hc, ho, hr, hargs, rfl⟩
  · exact ⟨⟨by simp [Expr.tokens], ⟨hi, hn⟩, ha⟩, rfl, rfl⟩
  · obtain ⟨rfl, hf, hd⟩ := ih callee opening mid rfl hc ho ha _ _ hargs
    exact ⟨⟨by simp [Expr.tokens], ⟨hc, ho, hr, hf⟩, hd⟩, rfl, rfl⟩

theorem argumentsSound_nil : g.ArgumentsSound depth [] := by
  intro ha args rest h
  obtain ⟨rfl, rfl⟩ := reads_arguments_nil_iff.mp h
  exact ⟨rfl, .inl rfl, ha⟩

theorem argumentsSound_cons {t : Token} (ht : t.isTrivia → g.ArgumentsSound depth s)
    (hp : t.kind ≠ .rightParen → ¬ t.isTrivia → g.PhraseSound depth true (t :: s) ∧
      ∀ mid : Stream, mid.length < (t :: s).length → g.ArgumentsSound depth mid) :
    g.ArgumentsSound depth (t :: s) := by
  intro ha args rest h
  rcases reads_arguments_cons_iff.mp h with ⟨hr, rfl, rfl⟩ | ⟨hi, more, hmore, rfl⟩ |
    ⟨hr, hi, p, mid, more, hph, hmore, rfl⟩
  · exact ⟨rfl, .inr hr, ha⟩
  · obtain ⟨rfl, hf, hd⟩ := ht hi ha _ _ hmore
    exact ⟨by simp [Args.tokens], ⟨hi, hf⟩, hd⟩
  · obtain ⟨hp, hm⟩ := hp hr hi
    obtain ⟨hs, hpf, hpd⟩ := hp _ _ hph
    obtain ⟨rfl, hf, hd⟩ := hm mid hph.length_lt ha _ _ hmore
    refine ⟨by rw [hs]; simp [Args.tokens], ⟨?_, hpf, hf⟩, allows_max_iff.mpr ⟨hpd, hd⟩⟩
    obtain ⟨_, core, mid, _, rfl, _⟩ := reads_phrase_iff.mp hph
    exact List.takeWhile_cons_of_neg hi

theorem phraseSound (ih : g.ChainSound (depth + 1) 0 s.pastTrivia) :
    g.PhraseSound depth inCall s := by
  intro p rest h
  obtain ⟨ha, core, mid, hc, rfl, rfl⟩ := reads_phrase_iff.mp h
  obtain ⟨⟨hs, hf, hd⟩, hb⟩ := ih ha _ _ hc
  obtain ⟨hr, hm⟩ := mid.recovers_self inCall
  refine ⟨?_, ⟨fun t ht => Stream.isTrivia_of_mem_trivia ht, ?_, ?_, hr⟩, hd⟩
  · have ht := s.trivia_append_pastTrivia
    rw [hs, hm] at ht
    simpa [Phrase.tokens] using ht.symm
  · rwa [← hm]
  · rw [← hm]; exact hb.stops

theorem chainSound (ho : g.OperandSound depth s)
    (hc : ∀ left (mid : Stream), mid.length < s.length → g.ClimbSound depth minimum left mid) :
    g.ChainSound depth minimum s := by
  intro ha e rest h
  obtain ⟨left, mid, hl, hcl⟩ := reads_chain_iff.mp h
  obtain ⟨⟨hs, hf, hd⟩, hn, he⟩ := ho ha _ _ hl
  rw [hs]
  exact hc left mid hl.length_lt hf hd (by simp [hn]) (by simp [Closed, he]) _ _ hcl

theorem climbSound (ih : ∀ op, g.operators.get? s.pastGap.next.kind = some op →
    minimum ≤ op.precedence →
    g.ChainSound (depth + 1) op.rightMinimum s.pastOperator.pastTrivia ∧
    ∀ right (mid : Stream), mid.length < s.pastOperator.pastTrivia.length →
      g.ClimbSound depth minimum
        (.binary left s.gap s.pastGap.next s.pastOperator.trivia right) mid) :
    g.ClimbSound depth minimum left s := by
  intro hf ha ht hcl e rest h
  rcases reads_climb_iff.mp h with ⟨hs, rfl, rfl⟩ | ⟨op, right, mid, hop, hle, hd, hr, h⟩
  · exact ⟨⟨rfl, hf, ha⟩, ht, hcl, hs⟩
  · obtain ⟨hc, hm⟩ := ih op hop hle
    obtain ⟨⟨hsr, hfr, har⟩, hbr⟩ := hc hd _ _ hr
    -- the end of the stream is no operator here: nothing could be read after it
    have hne : s.pastOperator.pastTrivia ≠ [] :=
      List.ne_nil_of_length_pos (Nat.zero_lt_of_lt hr.length_lt)
    obtain ⟨hs, hw⟩ := s.eq_gap_append_cons hne
    rw [hsr] at hs
    have hfb : Expr.Fits g.operators
        (.binary left s.gap s.pastGap.next s.pastOperator.trivia right) mid :=
      ⟨by rwa [← hs], hfr, fun t ht => Stream.isWhitespace_of_mem_gap ht, hw,
        fun t ht => Stream.isTrivia_of_mem_trivia ht, op, hop,
        fun q hq => hcl q hq op hop, hbr.tight⟩
    obtain ⟨⟨htok, hfe, hde⟩, hbe⟩ := hm right mid hr.length_lt hfb (allows_max_iff.mpr ⟨ha, har⟩)
      (by simpa [Expr.operator?, hop] using hle) (.binary hop hbr.stops hbr.closed) _ _ h
    refine ⟨⟨?_, hfe, hde⟩, hbe⟩
    rw [← htok]
    nth_rewrite 1 [hs]
    simp [Expr.tokens]

end Soundness

theorem sound (g : Grammar) :
    (∀ depth s, g.OperandSound depth s) ∧ (∀ depth s, g.ArgumentsSound depth s) ∧
    (∀ depth inCall s, g.PhraseSound depth inCall s) ∧
    (∀ depth minimum s, g.ChainSound depth minimum s) ∧
    ∀ depth minimum left s, g.ClimbSound depth minimum left s :=
  g.induct operandSound argumentsSound_nil argumentsSound_cons phraseSound chainSound climbSound

section Completeness

/-- An expression within the limit at which climbing may stop or go on. -/
structure Climbs (g : Grammar) (depth : Nat) (minimum : UInt32) (e : Expr) (rest : Stream) :
    Prop where
  fits : e.Fits g.operators rest
  allowed : g.Allows (e.deepest depth)
  tight : ∀ q, e.operator? g.operators = some q → minimum ≤ q.precedence
  closed : g.Closed e rest

namespace Climbs

variable {depth : Nat} {minimum : UInt32} {rest : Stream} {left right : Expr}
  {gap trivia : List Token}
  {op : Token}

theorem left_operand (h : g.Climbs depth minimum (.binary left gap op trivia right) rest) :
    g.Climbs depth minimum left (gap ++ op :: (trivia ++ (right.tokens ++ rest))) := by
  obtain ⟨⟨hfl, hfr, hg, hw, htr, p, hp, hj⟩, ha, ht, -⟩ := h
  have hnext := (Stream.cut_operator hg hw htr (hfr.next_not_isTrivia rest)).2.1
  refine ⟨hfl, (allows_max_iff.mp ha).1, ?_, ?_⟩
  · intro q hq
    have hlt := hj.left_closed q (Expr.mem_edge_of_operator? hq)
    exact UInt32.le_trans (ht p hp) (Operator.le_precedence_of_lt hlt)
  · intro q hq p' hp'
    rw [hnext, hp] at hp'
    exact Option.some.inj hp' ▸ hj.left_closed q hq

theorem right_operand (h : g.Climbs depth minimum (.binary left gap op trivia right) rest) :
    ∃ p, g.operators.get? op.kind = some p ∧ minimum ≤ p.precedence ∧ g.Allows (depth + 1) ∧
      g.Climbs (depth + 1) p.rightMinimum right rest ∧
      g.operators.StopsAt p.rightMinimum rest := by
  obtain ⟨⟨-, hfr, -, -, -, p, hp, hj⟩, ha, ht, hcl⟩ := h
  have har := (allows_max_iff.mp ha).2
  rw [Closed, Expr.edge_binary hp] at hcl
  obtain ⟨hstop, hclosed⟩ := List.forall_mem_cons.mp hcl
  exact ⟨p, hp, ht p hp, har.mono (right.le_deepest _), ⟨hfr, har, hj.right_tight, hclosed⟩, hstop⟩

end Climbs

theorem climbs_zero {depth : Nat} {e : Expr} {rest : Stream} (hf : e.Fits g.operators rest)
    (ha : g.Allows (e.deepest depth)) (hs : g.operators.StopsAt 0 rest) :
    g.Climbs depth 0 e rest :=
  ⟨hf, ha, fun _ _ => UInt32.zero_le, fun _ _ => hs.mono UInt32.zero_le⟩

mutual

/-- Climbing on from an expression is what reading its tokens comes to. -/
theorem reads_chain_of_climb : ∀ {e : Expr} {depth : Nat} {minimum : UInt32} {rest : Stream},
    g.Climbs depth minimum e rest → ∀ {e' rest'}, Reads (g.climb depth minimum e rest) e' rest' →
    Reads (g.chain depth minimum (e.tokens ++ rest)) e' rest'
  | .name ident, depth, minimum, rest, hc, _, _, h => by
    rw [Expr.tokens_name_append]
    refine reads_chain_iff.mpr ⟨.name ident, rest, ?_, h⟩
    exact reads_operand_iff.mpr (.inl ⟨ident, rfl, hc.fits.1, hc.fits.2, rfl⟩)
  | .call callee opening args closing, depth, minimum, rest, hc, _, _, h => by
    obtain ⟨hk, ho, hr, hf⟩ := hc.fits
    rw [Expr.tokens_call_append]
    refine reads_chain_iff.mpr ⟨.call callee opening args closing, rest, ?_, h⟩
    exact reads_operand_iff.mpr (.inr ⟨callee, opening, args, closing, _, rfl, hk, ho, hr,
      reads_arguments hf hc.allowed, rfl⟩)
  | .binary left gap op trivia right, depth, minimum, rest, hc, _, _, h => by
    obtain ⟨-, hfr, hg, hw, htr, -⟩ := hc.fits
    obtain ⟨p, hp, hle, ha, hright, hstop⟩ := hc.right_operand
    obtain ⟨hgap, hnext, htrivia, hpast⟩ :=
      Stream.cut_operator hg hw htr (hfr.next_not_isTrivia rest)
    rw [Expr.tokens_binary_append]
    refine reads_chain_of_climb hc.left_operand ?_
    refine reads_climb_iff.mpr (.inr ⟨p, right, rest, by rw [hnext, hp], hle, ha, ?_,
      by rwa [hgap, hnext, htrivia]⟩)
    rw [hpast]
    exact reads_chain_of_climb hright (reads_climb_iff.mpr (.inl ⟨hstop, rfl, rfl⟩))

theorem reads_phrase : ∀ {p : Phrase} {depth : Nat} {inCall : Bool} {rest : Stream},
    p.Fits g.operators inCall rest → g.Allows (p.deepest depth) →
    Reads (g.phrase depth inCall (p.tokens ++ rest)) p rest
  | .mk leading core gap junk trailing, depth, inCall, rest, hf, ha => by
    obtain ⟨hl, hf, hs, hr⟩ := hf
    obtain ⟨htrivia, hpast⟩ := Stream.cut_trivia hl (hf.next_not_isTrivia _)
    obtain ⟨hgap, hjunk, htr, hrest⟩ := Stream.recovers_iff.mp ⟨hr, rfl⟩
    rw [Phrase.tokens_mk_append]
    refine reads_phrase_iff.mpr ⟨ha.mono (core.le_deepest _), core, _, ?_, ?_, hrest⟩
    · rw [hpast]
      exact reads_chain_of_climb (climbs_zero hf ha hs) (reads_climb_iff.mpr (.inl ⟨hs, rfl, rfl⟩))
    · rw [← hgap, ← hjunk, ← htr, htrivia]

theorem reads_arguments : ∀ {args : Args} {depth : Nat} {rest : Stream},
    args.Fits g.operators rest → g.Allows (args.deepest depth) →
    Reads (g.arguments depth (args.tokens ++ rest)) args rest
  | .nil, depth, [], hf, _ => reads_arguments_nil_iff.mpr ⟨rfl, rfl⟩
  | .nil, depth, t :: rest, hf, _ =>
    reads_arguments_cons_iff.mpr (.inl ⟨hf.resolve_left (by simp), rfl, rfl⟩)
  | .trivia t more, depth, rest, hf, ha =>
    reads_arguments_cons_iff.mpr (.inr (.inl ⟨hf.1, more, reads_arguments hf.2 ha, rfl⟩))
  | .phrase p more, depth, rest, ⟨hl, hp, hf⟩, ha => by
    obtain ⟨hap, ha⟩ := allows_max_iff.mp ha
    have hph := reads_phrase hp hap
    have hmore := reads_arguments hf ha
    obtain ⟨t, ts, hts, hk⟩ := hp.exists_tokens hl
    rw [hts] at hph
    rw [Args.tokens, List.append_assoc, hts]
    refine reads_arguments_cons_iff.mpr (.inr (.inr ⟨?_, ?_, p, _, more, hph, hmore, rfl⟩))
    · simp [hk]
    · simp [Token.isTrivia, hk, Kind.isTrivia]

end

end Completeness

variable {s rest : Stream} {ps : List Phrase}

theorem program_of_reads {p : Phrase} (h : Reads (g.phrase 0 false s) p rest) :
    g.program s = (g.program rest).map (p :: ·) := by
  cases s with
  | nil => exact (Nat.not_lt_zero _ h.length_lt).elim
  | cons t s =>
    obtain ⟨_, h⟩ := h
    rw [program, h]
    cases hp : g.program rest <;> simp [bind, Except.bind, Except.map, hp]

theorem program_append (hf : Phrase.AllFit g.operators false ps rest)
    (ha : ∀ p ∈ ps, g.Allows (p.deepest 0)) :
    g.program (ps.flatMap Phrase.tokens ++ rest) = (g.program rest).map (ps ++ ·) := by
  induction ps with
  | nil => cases h : g.program rest <;> simp [Except.map, h]
  | cons p ps ih =>
    have hp := reads_phrase hf.1 (ha p List.mem_cons_self)
    rw [List.flatMap_cons, List.append_assoc, program_of_reads hp,
      ih hf.2 fun q hq => ha q (List.mem_cons_of_mem p hq)]
    cases g.program rest <;> rfl

theorem program_sound : ∀ {s : Stream} {ps : List Phrase}, g.program s = .ok ps →
    s = ps.flatMap Phrase.tokens ∧ Phrase.AllFit g.operators false ps [] ∧
      ∀ p ∈ ps, g.Allows (p.deepest 0)
  | [], ps, h => by
    rw [program] at h
    obtain rfl := Except.ok.inj h
    exact ⟨rfl, trivial, by simp⟩
  | t :: s, ps, h => by
    obtain ⟨p, mid, qs, hp, hq, rfl⟩ := program_cons_eq_ok_iff.mp h
    have hlt := hp.length_lt
    obtain ⟨hs, hf, ha⟩ := g.sound.2.2.1 _ _ _ _ _ hp
    obtain ⟨rfl, hfq, haq⟩ := program_sound hq
    refine ⟨hs, ⟨by simpa using hf, hfq⟩, ?_⟩
    rintro q (_ | ⟨_, hq⟩)
    exacts [ha, haq q hq]
termination_by s => s.length
decreasing_by exact hlt

/-- A program is read exactly if its phrases fit and nest no deeper than is allowed. -/
theorem program_eq_ok_iff : g.program s = .ok ps ↔
    s = ps.flatMap Phrase.tokens ∧ Phrase.AllFit g.operators false ps [] ∧
      ∀ p ∈ ps, g.Allows (p.deepest 0) := by
  refine ⟨program_sound, ?_⟩
  rintro ⟨rfl, hf, ha⟩
  have hs := program_append hf ha
  rw [List.append_nil] at hs
  rw [hs, program]
  exact congrArg Except.ok (List.append_nil ps)

theorem chain_of_no_name {depth : Nat} {minimum : UInt32} {t : Token} (hs : s = t :: rest)
    (hk : t.kind ≠ .identifier) : g.chain depth minimum s = .error (.noProductionAt t) := by
  subst hs
  rw [chain, operand.eq_def]
  simp only [if_neg hk]
  rfl

theorem program_of_no_name {t : Token} (ha : g.Allows 1) (hi : ¬ t.isTrivia)
    (hk : t.kind ≠ .identifier) : g.program (t :: s) = .error (.noProductionAt t) := by
  have hp := Stream.pastTrivia_cons_of_not hi s
  rw [program, phrase, checkDepth_eq_ok_iff.mpr ha, chain_of_no_name hp hk]
  rfl

end Grammar

end Verbatim
