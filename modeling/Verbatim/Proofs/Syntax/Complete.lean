import Verbatim.Proofs.Syntax.Sound

/-! # Reading what derives

A derivation by the rules of the syntax is turned into phrases that fit. The trivia of the rules may
be cut up in many ways; the phrases are built from the end, so that each takes all trivia that
follows its expression.
-/

namespace Verbatim

open Token (Kind Stream)

variable {ops : Operators} {inCall : Bool}

theorem Token.canFollow_of_isTrivia {t : Token} (h : t.isTrivia) : t.canFollow inCall := by
  revert h
  unfold isTrivia canFollow
  cases t.kind <;> simp [Kind.isTrivia]

namespace Syntax.Unambiguous

variable {t : Token} (hu : Unambiguous ops) (h : (ops.get? t.kind).isSome)

include hu h

theorem not_canFollow : ¬ t.canFollow inCall := by
  have hk := hu _ h
  unfold Token.canFollow
  generalize t.kind = kind at hk ⊢
  revert kind inCall
  decide

theorem ne_leftParen : t.kind ≠ .leftParen := by
  intro hk
  exact absurd (hk ▸ hu _ h) (by decide)

theorem not_isWhitespace : ¬ t.isWhitespace := by
  intro hw
  have hn : ¬ t.canFollow false := hu.not_canFollow h
  exact hn (Token.canFollow_of_isTrivia (Token.isTrivia_of_isWhitespace hw))

end Syntax.Unambiguous

namespace Token.Stream

variable {trivia s : Stream}

theorem next_kind_ne_leftParen (h : s.next.canFollow inCall) : s.next.kind ≠ .leftParen := by
  intro hk
  simp [Token.canFollow, hk, Kind.isTrivia] at h

theorem junk_eq_nil (h : s.next.canFollow inCall) : s.junk inCall = [] := by
  cases s with
  | nil => rfl
  | cons t s =>
    refine List.takeWhile_cons_of_neg ?_
    simpa using h

variable (ht : ∀ t ∈ trivia, t.isTrivia) (hc : s.next.canFollow inCall)

include ht hc

theorem canFollow_next_append : (Stream.next (trivia ++ s)).canFollow inCall := by
  cases trivia with
  | nil => exact hc
  | cons t trivia => exact canFollow_of_isTrivia (ht t List.mem_cons_self)

theorem canFollow_next_pastGap (hn : ¬ s.next.isTrivia) :
    (Stream.pastGap (trivia ++ s)).next.canFollow inCall := by
  induction trivia with
  | nil =>
    cases s with
    | nil => exact hc
    | cons t s =>
      have hw : ¬ t.isWhitespace := by
        intro hw
        exact hn (isTrivia_of_isWhitespace hw)
      rw [List.nil_append, pastGap_cons_of_not hw]
      exact hc
  | cons t trivia ih =>
    by_cases hw : t.isWhitespace
    · rw [List.cons_append, pastGap_cons hw]
      apply ih
      intro t h
      exact ht t (List.mem_cons_of_mem _ h)
    · rw [List.cons_append, pastGap_cons_of_not hw]
      exact canFollow_of_isTrivia (ht t List.mem_cons_self)

omit hc in
theorem blank_trivia_append (hn : ¬ s.next.isTrivia) :
    Stream.blank (trivia ++ s) = Stream.blank trivia := by
  cases trivia with
  | cons t trivia => rfl
  | nil =>
    cases s with
    | nil => rfl
    | cons t s =>
      apply List.takeWhile_cons_of_neg
      intro hw
      exact hn (isTrivia_of_isWhitespace hw)

omit hc in
theorem isTrivia_of_mem_pastBlank {t : Token} (h : t ∈ Stream.pastBlank trivia) : t.isTrivia :=
  ht t (List.mem_of_mem_drop h)

theorem recovers_trivia (hn : ¬ s.next.isTrivia) :
    Recovers inCall (Stream.blank trivia) [] (Stream.pastBlank trivia) s where
  blank_eq := by
    rw [List.nil_append, ← List.append_assoc, blank_append_pastBlank, blank_trivia_append ht hn]
  junk_eq := by
    rw [List.nil_append]
    exact junk_eq_nil (canFollow_next_append (fun _ h => isTrivia_of_mem_pastBlank ht h) hc)
  trivia_eq := (cut_trivia (fun _ h => isTrivia_of_mem_pastBlank ht h) hn).1

end Token.Stream

namespace Expr

/-- Nothing was skipped for `e`, and it fits wherever no parenthesis follows. -/
structure Plain (ops : Operators) (e : Expr) : Prop where
  clean : e.Clean
  fits : ∀ rest : Stream, rest.next.kind ≠ .leftParen → e.Fits ops rest

def linkTokens (xs : List (Link × Expr)) : List Token :=
  xs.flatMap fun x => x.1.gap ++ x.1.op :: (x.1.trivia ++ x.2.tokens)

theorem tokens_spine (e : Expr) : e.spine.1.tokens ++ linkTokens e.spine.2 = e.tokens := by
  cases e with
  | name _ => exact List.append_nil _
  | call _ _ _ _ => exact List.append_nil _
  | binary left gap op trivia right =>
    rw [tokens, ← left.tokens_spine, ← right.tokens_spine]
    simp [spine, linkTokens]

theorem clean_of_spine : ∀ {e : Expr}, e.spine.1.Clean → (∀ x ∈ e.spine.2, x.2.Clean) → e.Clean
  | .name _, h, _ => h
  | .call .., h, _ => h
  | .binary .., h, hs => by
    obtain ⟨hl, hr⟩ := List.forall_mem_append.mp hs
    obtain ⟨hr, hrs⟩ := List.forall_mem_cons.mp hr
    exact ⟨clean_of_spine h hl, clean_of_spine hr hrs⟩

/-- An arranged expression fits if its operands do. -/
theorem Arranged.fits (hu : Syntax.Unambiguous ops) (hb : ops.Bounded) :
    ∀ {e : Expr} {rest : Stream},
    e.Arranged ops → e.spine.1.Plain ops →
    (∀ x ∈ e.spine.2, Syntax.Joint ops x.1 ∧ x.2.Plain ops) → rest.next.kind ≠ .leftParen →
    e.Fits ops rest
  | .name _, rest, _, h, _, hn => h.fits rest hn
  | .call .., rest, _, h, _, hn => h.fits rest hn
  | .binary left gap op trivia right, rest, ⟨hl, hr, p, hp, hj⟩, h, hs, hn => by
    obtain ⟨hsl, hs⟩ := List.forall_mem_append.mp hs
    obtain ⟨⟨hk, hpr⟩, hsr⟩ := List.forall_mem_cons.mp hs
    refine ⟨hl.fits hu hb h hsl ?_, hr.fits hu hb hpr hsr hn, hk.gap,
      hu.not_isWhitespace hk.operator, hk.trivia, p, hp, hl.joins hb hp hj⟩
    cases gap with
    | nil => exact hu.ne_leftParen hk.operator
    | cons t gap =>
      have hw := hk.gap t List.mem_cons_self
      rw [Token.isWhitespace, beq_iff_eq] at hw
      simp [hw]

theorem exists_plain (hu : Syntax.Unambiguous ops) (hb : ops.Bounded) {a : Expr}
    {xs : List (Link × Expr)} (ha : a.IsOperand ∧ a.Plain ops)
    (hx : ∀ x ∈ xs, Syntax.Joint ops x.1 ∧ x.2.IsOperand ∧ x.2.Plain ops) :
    ∃ e : Expr, e.Plain ops ∧ e.tokens = a.tokens ++ linkTokens xs ∧
      e.tree = shuntingYard ops Tree.join a.tree (xs.map fun x => (x.1, x.2.tree)) := by
  obtain ⟨e, he⟩ : ∃ e, shuntingYard ops Expr.join a xs = e := ⟨_, rfl⟩
  have hs : e.spine = (a, xs) := by
    rw [← he]
    apply ShuntingYard.spine_shuntingYard ha.1
    intro x h
    exact (hx x h).2.1
  have har : e.Arranged ops := by
    rw [← he]
    apply ShuntingYard.shuntingYard_arranged ha.1
    intro x h
    exact ⟨(hx x h).2.1, Option.isSome_iff_exists.mp (hx x h).1.operator⟩
  have htree : e.tree = shuntingYard ops Tree.join a.tree (xs.map fun x => (x.1, x.2.tree)) := by
    rw [← he, ShuntingYard.map_shuntingYard Expr.tree_join]
  have hclean : e.Clean := by
    apply clean_of_spine
    · rw [hs]
      exact ha.2.clean
    · rw [hs]
      intro x h
      exact (hx x h).2.2.clean
  have hfits : ∀ rest : Stream, rest.next.kind ≠ .leftParen → e.Fits ops rest := by
    intro rest hn
    apply har.fits hu hb _ _ hn
    · rw [hs]
      exact ha.2
    · rw [hs]
      intro x h
      exact ⟨(hx x h).1, (hx x h).2.2⟩
  refine ⟨e, ⟨hclean, hfits⟩, ?_, htree⟩
  rw [← e.tokens_spine, hs]

end Expr

namespace Phrase

def ofExpr (e : Expr) (trivia : List Token) : Phrase :=
  .mk [] e (Stream.blank trivia) [] (Stream.pastBlank trivia)

variable {e : Expr} {trivia : List Token} {p : Phrase} {ps : List Phrase} {rest : Stream}

theorem tokens_ofExpr : (ofExpr e trivia).tokens = e.tokens ++ trivia := by
  simp [ofExpr, tokens, Stream.blank_append_pastBlank]

theorem fits_ofExpr (hu : Syntax.Unambiguous ops) (he : e.Plain ops)
    (ht : ∀ t ∈ trivia, t.isTrivia) (hc : rest.next.canFollow inCall)
    (hn : ¬ rest.next.isTrivia) : (ofExpr e trivia).Fits ops inCall rest := by
  have hs : Stream.blank trivia ++ ([] ++ (Stream.pastBlank trivia ++ rest)) = trivia ++ rest := by
    rw [List.nil_append, ← List.append_assoc, Stream.blank_append_pastBlank]
  refine ⟨by simp, ?_, ?_, Stream.recovers_trivia ht hc hn⟩
  · rw [hs]
    exact he.fits _ (Stream.next_kind_ne_leftParen (Stream.canFollow_next_append ht hc))
  · rw [hs]
    intro op hop
    exact absurd (Stream.canFollow_next_pastGap ht hc hn) (hu.not_canFollow (by simp [hop]))

/-- Phrases without errors and without trivia at their front, to be followed by anything that may
stand there. -/
structure AllPlain (ops : Operators) (inCall : Bool) (ps : List Phrase) : Prop where
  leading : ∀ p ∈ ps, p.leading = []
  clean : ∀ p ∈ ps, p.Clean
  fits : ∀ rest : Stream, rest.next.canFollow inCall → ¬ rest.next.isTrivia →
    AllFit ops inCall ps rest

theorem allPlain_nil : AllPlain ops inCall [] :=
  ⟨by simp, by simp, fun _ _ _ => trivial⟩

theorem AllPlain.next (h : AllPlain ops inCall ps) (hc : rest.next.canFollow inCall)
    (hn : ¬ rest.next.isTrivia) : (Stream.next (ps.flatMap tokens ++ rest)).canFollow inCall ∧
      ¬ (Stream.next (ps.flatMap tokens ++ rest)).isTrivia := by
  cases ps with
  | nil => exact ⟨hc, hn⟩
  | cons p ps =>
    have hp := (h.fits rest hc hn).1
    obtain ⟨t, ts, ht, hk⟩ := hp.exists_tokens (h.leading p List.mem_cons_self)
    rw [List.flatMap_cons, ht]
    simp [Token.canFollow, Token.isTrivia, hk, Kind.isTrivia]

theorem AllPlain.cons (hu : Syntax.Unambiguous ops) (he : e.Plain ops)
    (ht : ∀ t ∈ trivia, t.isTrivia) (h : AllPlain ops inCall ps) :
    AllPlain ops inCall (ofExpr e trivia :: ps) where
  leading := List.forall_mem_cons.mpr ⟨rfl, h.leading⟩
  clean := List.forall_mem_cons.mpr ⟨⟨he.clean, rfl⟩, h.clean⟩
  fits rest hc hn :=
    ⟨fits_ofExpr hu he ht (h.next hc hn).1 (h.next hc hn).2, h.fits rest hc hn⟩

/-- Plain phrases with the given tokens, but for trivia at the front, and with the given trees. -/
def Made (ops : Operators) (inCall : Bool) (ts : List Token) (us : List Tree) : Prop :=
  ∃ ps, AllPlain ops inCall ps ∧ ps.flatMap tokens = Stream.pastTrivia ts ∧ ps.map tree = us

variable {ts : List Token} {us : List Tree}

theorem Made.trivia_append (h : Made ops inCall ts us) (ht : ∀ t ∈ trivia, t.isTrivia) :
    Made ops inCall (trivia ++ ts) us := by
  obtain ⟨ps, hps, htok, hus⟩ := h
  exact ⟨ps, hps, htok.trans (Stream.pastTrivia_append ht).symm, hus⟩

theorem Made.cons (hu : Syntax.Unambiguous ops) (he : e.Plain ops)
    (h : Made ops inCall ts us) : Made ops inCall (e.tokens ++ ts) (e.tree :: us) := by
  obtain ⟨ps, hps, htok, rfl⟩ := h
  have hn := (he.fits [] (by decide)).next_not_isTrivia ts
  refine ⟨ofExpr e (Stream.trivia ts) :: ps,
    hps.cons hu he fun _ => Stream.isTrivia_of_mem_trivia, ?_, rfl⟩
  rw [List.flatMap_cons, tokens_ofExpr, htok, List.append_assoc, Stream.trivia_append_pastTrivia]
  exact (Stream.cut_trivia (List.forall_mem_nil _) hn).2.symm

def withLeading (leading : List Token) : Phrase → Phrase
  | mk _ core gap junk trailing => mk leading core gap junk trailing

theorem Made.exists_phrases (h : Made ops false ts us) (hne : us ≠ []) :
    ∃ ps, ps.flatMap tokens = ts ∧ AllFit ops false ps [] ∧ (∀ p ∈ ps, p.Clean) ∧
      ps.map tree = us := by
  obtain ⟨ps, hps, htok, rfl⟩ := h
  cases ps with
  | nil => exact (hne rfl).elim
  | cons p ps =>
    obtain ⟨leading, core, gap, junk, trailing⟩ := p
    obtain rfl : leading = [] := hps.leading _ List.mem_cons_self
    obtain ⟨⟨_, hf⟩, hfs⟩ := hps.fits [] rfl (by decide)
    obtain ⟨hc, hcs⟩ := List.forall_mem_cons.mp hps.clean
    refine ⟨withLeading (Stream.trivia ts) (.mk [] core gap junk trailing) :: ps, ?_,
      ⟨⟨fun _ => Stream.isTrivia_of_mem_trivia, hf⟩, hfs⟩,
      List.forall_mem_cons.mpr ⟨hc, hcs⟩, rfl⟩
    have hts := Stream.trivia_append_pastTrivia ts
    rw [← htok] at hts
    simpa [withLeading, tokens] using hts

end Phrase

namespace Args

def ofPhrases (trivia : List Token) (ps : List Phrase) : Args :=
  trivia.foldr .trivia (ps.foldr .phrase .nil)

variable {trivia : List Token} {ps : List Phrase}

theorem tokens_ofPhrases : (ofPhrases trivia ps).tokens = trivia ++ ps.flatMap Phrase.tokens := by
  induction trivia with
  | nil =>
    induction ps with
    | nil => rfl
    | cons p ps ih => exact congrArg (p.tokens ++ ·) ih
  | cons t trivia ih => exact congrArg (t :: ·) ih

theorem trees_ofPhrases : (ofPhrases trivia ps).trees = ps.map Phrase.tree := by
  induction trivia with
  | nil =>
    induction ps with
    | nil => rfl
    | cons p ps ih => exact congrArg (p.tree :: ·) ih
  | cons t trivia ih => exact ih

theorem clean_ofPhrases (h : ∀ p ∈ ps, p.Clean) : (ofPhrases trivia ps).Clean := by
  induction trivia with
  | nil =>
    induction ps with
    | nil => trivial
    | cons p ps ih =>
      obtain ⟨hp, hps⟩ := List.forall_mem_cons.mp h
      exact ⟨hp, ih hps⟩
  | cons t trivia ih => exact ih

theorem fits_ofPhrases {rest : Stream} (ht : ∀ t ∈ trivia, t.isTrivia)
    (hl : ∀ p ∈ ps, p.leading = []) (hf : Phrase.AllFit ops true ps rest)
    (hr : rest.next.kind = .rightParen) : (ofPhrases trivia ps).Fits ops rest := by
  induction trivia with
  | nil =>
    induction ps with
    | nil => exact .inr hr
    | cons p ps ih =>
      obtain ⟨hp, hps⟩ := List.forall_mem_cons.mp hl
      refine ⟨hp, ?_, ih hps hf.2⟩
      have htok : (ofPhrases [] ps).tokens = ps.flatMap Phrase.tokens := tokens_ofPhrases
      exact htok ▸ hf.1
  | cons t trivia ih =>
    obtain ⟨ht, hts⟩ := List.forall_mem_cons.mp ht
    exact ⟨ht, ih hts⟩

end Args

namespace Syntax

variable {ts : List Token} {u : Tree} {us : List Tree} {vs : List (Link × Tree)}

mutual

theorem Item.exists_expr (hu : Unambiguous ops) (hb : ops.Bounded) :
    ∀ {ts : List Token} {u : Tree}, Item ops ts u →
      ∃ e : Expr, (e.IsOperand ∧ e.Plain ops) ∧ e.tokens = ts ∧ e.tree = u
  | _, _, @Item.name _ ident hi =>
    ⟨.name ident, ⟨trivial, trivial, fun _ hn => ⟨hi, hn⟩⟩, rfl, rfl⟩
  | _, _, @Item.call _ callee opening closing ts us hc ho hr ha => by
    obtain ⟨ps, hps, htok, rfl⟩ := Arguments.made hu hb ha
    have htr : ∀ t ∈ Stream.trivia ts, t.isTrivia := fun _ => Stream.isTrivia_of_mem_trivia
    refine ⟨.call callee opening (.ofPhrases (Stream.trivia ts) ps) closing, ⟨trivial,
      Args.clean_ofPhrases hps.clean, fun rest _ => ⟨hc, ho, hr, ?_⟩⟩, ?_, ?_⟩
    · refine Args.fits_ofPhrases htr hps.leading (hps.fits _ ?_ ?_) hr
      · simp [Token.canFollow, hr]
      · simp [Token.isTrivia, hr, Kind.isTrivia]
    · rw [Expr.tokens, Args.tokens_ofPhrases, htok, Stream.trivia_append_pastTrivia]
    · rw [Expr.tree, Args.trees_ofPhrases]

theorem Chain.exists_operands (hu : Unambiguous ops) (hb : ops.Bounded) :
    ∀ {ts : List Token} {u : Tree} {vs : List (Link × Tree)}, Chain ops ts u vs →
      ∃ (a : Expr) (xs : List (Link × Expr)), (a.IsOperand ∧ a.Plain ops) ∧
        (∀ x ∈ xs, Joint ops x.1 ∧ x.2.IsOperand ∧ x.2.Plain ops) ∧
        a.tokens ++ Expr.linkTokens xs = ts ∧ a.tree = u ∧ (xs.map fun x => (x.1, x.2.tree)) = vs
  | _, _, _, .item hi => by
    obtain ⟨a, ha, rfl, rfl⟩ := Item.exists_expr hu hb hi
    exact ⟨a, [], ha, by simp, List.append_nil _, rfl, rfl⟩
  | _, _, _, .link (k := k) hi hk hc => by
    obtain ⟨a, ha, rfl, rfl⟩ := Item.exists_expr hu hb hi
    obtain ⟨b, xs, hop, hx, rfl, rfl, rfl⟩ := Chain.exists_operands hu hb hc
    refine ⟨a, (k, b) :: xs, ha, List.forall_mem_cons.mpr ⟨⟨hk, hop⟩, hx⟩, ?_, rfl, rfl⟩
    simp [Expr.linkTokens]

theorem Arguments.made (hu : Unambiguous ops) (hb : ops.Bounded) :
    ∀ {ts : List Token} {us : List Tree}, Arguments ops ts us → Phrase.Made ops true ts us
  | _, _, .nil => ⟨[], Phrase.allPlain_nil, rfl, rfl⟩
  | _, _, .trivia ht ha =>
    (Arguments.made hu hb ha).trivia_append (List.forall_mem_singleton.mpr ht)
  | _, _, .chain hc ha => by
    obtain ⟨a, xs, hop, hx, rfl, rfl, rfl⟩ := Chain.exists_operands hu hb hc
    obtain ⟨e, he, htok, htree⟩ := Expr.exists_plain hu hb hop hx
    rw [← htok, ← htree]
    exact (Arguments.made hu hb ha).cons hu he

end

theorem Chain.exists_expr (hu : Unambiguous ops) (hb : ops.Bounded) (h : Chain ops ts u vs) :
    ∃ e : Expr, e.Plain ops ∧ e.tokens = ts ∧ e.tree = shuntingYard ops Tree.join u vs := by
  obtain ⟨a, xs, hop, hx, rfl, rfl, rfl⟩ := h.exists_operands hu hb
  exact Expr.exists_plain hu hb hop hx

theorem Program.made (hu : Unambiguous ops) (hb : ops.Bounded) (h : Program ops ts us) :
    Phrase.Made ops false ts us := by
  induction h with
  | last hl hc htr =>
    obtain ⟨e, he, rfl, htree⟩ := hc.exists_expr hu hb
    have hnil : Phrase.Made ops false [] [] := ⟨[], Phrase.allPlain_nil, rfl, rfl⟩
    have hm := ((hnil.trivia_append htr).cons hu he).trivia_append hl
    rwa [List.append_nil, htree] at hm
  | cons hl hc _ ih =>
    obtain ⟨e, he, rfl, htree⟩ := hc.exists_expr hu hb
    rw [← htree]
    exact (ih.cons hu he).trivia_append hl

theorem Program.ne_nil (h : Program ops ts us) : us ≠ [] := by
  cases h <;> exact List.cons_ne_nil _ _

end Syntax

end Verbatim
