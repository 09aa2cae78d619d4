import Verbatim.Proofs.Block.Parse
import Verbatim.Proofs.Reading.Ahead
import Verbatim.Proofs.Syntax.Sound

/-! # Junk after a program

Tokens that cannot follow an expression are added to the text of a program. The last phrase skips
them up to the first whitespace among them; what stands after this whitespace starts no expression,
so a second run of such tokens ends the parse.
-/

namespace Verbatim

open Token (Kind Stream)

namespace Token

/-- Whitespace and the kinds that neither start nor follow an expression outside of a call. -/
def junkKinds : List Kind :=
  [.whitespace, .leftBracket, .rightBracket, .rightParen, .singleQuoted, .doubleQuoted, .slash,
    .unrecognized]

variable {t : Token}

theorem canFollow_of_mem_junkKinds (h : t.kind ∈ junkKinds) :
    t.canFollow false = t.isWhitespace := by
  unfold canFollow isWhitespace
  generalize t.kind = kind at h ⊢
  revert kind
  decide

theorem isTrivia_of_mem_junkKinds (h : t.kind ∈ junkKinds) : t.isTrivia = t.isWhitespace := by
  unfold isTrivia isWhitespace
  generalize t.kind = kind at h ⊢
  revert kind
  decide

theorem ne_of_mem_junkKinds (h : t.kind ∈ junkKinds) :
    t.kind ≠ .identifier ∧ t.kind ≠ .leftParen := by
  generalize t.kind = kind at h ⊢
  revert kind
  decide

namespace Stream

/-- What follows the first run of tokens other than whitespace, and the whitespace after it. -/
def pastRun (s : Stream) : Stream :=
  Stream.pastGap (s.pastGap.dropWhile fun t => !t.isWhitespace)

variable {s : Stream}

theorem takeWhile_congr {p q : Token → Bool} (h : ∀ t ∈ s, p t = q t) :
    s.takeWhile p = s.takeWhile q ∧ s.dropWhile p = s.dropWhile q := by
  induction s with
  | nil => exact ⟨rfl, rfl⟩
  | cons t s ih =>
    obtain ⟨ht, hs⟩ := List.forall_mem_cons.mp h
    obtain ⟨iht, ihd⟩ := ih hs
    simp only [List.takeWhile_cons, List.dropWhile_cons, ht, iht, ihd, and_self]

/-- No two whitespace tokens stand side by side. -/
def Spaced (s : Stream) : Prop :=
  s.IsChain fun t u => ¬ (t.isWhitespace ∧ u.isWhitespace)

theorem Spaced.pastBlank_eq (h : s.Spaced) : s.pastBlank = s.pastGap := by
  cases s with
  | nil => rfl
  | cons t s =>
    by_cases ht : t.isWhitespace
    · have hb : Stream.pastBlank (t :: s) = s := by simp [pastBlank, blank, ht]
      rw [hb, pastGap_cons ht]
      cases s with
      | nil => rfl
      | cons u s =>
        have hu : ¬ u.isWhitespace := by
          intro hu
          exact (List.isChain_cons_cons.mp h).1 ⟨ht, hu⟩
        exact (pastGap_cons_of_not hu s).symm
    · have hb : Stream.pastBlank (t :: s) = t :: s := by simp [pastBlank, blank, ht]
      rw [hb, pastGap_cons_of_not ht]

theorem pastTrivia_pastJunk_eq (hk : ∀ t ∈ s, t.kind ∈ junkKinds) (h : s.Spaced) :
    Stream.pastTrivia (s.pastBlank.pastJunk false) = s.pastRun := by
  have hgap : s.pastGap <:+ s := List.dropWhile_suffix _
  have hj : s.pastGap.pastJunk false = s.pastGap.dropWhile fun t => !t.isWhitespace := by
    apply (takeWhile_congr ?_).2
    intro t ht
    rw [canFollow_of_mem_junkKinds (hk t (hgap.mem ht))]
  rw [h.pastBlank_eq, hj]
  have hrun : s.pastGap.dropWhile (fun t => !t.isWhitespace) <:+ s :=
    (List.dropWhile_suffix _).trans hgap
  apply (takeWhile_congr ?_).2
  intro t ht
  exact isTrivia_of_mem_junkKinds (hk t (hrun.mem ht))

/-- Of junk with more than whitespace something is skipped, first its first token. -/
theorem junkError_eq (hk : ∀ t ∈ s, t.kind ∈ junkKinds) (h : s.Spaced)
    (hne : ∃ t ∈ s, ¬ t.isWhitespace) : junkError (s.pastBlank.junk false) =
      some ("unexpected token: " ++ s.pastGap.next.sourceText) := by
  rw [h.pastBlank_eq]
  cases hp : s.pastGap with
  | nil =>
    obtain ⟨t, ht, hw⟩ := hne
    exact absurd (List.dropWhile_eq_nil_iff.mp hp t ht) hw
  | cons t rest =>
    have hw : ¬ t.isWhitespace := not_isWhitespace_of_pastGap_eq hp
    have hm : t ∈ s := (List.dropWhile_suffix _).mem (hp ▸ List.mem_cons_self)
    have ht : Stream.junk false (t :: rest) = t :: Stream.junk false rest :=
      List.takeWhile_cons_of_pos (by simpa [canFollow_of_mem_junkKinds (hk t hm)] using hw)
    rw [ht]
    rfl

theorem next_ne_leftParen (hk : ∀ t ∈ s, t.kind ∈ junkKinds) : s.next.kind ≠ .leftParen := by
  cases s with
  | nil => decide
  | cons t s => exact (ne_of_mem_junkKinds (hk t List.mem_cons_self)).2

theorem mem_of_pastRun_eq_cons {rest : Stream} (h : s.pastRun = t :: rest) :
    t ∈ s ∧ ¬ t.isWhitespace := by
  have hsuf : s.pastRun <:+ s :=
    (List.dropWhile_suffix _).trans ((List.dropWhile_suffix _).trans (List.dropWhile_suffix _))
  exact ⟨hsuf.mem (h ▸ List.mem_cons_self), not_isWhitespace_of_pastGap_eq h⟩

end Stream

end Token

namespace Phrase

def skipping (s : Stream) : Phrase → Phrase
  | mk leading core _ _ _ => mk leading core s.blank (s.pastBlank.junk false)
      (Stream.trivia (s.pastBlank.pastJunk false))

variable {p : Phrase} {ps : List Phrase} {s leading : Stream} {core : Expr} {ops : Operators}

theorem tokens_skipping : (skipping s (mk leading core [] [] [])).tokens ++
      Stream.pastTrivia (s.pastBlank.pastJunk false) = leading ++ (core.tokens ++ s) := by
  obtain ⟨_, hs⟩ := s.recovers_self false
  rw [skipping, tokens_mk_append, ← hs]

theorem deepest_skipping (n : Nat) : (skipping s p).deepest n = p.deepest n := by
  cases p
  rfl

theorem AllFit.skipping (h : AllFit ops false (ps ++ [mk leading core [] [] []]) [])
    (hs : ops.StopsAt 0 s) (hn : s.next.kind ≠ .leftParen) :
    AllFit ops false (ps ++ [skipping s (mk leading core [] [] [])])
      (Stream.pastTrivia (s.pastBlank.pastJunk false)) := by
  obtain ⟨hps, ⟨hl, hc, _, _⟩, _⟩ := allFit_append.mp h
  obtain ⟨hr, he⟩ := s.recovers_self false
  have hf : core.Fits ops s := by
    apply hc.of_next
    intro hk
    exact absurd hk hn
  rw [he] at hf hs
  refine allFit_append.mpr ⟨?_, ⟨hl, hf, hs, hr⟩, trivial⟩
  obtain ⟨t, ts, ht, _⟩ := hc.exists_tokens
  obtain ⟨u, us, hu⟩ := Stream.exists_cons_append leading t
  rw [List.flatMap_singleton, tokens_skipping, ht, List.cons_append, hu]
  rw [List.flatMap_singleton, tokens_mk_append, ht, List.cons_append, hu] at hps
  exact hps.of_cons _

/-- What follows a program that ends with an expression is skipped by its last phrase as far as it
goes, and read on from there. -/
theorem program_skipping {g : Grammar}
    (hf : AllFit g.operators false (ps ++ [mk leading core [] [] []]) [])
    (ha : ∀ p ∈ ps ++ [mk leading core [] [] []], g.Allows (p.deepest 0))
    (hs : g.operators.StopsAt 0 s) (hn : s.next.kind ≠ .leftParen) :
    g.program ((ps ++ [mk leading core [] [] []]).flatMap tokens ++ s) =
      (g.program (Stream.pastTrivia (s.pastBlank.pastJunk false))).map
        (ps ++ [skipping s (mk leading core [] [] [])] ++ ·) := by
  have hd : ∀ p ∈ ps ++ [skipping s (mk leading core [] [] [])], g.Allows (p.deepest 0) := by
    obtain ⟨hps, hp⟩ := List.forall_mem_append.mp ha
    refine List.forall_mem_append.mpr ⟨hps, List.forall_mem_singleton.mpr ?_⟩
    rw [deepest_skipping]
    exact hp _ List.mem_cons_self
  rw [← Grammar.program_append (hf.skipping hs hn) hd]
  simp only [List.flatMap_append, List.flatMap_singleton, List.append_assoc, tokens_skipping]
  simp [tokens]

theorem terms_skipping (n : Nat) (h : Stream.pastTrivia (s.pastBlank.pastJunk false) = []) :
    let p := mk leading core [] [] []
    ((skipping s p).terms n).1 = (p.terms n).1 ∧
      ((skipping s p).terms n).2 = { (p.terms n).2 with
        text := (p.terms n).2.text ++ detokenize s
        error := junkError (s.pastBlank.junk false) } := by
  obtain ⟨_, hs⟩ := s.recovers_self false
  rw [h, List.append_nil, ← List.append_assoc] at hs
  refine ⟨rfl, ?_⟩
  simp only [skipping, terms, ← hs, detokenize_append, detokenize_nil, String.append_empty,
    String.append_assoc]

theorem exists_last {g : Grammar} {tokens : List Token} (hps : g.program tokens = .ok ps)
    (hc : ∀ p ∈ ps, p.Clean) (hne : tokens ≠ []) (hlast : ∀ t ∈ tokens.getLast?, ¬ t.isTrivia) :
    ∃ qs leading core, ps = qs ++ [mk leading core [] [] []] := by
  obtain ⟨rfl, hf, -⟩ := Grammar.program_eq_ok_iff.mp hps
  rcases List.eq_nil_or_concat' ps with rfl | ⟨qs, ⟨leading, core, gap, junk, trailing⟩, rfl⟩
  · exact (hne rfl).elim
  · have hp : (mk leading core gap junk trailing).Clean := hc _ (by simp)
    obtain rfl : junk = [] := hp.2
    have ht := (allFit_append.mp hf).2.1.trivia
    have hnil : gap ++ trailing = [] := by
      rcases List.eq_nil_or_concat' (gap ++ trailing) with h | ⟨front, t, h⟩
      · exact h
      · have htok : (qs ++ [mk leading core gap [] trailing]).flatMap tokens =
            qs.flatMap tokens ++ leading ++ core.tokens ++ front ++ [t] := by
          simp [tokens, ← h]
        refine absurd (ht t (by simp [h])) (hlast t ?_)
        rw [htok]
        exact List.getLast?_concat
    obtain ⟨rfl, rfl⟩ := List.append_eq_nil_iff.mp hnil
    exact ⟨qs, leading, core, rfl⟩

end Phrase

namespace Block

variable {ps : List Phrase}

/-- A block whose last root takes up junk: its text grows, and its error names the first token of
the junk that is not whitespace. -/
def TakesUp (b : Block) (junk : List Token) (b' : Block) : Prop :=
  ∃ terms last, b = terms ++ [last] ∧ b.roots.getLast? = some last ∧
    ∃ last', last' = { last with
        text := last.text ++ detokenize junk,
        error := some ("unexpected token: " ++ (Stream.pastGap junk).next.sourceText) } ∧
      b' = terms ++ [last'] ∧ b'.roots.getLast? = some last'

theorem takesUp_skipping {s leading : Stream} {core : Expr}
    (h : Stream.pastTrivia (s.pastBlank.pastJunk false) = [])
    (hj : junkError (s.pastBlank.junk false) =
      some ("unexpected token: " ++ s.pastGap.next.sourceText)) :
    (ofPhrases 0 (ps ++ [.mk leading core [] [] []])).TakesUp s
      (ofPhrases 0 (ps ++ [.skipping s (.mk leading core [] [] [])])) := by
  obtain ⟨hbelow, hlast⟩ := Phrase.terms_skipping (0 + (ofPhrases 0 ps).length) h
  rw [hj] at hlast
  refine ⟨_, _, ofPhrases_concat, getLast?_roots_concat, _, hlast, ?_, getLast?_roots_concat⟩
  rw [ofPhrases_concat, hbelow]

/-- Junk with more than whitespace, added to a program without errors that no trivia ends: the last
root takes it up if it is one run of tokens with at most whitespace around it. Otherwise the parse
fails at the first token of the second run. -/
theorem takesUp_iff_pastRun_eq_nil {tokens junk : List Token} {b : Block} (hne : tokens ≠ [])
    (hlast : ∀ t ∈ tokens.getLast?, ¬ t.isTrivia) (hb : parse {} tokens = .ok b)
    (he : b.errors = []) (hk : ∀ t ∈ junk, t.kind ∈ Token.junkKinds) (hs : Stream.Spaced junk)
    (hj : ∃ t ∈ junk, ¬ t.isWhitespace) :
    ((∃ b', parse {} (tokens ++ junk) = .ok b' ∧ b.TakesUp junk b') ↔
      Stream.pastRun junk = []) ∧
    ∀ t rest, Stream.pastRun junk = t :: rest →
      parse {} (tokens ++ junk) = .error (.noProductionAt t) := by
  obtain ⟨ps, hps, rfl⟩ := parse_eq_ok_iff.mp hb
  obtain ⟨qs, leading, core, rfl⟩ :=
    Phrase.exists_last hps ((errors_ofPhrases 0 ps).mp he) hne hlast
  obtain ⟨rfl, hf, ha⟩ := Grammar.program_eq_ok_iff.mp hps
  have hrest := Stream.pastTrivia_pastJunk_eq hk hs
  have hprog := Phrase.program_skipping hf ha (s := junk) (by intro op hop; cases hop)
    (Stream.next_ne_leftParen hk)
  rw [hrest] at hprog
  have herr : ∀ t rest, Stream.pastRun junk = t :: rest →
      parse {} ((qs ++ [Phrase.mk leading core [] [] []]).flatMap Phrase.tokens ++ junk) =
        .error (.noProductionAt t) := by
    intro t rest hp
    obtain ⟨hm, hw⟩ := Stream.mem_of_pastRun_eq_cons hp
    have hi : ¬ t.isTrivia := by rwa [Token.isTrivia_of_mem_junkKinds (hk t hm)]
    have ha : Grammar.Allows {} 1 := Grammar.allows_maxDepth_iff.mpr (by decide)
    rw [parse, hprog, hp, Grammar.program_of_no_name ha hi (Token.ne_of_mem_junkKinds (hk t hm)).1]
    rfl
  refine ⟨⟨?_, ?_⟩, herr⟩
  · rintro ⟨b', hb', -⟩
    cases hp : Stream.pastRun junk with
    | nil => rfl
    | cons t rest =>
      rw [herr t rest hp] at hb'
      cases hb'
  · intro hp
    rw [hp] at hprog hrest
    refine ⟨_, parse_eq_ok_iff.mpr ⟨_, hprog.trans ?_, rfl⟩,
      takesUp_skipping hrest (Stream.junkError_eq hk hs hj)⟩
    rw [Grammar.program]
    exact congrArg Except.ok (List.append_nil _)

/-- One run of brackets and a string is taken up, a second run after whitespace is not. -/
theorem takesUp_iff_pastRun_eq_nil_brackets :
    let tokens := tokenize "f(a) b"
    ∃ b, parse {} tokens = .ok b ∧
      (∃ b', parse {} (tokens ++ tokenize " ]['x' ") = .ok b' ∧
        b.TakesUp (tokenize " ]['x' ") b') ∧
      ∃ t ∈ tokenize "[ ]", parse {} (tokens ++ tokenize "[ ]") = .error (.noProductionAt t) := by
  intro tokens
  obtain ⟨b, hb, he⟩ := exists_of_any (x := parse {} tokens)
    (p := fun b => b.errors.isEmpty) (by decide +kernel)
  have hne : tokens ≠ [] := by decide +kernel
  have hlast : ∀ t ∈ tokens.getLast?, ¬ t.isTrivia := by decide +kernel
  have he := List.isEmpty_iff.mp he
  refine ⟨b, hb, ?_, ?_⟩
  · have hk : ∀ t ∈ tokenize " ]['x' ", t.kind ∈ Token.junkKinds := by decide +kernel
    have hs : Stream.Spaced (tokenize " ]['x' ") := by unfold Stream.Spaced; decide +kernel
    have hj : ∃ t ∈ tokenize " ]['x' ", ¬ t.isWhitespace := by decide +kernel
    exact (takesUp_iff_pastRun_eq_nil hne hlast hb he hk hs hj).1.mpr (by decide +kernel)
  · have hk : ∀ t ∈ tokenize "[ ]", t.kind ∈ Token.junkKinds := by decide +kernel
    have hs : Stream.Spaced (tokenize "[ ]") := by unfold Stream.Spaced; decide +kernel
    have hj : ∃ t ∈ tokenize "[ ]", ¬ t.isWhitespace := by decide +kernel
    have hp : Stream.pastRun (tokenize "[ ]") ≠ [] := by decide +kernel
    obtain ⟨t, rest, ht⟩ := List.exists_cons_of_ne_nil hp
    exact ⟨t, (Stream.mem_of_pastRun_eq_cons ht).1,
      (takesUp_iff_pastRun_eq_nil hne hlast hb he hk hs hj).2 t rest ht⟩

end Block

end Verbatim
