import Verbatim.Proofs.Lines.Physical

/-! # Where quoted texts and comments end

A quoted text should end at its closing quote and a comment at the end of its line, and otherwise
only where the text ends. The character NUL ends them as well, and nothing else does: so all of them
end where they should unless a NUL stands right behind one that could have gone on.
-/

namespace Verbatim

open Token (Kind)

namespace Lexeme

/-- Whether a character behind `cs` is escaped: a backslash that is not escaped itself stands right
before it. -/
def escapedAfter (cs : List Char) : Bool :=
  cs.foldl (fun escaped c => !escaped && c == '\x5c') false

variable {quote : Char} {us body cs : List Char}

theorem escapedAfter_cons {c : Char} (h : c ≠ '\x5c') (cs : List Char) :
    escapedAfter (c :: cs) = escapedAfter cs := by
  have hb : (c == '\x5c') = false := by simpa using h
  simp [escapedAfter, hb]

theorem escapedAfter_pair (c : Char) (cs : List Char) :
    escapedAfter ('\x5c' :: c :: cs) = escapedAfter cs := by
  simp [escapedAfter]

theorem Units.escapedAfter_eq (h : Units quote us) : escapedAfter us = false := by
  induction h with
  | nil => rfl
  | plain _ hb _ _ ih => rw [escapedAfter_cons hb, ih]
  | escaped _ _ ih => rw [escapedAfter_pair, ih]

theorem Units.escapedAfter_of_concat (hq : quote ≠ '\x5c') (h : Units quote (body ++ [quote])) :
    escapedAfter body = true := by
  generalize hu : body ++ [quote] = us at h
  induction h generalizing body with
  | nil => simp at hu
  | plain hc hb _ _ ih =>
    cases body with
    | nil => exact (hc (List.cons.inj hu).1.symm).elim
    | cons d body =>
      obtain ⟨rfl, hcs⟩ := List.cons.inj hu
      rw [escapedAfter_cons hb, ih hcs]
  | escaped _ _ ih =>
    rcases body with _ | ⟨d, _ | ⟨e, body⟩⟩
    · exact (hq (List.cons.inj hu).1).elim
    · obtain ⟨rfl, -⟩ := List.cons.inj hu
      rfl
    · obtain ⟨rfl, hcs⟩ := List.cons.inj hu
      rw [escapedAfter_pair, ih (List.cons.inj hcs).2]

theorem closed_iff (hq : quote ≠ '\x5c') (h : Closed quote cs ∨ Open quote cs) :
    Closed quote cs ↔ ∃ body, cs = quote :: (body ++ [quote]) ∧ escapedAfter body = false := by
  constructor
  · rintro ⟨us, hu, rfl⟩
    exact ⟨us, rfl, hu.escapedAfter_eq⟩
  · rintro ⟨body, rfl, hbody⟩
    rcases h with h | ⟨us, hu, he | he⟩
    · exact h
    · obtain rfl := (List.cons.inj he).2
      rw [hu.escapedAfter_of_concat hq] at hbody
      cases hbody
    · have hl := (List.append_inj' (List.cons.inj he).2 rfl).2
      exact (hq (List.cons.inj hl).1).elim

end Lexeme

open Lexeme (escapedAfter)

namespace Token

def nul : Kind × String :=
  (.unrecognized, "\x00")

def IsClosed (t : Token) : Prop :=
  ∃ quote body, t.sourceText.toList = quote :: (body ++ [quote]) ∧ escapedAfter body = false

def GoesOn (t : Token) : Prop :=
  t.kind = .lineComment ∨ t.isQuoted ∧ ¬ t.IsClosed

/-- Quoted texts end with their closing quote and comments before the end of a line, if not with the
last token. -/
structure Terminated (ts : List Token) : Prop where
  quoted : ∀ front t back, ts = front ++ t :: back → t.isQuoted → t.IsClosed ∨ back = []
  comment : ∀ front t back, ts = front ++ t :: back → t.kind = .lineComment →
    (∃ u more, back = u :: more ∧ u.kind = .newline) ∨ back = []

end Token

section Tokenized

variable {source : String} {front back : List Token} {t u : Token}

theorem adjacent_of_tokenize (h : tokenize source = front ++ t :: u :: back) :
    Lexeme.Adjacent t.lexeme u.lexeme := by
  have hc := (Cursor.lexemes_tokens_eq_iff (c := Cursor.ofString source)).mp rfl
  have ha := hc.1.adjacent
  rw [show (Cursor.ofString source).tokens = front ++ t :: u :: back from h, List.map_append,
    List.map_cons, List.map_cons] at ha
  exact (List.isChain_append_cons_cons.mp ha).2.1

theorem mem_toList_of_lexeme_nul (h : u ∈ tokenize source) (hu : u.lexeme = Token.nul) :
    Lexeme.nul ∈ source.toList := by
  rw [← detokenize_tokenize source]
  refine Token.mem_toList_detokenize_iff.mpr ⟨u, h, ?_⟩
  rw [show u.sourceText = "\x00" from congrArg Prod.snd hu]
  decide

theorem open_of_not_isClosed {quote : Char} (hq : quote ≠ '\x5c')
    (hs : Lexeme.Closed quote t.sourceText.toList ∨ Lexeme.Open quote t.sourceText.toList)
    (h : ¬ t.IsClosed) : Lexeme.Open quote t.sourceText.toList := by
  refine hs.resolve_left fun hc => h ?_
  obtain ⟨body, hbody, he⟩ := (Lexeme.closed_iff hq hs).mp hc
  exact ⟨quote, body, hbody, he⟩

/-- What stands behind a token that could have gone on ends the line of a comment or is NUL. -/
theorem newline_or_nul_of_goesOn (h : tokenize source = front ++ t :: u :: back) (ht : t.GoesOn) :
    (t.kind = .lineComment ∧ u.kind = .newline) ∨ u.lexeme = Token.nul := by
  have ha := adjacent_of_tokenize h
  have hs := spells_of_mem_tokenize (show t ∈ tokenize source by simp [h])
  unfold Token.lexeme Lexeme.Adjacent at ha
  rcases ht with hk | ⟨hq, hc⟩
  · rw [hk] at ha
    exact ha.imp_left fun hn => ⟨hk, hn⟩
  · have hk : t.kind = .singleQuoted ∨ t.kind = .doubleQuoted := by
      simpa [Token.isQuoted] using hq
    right
    rcases hk with hk | hk
    all_goals
      rw [hk] at ha hs
      exact ha (open_of_not_isClosed (by decide) hs hc)

theorem Token.Terminated.lexeme_ne_nul {ts : List Token} (h : Terminated ts)
    (he : ts = front ++ t :: u :: back) (ht : t.GoesOn) : u.lexeme ≠ nul := by
  intro hu
  rcases ht with hk | ⟨hq, hc⟩
  · obtain ⟨_, _, hb, hn⟩ := (h.comment _ _ _ he hk).resolve_right (List.cons_ne_nil _ _)
    obtain ⟨rfl, -⟩ := List.cons.inj hb
    exact absurd (hn.symm.trans (congrArg Prod.fst hu)) (by decide)
  · exact hc ((h.quoted _ _ _ he hq).resolve_right (List.cons_ne_nil _ _))

theorem terminated_of_lexeme_ne_nul (h : ∀ front t u back,
    tokenize source = front ++ t :: u :: back → t.GoesOn → u.lexeme ≠ Token.nul) :
    Token.Terminated (tokenize source) := by
  refine ⟨fun front t back he hq => ?_, fun front t back he hk => ?_⟩
  · cases back with
    | nil => exact .inr rfl
    | cons u back =>
      by_contra hc
      have ht : t.GoesOn := .inr ⟨hq, fun hcl => hc (.inl hcl)⟩
      have hn := (newline_or_nul_of_goesOn he ht).resolve_right (h _ _ _ _ he ht)
      simp [Token.isQuoted, hn.1] at hq
  · cases back with
    | nil => exact .inr rfl
    | cons u back =>
      have ht : t.GoesOn := .inl hk
      have hn := (newline_or_nul_of_goesOn he ht).resolve_right (h _ _ _ _ he ht)
      exact .inl ⟨u, back, rfl, hn.2⟩

/-- Quoted texts and comments end where they should unless there is one with a NUL right behind it.
Nothing but NUL ends them elsewhere, so that without it they all end where they should. -/
theorem terminated_tokenize_iff (source : String) :
    (Token.Terminated (tokenize source) ↔ ∀ front t u back,
      tokenize source = front ++ t :: u :: back → t.GoesOn → u.lexeme ≠ Token.nul) ∧
    (∀ front t u back, tokenize source = front ++ t :: u :: back → t.GoesOn →
      (t.kind = .lineComment ∧ u.kind = .newline) ∨ u.lexeme = Token.nul) ∧
    (Lexeme.nul ∉ source.toList → Token.Terminated (tokenize source)) := by
  refine ⟨⟨fun h _ _ _ _ he ht => h.lexeme_ne_nul he ht, terminated_of_lexeme_ne_nul⟩,
    fun _ _ _ _ he ht => newline_or_nul_of_goesOn he ht, fun hsource => ?_⟩
  refine terminated_of_lexeme_ne_nul fun front t u back he _ hu => hsource ?_
  exact mem_toList_of_lexeme_nul (by simp [he]) hu

/-- A text that breaks off after an escaped quote; and one in which a NUL, written as such and not
escaped, ends a quoted text whose closing quote then opens another. -/
theorem terminated_tokenize_iff_nul :
    (Lexeme.nul ∉ "// c\n'\\'".toList ∧ Token.Terminated (tokenize "// c\n'\\'")) ∧
    ∃ front t u back, tokenize "'a\x00b'" = front ++ t :: u :: back ∧ t.GoesOn ∧
      u.lexeme = Token.nul ∧ ¬ Token.Terminated (tokenize "'a\x00b'") := by
  let broken : Token := ⟨.singleQuoted, ⟨0, 2⟩, 0, 1, 0, some "'a"⟩
  let mark : Token := ⟨.unrecognized, ⟨2, 3⟩, 0, 3, 0, some "\x00"⟩
  have hnul : Lexeme.nul ∉ "// c\n'\\'".toList := by decide
  have hts : tokenize "'a\x00b'" = [] ++ broken :: mark :: (tokenize "'a\x00b'").drop 2 := by
    decide +kernel
  obtain ⟨hiff, hbehind, -⟩ := terminated_tokenize_iff "'a\x00b'"
  have hgoes : broken.GoesOn := by
    refine .inr ⟨rfl, ?_⟩
    rintro ⟨quote, body, he, -⟩
    have htext : broken.sourceText.toList = ['\x27', 'a'] := by decide
    obtain ⟨rfl, he⟩ := List.cons.inj (htext.symm.trans he)
    cases body <;> simp at he
  have hu : mark.lexeme = Token.nul :=
    (hbehind _ _ _ _ hts hgoes).resolve_left (by decide)
  refine ⟨⟨hnul, (terminated_tokenize_iff _).2.2 hnul⟩, [], broken, mark, _, hts, hgoes, hu, ?_⟩
  exact fun h => hiff.mp h _ _ _ _ hts hgoes hu

end Tokenized

end Verbatim
