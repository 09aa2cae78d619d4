import Verbatim.Proofs.Lexeme.Lossless
import Verbatim.Proofs.Lexeme.Spelling
import Mathlib.Data.List.Chain

/-! # Canonical sequences of lexemes

What the lexer makes of a text, kinds and source texts, is a sequence in which each lexeme is
spelled as its kind asks and none could go on into the next. These sequences are all that come out,
and each comes out of the text that its lexemes make up.
-/

namespace Verbatim

open Token (Kind)

namespace Lexeme

variable {kind : Kind} {c : Char} {cs rest : List Char}

theorem head_of_spells (h : Spells kind (c :: cs)) :
    (c = ' ' ↔ kind = .whitespace) ∧ (isNameChar c ↔ kind = .identifier) ∧
      (c = '/' ↔ kind = .slash ∨ kind = .lineComment) ∧ (c = '\n' ↔ kind = .newline) ∧
      (c = nul → kind = .unrecognized ∧ cs = []) := by
  have hne {d : Char} (hm : c ∉ starters) (hd : d ∈ starters) : c ≠ d := fun he => hm (he ▸ hd)
  cases kind with
  | leftParen | rightParen | leftBracket | rightBracket | newline | slash =>
    obtain ⟨rfl, rfl⟩ := List.cons.inj h
    decide
  | whitespace =>
    obtain ⟨rfl, -⟩ := List.forall_mem_cons.mp h.2
    exact ⟨by decide, by decide, by decide, by decide, fun h => absurd h (by decide)⟩
  | identifier =>
    have hn := isNameChar_iff.mpr (List.forall_mem_cons.mp h.2).1
    have hm : c ∉ starters := fun hm => not_isNameChar_of_mem_starters c hm hn
    refine ⟨by simp [hne hm (d := ' ') (by decide)], by simp [hn],
      by simp [hne hm (d := '/') (by decide)], by simp [hne hm (d := '\n') (by decide)], ?_⟩
    rintro rfl
    exact absurd hn (by decide)
  | lineComment =>
    obtain ⟨ds, he, -⟩ := h
    obtain ⟨rfl, -⟩ := List.cons.inj he
    exact ⟨by decide, by decide, by decide, by decide, fun h => absurd h (by decide)⟩
  | singleQuoted | doubleQuoted =>
    obtain rfl := eq_of_quoted h
    exact ⟨by decide, by decide, by decide, by decide, fun h => absurd h (by decide)⟩
  | unrecognized =>
    obtain ⟨d, he, hm, hn⟩ := h
    obtain ⟨rfl, rfl⟩ := List.cons.inj he
    refine ⟨by simp [hne hm (d := ' ') (by decide)], by simpa [isNameChar_iff] using hn,
      by simp [hne hm (d := '/') (by decide)], by simp [hne hm (d := '\n') (by decide)], ?_⟩
    exact fun _ => ⟨rfl, rfl⟩
  | endOfStream => cases h

/-- Lexemes that may stand side by side. A comment goes on to the end of its line or to NUL, and a
quoted text that is not closed to NUL. -/
def Adjacent (a b : Kind × String) : Prop :=
  match a.1 with
  | .whitespace => b.1 ≠ .whitespace
  | .identifier => b.1 ≠ .identifier
  | .slash => b.1 ≠ .slash ∧ b.1 ≠ .lineComment
  | .lineComment => b.1 = .newline ∨ b = (.unrecognized, "\x00")
  | .singleQuoted => Open '\x27' a.2.toList → b = (.unrecognized, "\x00")
  | .doubleQuoted => Open '\x22' a.2.toList → b = (.unrecognized, "\x00")
  | _ => True

theorem stops_append_iff {a b : Kind × String} (h : Spells b.1 b.2.toList) :
    Stops a.1 a.2.toList (b.2.toList ++ rest) ↔ Adjacent a b := by
  obtain ⟨ka, a⟩ := a
  obtain ⟨kb, b⟩ := b
  obtain ⟨c, cs, hb⟩ := List.exists_cons_of_ne_nil (ne_nil_of_spells h)
  dsimp only at h hb
  rw [hb] at h
  obtain ⟨hspace, hname, hslash, hline, hnul⟩ := head_of_spells h
  have hend : c = nul ↔ (kb, b) = (Kind.unrecognized, "\x00") := by
    constructor
    · rintro rfl
      obtain ⟨rfl, rfl⟩ := hnul rfl
      rw [← String.ofList_toList (s := b), hb]
      rfl
    · intro he
      obtain ⟨-, rfl⟩ := Prod.mk.inj he
      exact (List.cons.inj hb).1.symm
  cases ka with
  | whitespace => simpa [Stops, Adjacent, hb] using not_congr hspace
  | identifier => simpa [Stops, Adjacent, hb] using not_congr hname
  | slash => simpa [Stops, Adjacent, hb] using not_congr hslash
  | lineComment =>
    have hc : ¬ isCommentChar c ↔ c = '\n' ∨ c = nul := by
      rw [isCommentChar_iff, not_and_or, not_not, not_not]
    simpa [Stops, Adjacent, hb, ← hend, ← hline] using hc
  | singleQuoted | doubleQuoted => simp only [Stops, Adjacent, hb, ← hend]; simp
  | _ => exact Iff.rfl

/-- A sequence of lexemes that a text can be cut into. -/
structure Canonical (ls : List (Kind × String)) : Prop where
  spells : ∀ l ∈ ls, Spells l.1 l.2.toList
  adjacent : ls.IsChain Adjacent

def text (ls : List (Kind × String)) : String :=
  String.join (ls.map (·.2))

theorem toList_text_cons (l : Kind × String) (ls : List (Kind × String)) :
    (text (l :: ls)).toList = l.2.toList ++ (text ls).toList := by
  simp [text]

variable {l : Kind × String} {ls : List (Kind × String)}

theorem stops_text_iff (h : ∀ l ∈ ls, Spells l.1 l.2.toList) :
    Stops l.1 l.2.toList (text ls).toList ↔ ∀ b ∈ ls.head?, Adjacent l b := by
  cases ls with
  | nil => simpa [text] using stops_nil l.1 l.2.toList
  | cons b ls =>
    rw [toList_text_cons, stops_append_iff (h b List.mem_cons_self)]
    simp

theorem canonical_cons_iff : Canonical (l :: ls) ↔ Spells l.1 l.2.toList ∧
    Stops l.1 l.2.toList (text ls).toList ∧ Canonical ls := by
  constructor
  · rintro ⟨hs, ha⟩
    obtain ⟨hl, hls⟩ := List.forall_mem_cons.mp hs
    obtain ⟨hb, ha⟩ := List.isChain_cons.mp ha
    exact ⟨hl, (stops_text_iff hls).mpr hb, hls, ha⟩
  · rintro ⟨hl, hb, hls, ha⟩
    exact ⟨List.forall_mem_cons.mpr ⟨hl, hls⟩,
      List.isChain_cons.mpr ⟨(stops_text_iff hls).mp hb, ha⟩⟩

end Lexeme

def Token.lexeme (t : Token) : Kind × String :=
  (t.kind, t.sourceText)

open Lexeme (Canonical)

namespace Cursor

variable {c : Cursor} {l : Kind × String} {ls : List (Kind × String)} {rest : List Char}

theorem lexeme_nextToken (hf : ¬ c.finished) : c.nextToken.1.lexeme =
    ((Lexeme.first c.rest).1, String.ofList (c.rest.take (Lexeme.first c.rest).2)) := by
  rw [Token.lexeme, sourceText_nextToken hf, nextToken, kind_consume]

theorem lexemes_tokens_cons_iff : c.tokens.map Token.lexeme = l :: ls ↔
    ¬ c.finished ∧ c.nextToken.1.lexeme = l ∧ c.nextToken.2.tokens.map Token.lexeme = ls := by
  rw [tokens]
  split <;> simp_all

theorem lexeme_nextToken_eq_iff : (¬ c.finished ∧ c.nextToken.1.lexeme = l ∧
      c.nextToken.2.rest = rest) ↔
    Lexeme.Spells l.1 l.2.toList ∧ Lexeme.Stops l.1 l.2.toList rest ∧
      c.rest = l.2.toList ++ rest := by
  constructor
  · rintro ⟨hf, hl, hr⟩
    have hne : c.rest ≠ [] := by simpa [finished] using hf
    obtain ⟨hs, ht⟩ := Lexeme.spells_take_first hne
    rw [lexeme_nextToken hf] at hl
    rw [rest_nextToken] at hr
    subst hl hr
    simpa using ⟨hs, ht⟩
  · rintro ⟨hs, ht, hr⟩
    have hw := Lexeme.ne_nil_of_spells hs
    have hfirst := (Lexeme.first_append_eq_iff hw).mpr ⟨hs, ht⟩
    have hf : ¬ c.finished := by simp [finished, hr, hw]
    refine ⟨hf, ?_, ?_⟩
    · rw [lexeme_nextToken hf, hr, hfirst, List.take_left, String.ofList_toList]
    · rw [rest_nextToken, hr, hfirst, List.drop_left]

theorem lexemes_tokens_eq_iff : c.tokens.map Token.lexeme = ls ↔
    Canonical ls ∧ c.rest = (Lexeme.text ls).toList := by
  induction ls generalizing c with
  | nil =>
    have hnil : Canonical [] := ⟨by simp, .nil⟩
    rw [tokens]
    split <;> simp_all [finished, Lexeme.text]
  | cons l ls ih =>
    rw [lexemes_tokens_cons_iff, ih, Lexeme.canonical_cons_iff, Lexeme.toList_text_cons]
    constructor
    · rintro ⟨hf, hl, hc, hr⟩
      obtain ⟨hs, ht, he⟩ := lexeme_nextToken_eq_iff.mp ⟨hf, hl, hr⟩
      exact ⟨⟨hs, ht, hc⟩, he⟩
    · rintro ⟨⟨hs, ht, hc⟩, he⟩
      obtain ⟨hf, hl, hr⟩ := lexeme_nextToken_eq_iff.mpr ⟨hs, ht, he⟩
      exact ⟨hf, hl, hc, hr⟩

end Cursor

/-- The lexemes of texts are the canonical sequences. Those of a given text are the canonical
sequence that makes it up. -/
theorem lexemes_tokenize_eq_iff (ls : List (Kind × String)) :
    ((∃ source, (tokenize source).map Token.lexeme = ls) ↔ Canonical ls) ∧
      ∀ source, (tokenize source).map Token.lexeme = ls ↔
        Canonical ls ∧ source = Lexeme.text ls := by
  have h (source : String) : (tokenize source).map Token.lexeme = ls ↔
      Canonical ls ∧ source = Lexeme.text ls := by
    rw [tokenize, Cursor.lexemes_tokens_eq_iff, Cursor.ofString, String.toList_inj]
  refine ⟨⟨?_, ?_⟩, h⟩
  · rintro ⟨source, hs⟩
    exact ((h source).mp hs).1
  · intro hc
    exact ⟨_, (h _).mpr ⟨hc, rfl⟩⟩

end Verbatim
