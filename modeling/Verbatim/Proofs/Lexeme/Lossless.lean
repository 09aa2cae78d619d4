import Verbatim.Lexeme.Cursor
import Mathlib.Tactic.Common

/-! # Cutting loses nothing

The source text of each token is the part of the text that was cut off, also where the token stores
no text. The tokens of a text, put together, are the text.
-/

namespace Verbatim

open Token (Kind)

theorem Lexeme.take_first {cs : List Char} (hne : cs ≠ []) {text : String}
    (h : (first cs).1.fixedText = some text) : String.ofList (cs.take (first cs).2) = text := by
  fun_cases first cs with
  | case1 => exact (hne rfl).elim
  | _ => simp_all [first, Kind.fixedText]

namespace Cursor

variable (c : Cursor) (kind : Kind) (n : Nat) (saveText : Bool)

@[simp] theorem kind_consume : (c.consume kind n saveText).1.kind = kind := by
  unfold consume
  dsimp only
  split <;> rfl

@[simp] theorem text_consume : (c.consume kind n saveText).1.text =
    if saveText then some (String.ofList (c.rest.take n)) else none := by
  unfold consume
  dsimp only
  split <;> rfl

variable {c}

theorem sourceText_nextToken (h : ¬ c.finished) :
    c.nextToken.1.sourceText = String.ofList (c.rest.take (Lexeme.first c.rest).2) := by
  have hne : c.rest ≠ [] := by simpa [finished] using h
  cases hf : (Lexeme.first c.rest).1.fixedText with
  | none => simp [nextToken, Token.sourceText, hf]
  | some text => simp [nextToken, Token.sourceText, hf, Lexeme.take_first hne hf]

theorem detokenize_tokens (c : Cursor) : detokenize c.tokens = String.ofList c.rest := by
  rw [tokens]
  split
  · next h =>
    have hr : c.rest = [] := by simpa [finished] using h
    rw [hr]
    rfl
  · next h =>
    rw [detokenize_cons, sourceText_nextToken h, detokenize_tokens, rest_nextToken,
      ← String.ofList_append, List.take_append_drop]
termination_by c.rest.length
decreasing_by exact c.length_rest_nextToken_lt ‹_›

end Cursor

/-- The tokens of a text, put together, are the text. -/
theorem detokenize_tokenize (source : String) : detokenize (tokenize source) = source := by
  rw [tokenize, Cursor.detokenize_tokens, Cursor.ofString, String.ofList_toList]

end Verbatim
