import Verbatim.Proofs.Lexeme.Lossless
import Verbatim.Proofs.Lexeme.Spelling
import Mathlib.Data.String.Basic

/-! # Spans

The spans of the tokens of a text cover its bytes from the first to the last, one after the other
and without gaps. Each begins and ends between characters, and what the text has there is the
source text of the token.
-/

namespace Verbatim

def Span.slice (source : String) (s : Span) : String :=
  String.Pos.Raw.extract source ⟨s.start⟩ ⟨s.stop⟩

namespace Token

/-- The spans of tokens lead from byte `start` to byte `stop`: each begins where the one before it
ends, and none is empty. -/
def Tile (start stop : Nat) : List Token → Prop
  | [] => start = stop
  | t :: ts => t.span.start = start ∧ start < t.span.stop ∧ Tile t.span.stop stop ts

/-- A token is a piece of a text: it stands where its span says, and it stores its text unless its
kind tells it. -/
structure CutFrom (source : String) (t : Token) : Prop where
  start_isValid : String.Pos.Raw.IsValid source ⟨t.span.start⟩
  stop_isValid : String.Pos.Raw.IsValid source ⟨t.span.stop⟩
  sourceText_eq : t.sourceText = t.span.slice source
  kind_ne : t.kind ≠ .endOfStream
  text_eq_none_iff : t.text = none ↔ t.kind.fixedText.isSome

end Token

section Bytes

variable {source : String} {before cs after : List Char}

theorem byteLength_pos (h : cs ≠ []) : 0 < byteLength cs := by
  cases cs with
  | nil => exact (h rfl).elim
  | cons c cs =>
    have := c.utf8Size_pos
    simp only [byteLength]
    omega

theorem utf8Len_eq_byteLength (cs : List Char) : String.utf8Len cs = byteLength cs := by
  induction cs with
  | nil => rfl
  | cons c cs ih => rw [String.utf8Len_cons, ih, byteLength, Nat.add_comm]

theorem isValid_byteLength (h : source.toList = before ++ after) :
    String.Pos.Raw.IsValid source ⟨byteLength before⟩ := by
  refine String.Pos.Raw.isValid_iff_exists_append.mpr
    ⟨String.ofList before, String.ofList after, ?_, ?_⟩
  · rw [← String.ofList_append, ← h, String.ofList_toList]
  · rw [String.Pos.Raw.ext_iff, String.byteIdx_rawEndPos, ← byteLength_toList, String.toList_ofList]

theorem slice_byteLength (h : source.toList = before ++ cs ++ after) :
    Span.slice source ⟨byteLength before, byteLength before + byteLength cs⟩ =
      String.ofList cs := by
  have hs : source = String.ofList (before ++ cs ++ after) := by
    rw [← h, String.ofList_toList]
  rw [Span.slice, hs, ← utf8Len_eq_byteLength, ← utf8Len_eq_byteLength]
  exact String.extract_of_valid before cs after

end Bytes

namespace Cursor

/-- The cursor stands in a text, after the characters `before`. -/
structure After (source : String) (before : List Char) (c : Cursor) : Prop where
  toList_eq : source.toList = before ++ c.rest
  position_eq : c.position = byteLength before

theorem after_ofString (source : String) : (ofString source).After source [] :=
  ⟨rfl, rfl⟩

section Step

variable {source : String} {before : List Char} {c : Cursor} {kind : Token.Kind} {n : Nat}
  {saveText : Bool}

theorem position_consume : (c.consume kind n saveText).2.position =
    c.position + byteLength (c.rest.take n) := by
  unfold consume advance
  dsimp only
  split <;> rfl

theorem span_consume : (c.consume kind n saveText).1.span =
    ⟨c.position, (c.consume kind n saveText).2.position⟩ := by
  unfold consume
  dsimp only
  split <;> rfl

theorem After.consume (h : c.After source before) :
    (c.consume kind n saveText).2.After source (before ++ c.rest.take n) where
  toList_eq := by rw [rest_consume, List.append_assoc, List.take_append_drop, h.toList_eq]
  position_eq := by rw [position_consume, byteLength_append, h.position_eq]

theorem After.slice_span_consume (h : c.After source before) :
    (c.consume kind n saveText).1.span.slice source = String.ofList (c.rest.take n) := by
  have hs : (c.consume kind n saveText).2.After source (before ++ c.rest.take n) := h.consume
  rw [span_consume, position_consume, h.position_eq]
  exact slice_byteLength hs.toList_eq

theorem After.nextToken (h : c.After source before) :
    c.nextToken.2.After source (before ++ c.rest.take (Lexeme.first c.rest).2) :=
  h.consume

theorem position_nextToken (c : Cursor) : c.nextToken.2.position =
    c.position + byteLength (c.rest.take (Lexeme.first c.rest).2) :=
  position_consume

theorem span_nextToken (c : Cursor) : c.nextToken.1.span = ⟨c.position, c.nextToken.2.position⟩ :=
  span_consume

theorem position_lt_nextToken (hf : ¬ c.finished) : c.position < c.nextToken.2.position := by
  have hr : c.rest ≠ [] := by simpa [finished] using hf
  have := byteLength_pos (Lexeme.ne_nil_of_spells (Lexeme.spells_take_first hr).1)
  rw [position_nextToken]
  omega

theorem After.cutFrom_nextToken (h : c.After source before) (hf : ¬ c.finished) :
    c.nextToken.1.CutFrom source where
  start_isValid := by
    rw [span_nextToken, h.position_eq]
    exact isValid_byteLength h.toList_eq
  stop_isValid := by
    rw [span_nextToken, h.nextToken.position_eq]
    exact isValid_byteLength h.nextToken.toList_eq
  sourceText_eq := (sourceText_nextToken hf).trans h.slice_span_consume.symm
  kind_ne := by
    have hr : c.rest ≠ [] := by simpa [finished] using hf
    have hs := (Lexeme.spells_take_first hr).1
    rw [Cursor.nextToken, kind_consume]
    intro he
    rwa [he] at hs
  text_eq_none_iff := by
    rw [Cursor.nextToken, kind_consume, text_consume]
    cases (Lexeme.first c.rest).1.fixedText <;> simp

end Step

theorem After.tile_tokens {source : String} {before : List Char} {c : Cursor}
    (h : c.After source before) : Token.Tile c.position source.utf8ByteSize c.tokens := by
  rw [tokens]
  split
  · next hf =>
    have hr : c.rest = [] := by simpa [finished] using hf
    have hs : source.toList = before := by rw [h.toList_eq, hr, List.append_nil]
    rw [Token.Tile, h.position_eq, ← hs, byteLength_toList]
  · next hf =>
    rw [Token.Tile, span_nextToken]
    exact ⟨rfl, position_lt_nextToken hf, h.nextToken.tile_tokens⟩
termination_by c.rest.length
decreasing_by exact c.length_rest_nextToken_lt ‹_›

theorem After.cutFrom_of_mem_tokens {source : String} {before : List Char} {c : Cursor}
    (h : c.After source before) : ∀ t ∈ c.tokens, t.CutFrom source := by
  rw [tokens]
  split
  · simp
  · next hf =>
    exact List.forall_mem_cons.mpr
      ⟨h.cutFrom_nextToken hf, h.nextToken.cutFrom_of_mem_tokens⟩
termination_by c.rest.length
decreasing_by exact c.length_rest_nextToken_lt ‹_›

end Cursor

/-- The spans of the tokens of a text tile its bytes, each token is the piece of the text at its
span, and together they are the text. -/
theorem tile_tokenize (source : String) :
    Token.Tile 0 source.utf8ByteSize (tokenize source) ∧
      (∀ t ∈ tokenize source, t.CutFrom source) ∧ detokenize (tokenize source) = source :=
  have h := Cursor.after_ofString source
  ⟨h.tile_tokens, h.cutFrom_of_mem_tokens, detokenize_tokenize source⟩

end Verbatim
