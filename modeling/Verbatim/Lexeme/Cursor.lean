import Verbatim.Lexeme.Basic

/-! # Cursors

A cursor is a place in a source text, with what is left to read and the bookkeeping of byte
position, line, column and indentation. Cutting one lexeme after the other yields the tokens of
the text.
-/

namespace Verbatim

def byteLength : List Char → Nat
  | [] => 0
  | c :: cs => c.utf8Size + byteLength cs

@[simp] theorem byteLength_append (cs ds : List Char) :
    byteLength (cs ++ ds) = byteLength cs + byteLength ds := by
  induction cs with
  | nil => simp [byteLength]
  | cons c cs ih => simp [byteLength, ih, Nat.add_assoc]

theorem byteLength_toList (s : String) : byteLength s.toList = s.utf8ByteSize := by
  have h (cs : List Char) : byteLength cs = (String.ofList cs).utf8ByteSize := by
    induction cs with
    | nil => simp [byteLength]
    | cons c cs ih =>
      have : String.ofList (c :: cs) = String.singleton c ++ String.ofList cs := by
        rw [String.singleton_eq_ofList, ← String.ofList_append]
        rfl
      rw [byteLength, ih, this, String.utf8ByteSize_append, String.utf8ByteSize_singleton]
  rw [h, String.ofList_toList]

structure Cursor where
  rest : List Char
  position : Nat
  line : Nat
  column : Nat
  /-- The width of the leading whitespace of the line, once it is read. -/
  indent : Nat
  deriving DecidableEq, Repr

namespace Cursor

def ofString (source : String) : Cursor :=
  ⟨source.toList, 0, 0, 1, 0⟩

variable (c : Cursor)

def finished : Bool :=
  c.rest.isEmpty

/-- The character `k` places ahead, or NUL beyond the end. -/
def peek (k : Nat) : Char :=
  c.rest.getD k Lexeme.nul

def advance (n : Nat) : Cursor :=
  { c with
    rest := c.rest.drop n
    position := c.position + byteLength (c.rest.take n) }

/-- Cuts a token of `n` characters. Only what is left is cut, but the column moves by `n`. -/
def consume (kind : Token.Kind) (n : Nat) (saveText : Bool) : Token × Cursor :=
  let indent := if c.column = 1 ∧ kind = .whitespace then n else c.indent
  let after := c.advance n
  let text := if saveText then some (String.ofList (c.rest.take n)) else none
  let token : Token := ⟨kind, ⟨c.position, after.position⟩, c.line, c.column, indent, text⟩
  if kind = .newline then
    (token, { after with line := c.line + 1, column := 1, indent := 0 })
  else
    (token, { after with column := c.column + n, indent := indent })

def consumeWhile (kind : Token.Kind) (p : Char → Bool) : Token × Cursor :=
  let more := c.rest.tail.takeWhile fun x => x != Lexeme.nul && p x
  c.consume kind (more.length + 1) true

/-- Cuts the next lexeme. Its text is saved unless its kind tells it. -/
def nextToken : Token × Cursor :=
  let (kind, n) := Lexeme.first c.rest
  c.consume kind n kind.fixedText.isNone

@[simp] theorem rest_consume (kind : Token.Kind) (n : Nat) (saveText : Bool) :
    (c.consume kind n saveText).2.rest = c.rest.drop n := by
  unfold consume advance
  dsimp only
  split <;> rfl

theorem nextToken_eq_consume : c.nextToken =
    c.consume (Lexeme.first c.rest).1 (Lexeme.first c.rest).2
      (Lexeme.first c.rest).1.fixedText.isNone :=
  rfl

theorem rest_nextToken : c.nextToken.2.rest = c.rest.drop (Lexeme.first c.rest).2 :=
  rest_consume ..

theorem length_rest_nextToken_lt (h : ¬ c.finished) :
    c.nextToken.2.rest.length < c.rest.length := by
  have := Lexeme.first_length_pos c.rest
  have := List.length_pos_iff.mpr (by simpa [finished] using h)
  rw [rest_nextToken, List.length_drop]
  omega

def tokens (c : Cursor) : List Token :=
  if c.finished then [] else c.nextToken.1 :: c.nextToken.2.tokens
termination_by c.rest.length
decreasing_by exact c.length_rest_nextToken_lt ‹_›

theorem tokens_of_finished (h : c.finished) : c.tokens = [] := by
  rw [tokens, if_pos h]

theorem tokens_of_not_finished (h : ¬ c.finished) :
    c.tokens = c.nextToken.1 :: c.nextToken.2.tokens := by
  rw [tokens, if_neg h]

end Cursor

def tokenize (source : String) : List Token :=
  (Cursor.ofString source).tokens

end Verbatim
