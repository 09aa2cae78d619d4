import Verbatim.Token.Basic

/-! # Lexemes

The first lexeme of a text is decided by its first character or two, and is as long as it can be.
The character NUL, which also stands for the end of the text, is part of no lexeme but its own.
-/

namespace Verbatim.Lexeme

def nul : Char := '\x00'

def isNameChar (c : Char) : Bool :=
  c.isAlphanum || c == '_'

def isCommentChar (c : Char) : Bool :=
  c != '\n' && c != nul

/-- How far a quoted text goes on after its opening `quote`: a backslash takes the character after
it along, and the first `quote` that is not so taken is the last character. -/
def quotedLength (quote : Char) : List Char → Nat
  | [] => 0
  | c :: cs =>
    if c = nul then 0
    else if c = quote then 1
    else if c = '\x5c' then
      match cs with
      | [] => 1
      | d :: cs => if d = nul then 1 else quotedLength quote cs + 2
    else quotedLength quote cs + 1

/-- The kind of the first lexeme and its length in characters. At the end of the text, too, a
character is asked for. -/
def first : List Char → Token.Kind × Nat
  | [] => (.unrecognized, 1)
  | c :: cs =>
    match c with
    | '(' => (.leftParen, 1)
    | ')' => (.rightParen, 1)
    | '[' => (.leftBracket, 1)
    | ']' => (.rightBracket, 1)
    | '\n' => (.newline, 1)
    | '/' =>
      if cs.head? = some '/' then (.lineComment, (cs.takeWhile isCommentChar).length + 1)
      else (.slash, 1)
    | ' ' => (.whitespace, (cs.takeWhile (· == ' ')).length + 1)
    | '\x27' => (.singleQuoted, quotedLength c cs + 1)
    | '\x22' => (.doubleQuoted, quotedLength c cs + 1)
    | _ =>
      if isNameChar c then (.identifier, (cs.takeWhile isNameChar).length + 1)
      else (.unrecognized, 1)

theorem first_length_pos (cs : List Char) : 0 < (first cs).2 := by
  unfold first
  split
  · decide
  · split <;> first | decide | (split <;> simp) | simp

end Verbatim.Lexeme
