import Verbatim.Position
import Verbatim.Text.Quoted

/-! # Tokens

A token is a classified and positioned piece of source text. A kind with a fixed text stores
none; the source texts of a token list, put together, are the text that it was cut from.
-/

namespace Verbatim

structure Span where
  start : Nat
  stop : Nat
  deriving DecidableEq, Repr

inductive Token.Kind where
  | leftParen
  | rightParen
  | leftBracket
  | rightBracket
  | identifier
  | whitespace
  | newline
  | singleQuoted
  | doubleQuoted
  | slash
  | lineComment
  | unrecognized
  | endOfStream
  deriving DecidableEq, Ord, Repr

structure Token where
  kind : Token.Kind
  span : Span
  line : Nat
  column : Nat
  indent : Nat
  text : Option String
  deriving DecidableEq, Repr

namespace Token

namespace Kind

def all : List Kind :=
  [leftParen, rightParen, leftBracket, rightBracket, identifier, whitespace, newline,
    singleQuoted, doubleQuoted, slash, lineComment, unrecognized, endOfStream]

def fixedText : Kind → Option String
  | leftParen => some "("
  | rightParen => some ")"
  | leftBracket => some "["
  | rightBracket => some "]"
  | newline => some "\n"
  | slash => some "/"
  | endOfStream => some ""
  | _ => none

/-- Trivia is layout: it carries formatting and no meaning. -/
def isTrivia : Kind → Bool
  | whitespace | newline | lineComment => true
  | _ => false

def name : Kind → String
  | leftParen => "lparen"
  | rightParen => "rparen"
  | leftBracket => "lbracket"
  | rightBracket => "rbracket"
  | identifier => "ident"
  | whitespace => "whitespace"
  | newline => "newline"
  | singleQuoted => "squoted_str"
  | doubleQuoted => "dquoted_str"
  | slash => "slash"
  | lineComment => "double_slash_comment"
  | unrecognized => "unrecognized"
  | endOfStream => "eof"

def label : Kind → String
  | leftParen => "left_paren"
  | rightParen => "right_paren"
  | leftBracket => "left_bracket"
  | rightBracket => "right_bracket"
  | identifier => "identifier"
  | whitespace => "whitespace"
  | newline => "newline"
  | singleQuoted => "single_quoted_string"
  | doubleQuoted => "double_quoted_string"
  | slash => "slash"
  | lineComment => "line_comment"
  | unrecognized => "unrecognized"
  | endOfStream => "end_of_stream"

end Kind

/-- What is found beyond the last token. No source text has such a token. -/
def endOfStream : Token :=
  ⟨.endOfStream, ⟨0, 0⟩, 0, 0, 0, none⟩

def onFirstLine (kind : Kind) (text : String) (start stop : Nat) : Token :=
  ⟨kind, ⟨start, stop⟩, 0, start + 1, 0, if kind.fixedText.isSome then none else some text⟩

def sourceText (t : Token) : String :=
  match t.text with
  | some s => s
  | none => t.kind.fixedText.getD ""

def position (t : Token) : Position :=
  ⟨t.line, t.column⟩

def isTrivia (t : Token) : Bool :=
  t.kind.isTrivia

def isWhitespace (t : Token) : Bool :=
  t.kind == .whitespace

/-- A token as one line of a listing. -/
def describe (t : Token) : String :=
  t.position.text ++ " " ++ t.kind.name ++ " " ++ Text.quoted t.sourceText

end Token

/-- The text that a list of tokens was cut from. -/
def detokenize (tokens : List Token) : String :=
  tokens.foldr (fun t s => t.sourceText ++ s) ""

@[simp] theorem detokenize_nil : detokenize [] = "" := rfl

@[simp] theorem detokenize_cons (t : Token) (ts : List Token) :
    detokenize (t :: ts) = t.sourceText ++ detokenize ts := rfl

@[simp] theorem detokenize_append (ts us : List Token) :
    detokenize (ts ++ us) = detokenize ts ++ detokenize us := by
  induction ts with
  | nil => simp
  | cons t ts ih => simp [ih, String.append_assoc]

end Verbatim
