import Verbatim.ParseError

/-! # Token streams

A stream is the list of tokens still to be read. Looking beyond its end never fails: what is seen
there is the end-of-stream token.
-/

namespace Verbatim.Token

abbrev Stream := List Token

namespace Stream

variable (s : Stream)

def peek (k : Nat) : Token :=
  s.getD k endOfStream

def next : Token :=
  s.headD endOfStream

def peekIs (kind : Kind) (k : Nat) : Bool :=
  (s.peek k).kind == kind

def gap : Stream :=
  s.takeWhile Token.isWhitespace

def pastGap : Stream :=
  s.dropWhile Token.isWhitespace

/-- The whitespace token at the front, if there is one. -/
def blank : Stream :=
  (s.take 1).takeWhile Token.isWhitespace

def pastBlank : Stream :=
  s.drop s.blank.length

/-- The whitespace tokens, ends of line and comments at the front. -/
def trivia : Stream :=
  s.takeWhile Token.isTrivia

def pastTrivia : Stream :=
  s.dropWhile Token.isTrivia

/-- The first token that is not whitespace, with its distance. -/
def peekPastGap : Nat × Token :=
  (s.gap.length, s.pastGap.next)

def advance : Stream :=
  s.tail

/-- Advances if the next token is of the kind expected, where one is. -/
def consume : Option Kind → Except ParseError Stream
  | none => .ok s.advance
  | some kind =>
    if s.next.kind = kind then .ok s.advance else .error (.expectedAt kind s.next)

def consumeText (expected : Option Kind) : Except ParseError (String × Stream) :=
  (s.consume expected).map fun rest => (s.next.sourceText, rest)

theorem length_pastGap_le : s.pastGap.length ≤ s.length :=
  (List.dropWhile_suffix _).length_le

theorem length_pastTrivia_le : s.pastTrivia.length ≤ s.length :=
  (List.dropWhile_suffix _).length_le

theorem gap_append_pastGap : s.gap ++ s.pastGap = s :=
  List.takeWhile_append_dropWhile

theorem trivia_append_pastTrivia : s.trivia ++ s.pastTrivia = s :=
  List.takeWhile_append_dropWhile

theorem blank_append_pastBlank : s.blank ++ s.pastBlank = s := by
  cases s with
  | nil => rfl
  | cons t s =>
    by_cases h : t.isWhitespace <;> simp [blank, pastBlank, h]

theorem length_pastBlank_le : s.pastBlank.length ≤ s.length := by
  simp [pastBlank]

end Stream

end Verbatim.Token
