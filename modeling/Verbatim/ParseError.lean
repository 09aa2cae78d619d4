import Verbatim.Token.Basic

/-! # Parse errors

The failures that end a parse. Each names a position, that of the token at which it arose.
-/

namespace Verbatim

open Token (Kind)

inductive ParseError where
  | expected (kind found : Kind) (position : Position)
  /-- No expression starts with the token found. -/
  | noProduction (found : Kind) (text : String) (position : Position)
  | tooDeep (limit : Nat) (position : Position)
  deriving DecidableEq, Repr

namespace ParseError

def expectedAt (kind : Kind) (t : Token) : ParseError :=
  .expected kind t.kind t.position

def noProductionAt (t : Token) : ParseError :=
  .noProduction t.kind t.sourceText t.position

def tooDeepAt (limit : Nat) (t : Token) : ParseError :=
  .tooDeep limit t.position

def position : ParseError → Position
  | expected _ _ p | noProduction _ _ p | tooDeep _ p => p

def message : ParseError → String
  | expected kind found p =>
    p.text ++ ": expected " ++ kind.name ++ ", next is " ++ found.name
  | noProduction .endOfStream _ _ => "unexpected end of input"
  | noProduction found text p =>
    p.text ++ ": unexpected token " ++ found.name ++ " " ++ Text.quoted text
  | tooDeep limit p =>
    p.text ++ ": nesting deeper than " ++ toString limit ++ " levels"

end ParseError

end Verbatim
