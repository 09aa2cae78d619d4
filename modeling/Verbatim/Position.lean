/-! # Positions

A position is a place in a source text. Lines count from zero and columns, in characters, from
one; positions are ordered by line and then by column.
-/

namespace Verbatim

structure Position where
  line : Nat
  column : Nat
  deriving DecidableEq, Ord, Repr

namespace Position

def text (p : Position) : String :=
  toString p.line ++ ":" ++ toString p.column

end Position

end Verbatim
