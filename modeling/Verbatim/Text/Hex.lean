/-! # Hexadecimal escapes

Code points are written in base sixteen, either with as few digits as possible or padded with
zeros to a fixed width.
-/

namespace Verbatim.Text

def hex (n : Nat) : List Char :=
  Nat.toDigits 16 n

def hexPadded (width n : Nat) : List Char :=
  (hex n).leftpad width '0'

def hexUpper (width n : Nat) : List Char :=
  (hexPadded width n).map Char.toUpper

end Verbatim.Text
