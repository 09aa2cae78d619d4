import Verbatim.Text.Digits

/-! # Texts that read as another type

A YAML reader takes some unquoted texts for a null, a truth value or a number. A text of one of
these forms has to be quoted.
-/

namespace Verbatim.Yaml

open Text (digits?)

def unsigned : List Char → List Char
  | '+' :: cs => cs
  | '-' :: cs => cs
  | cs => cs

def magnitude? : List Char → Option Nat
  | '0' :: 'x' :: cs => digits? 16 cs
  | '0' :: 'o' :: cs => digits? 8 cs
  | '0' :: 'b' :: cs => digits? 2 cs
  | cs => digits? 10 cs

/-- Integers are read up to a width of 128 bits. -/
def isInteger : List Char → Bool
  | '-' :: cs => (magnitude? cs).any (· ≤ Nat.pow 2 127)
  | '+' :: cs => (magnitude? cs).any (· < Nat.pow 2 128)
  | cs => (magnitude? cs).any (· < Nat.pow 2 128)

def isZeroLed (cs : List Char) : Bool :=
  match unsigned cs with
  | '0' :: d :: ds => (d :: ds).all Char.isDigit
  | _ => false

def exponent? : List Char → Option Int
  | [] => some 0
  | mark :: cs =>
    if mark = 'e' ∨ mark = 'E' then
      match cs with
      | '-' :: ds => (digits? 10 ds).map fun n => -(n : Int)
      | '+' :: ds => (digits? 10 ds).map fun n => (n : Int)
      | ds => (digits? 10 ds).map fun n => (n : Int)
    else none

/-- Whether `m * 10 ^ e` rounds to a finite number of 64 bits: it has to lie below the middle
between the largest of them and the power of two that follows. -/
def isFinite (m : Nat) (e : Int) : Bool :=
  let width := (Nat.toDigits 10 m).length + e
  let bound := (Nat.pow 2 54 - 1) * Nat.pow 2 970
  if m = 0 ∨ width ≤ 308 then true
  else if 310 ≤ width then false
  else if 0 ≤ e then m * Nat.pow 10 e.toNat < bound
  else m < bound * Nat.pow 10 (-e).toNat

def isDecimal (cs : List Char) : Bool :=
  let cs := unsigned cs
  let whole := cs.takeWhile Char.isDigit
  let cs := cs.dropWhile Char.isDigit
  let (part, cs) :=
    match cs with
    | '.' :: cs => (cs.takeWhile Char.isDigit, cs.dropWhile Char.isDigit)
    | cs => ([], cs)
  match digits? 10 (whole ++ part), exponent? cs with
  | some m, some e => isFinite m (e - part.length)
  | _, _ => false

def isConstant (s : String) : Bool :=
  ["null", "Null", "NULL", "~", "true", "True", "TRUE", "false", "False", "FALSE", ".nan", ".NaN",
    ".NAN"].contains s

def isInfinity (s : String) : Bool :=
  [".inf", ".Inf", ".INF"].contains s

def readsAsOther (cs : List Char) : Bool :=
  isConstant (String.ofList cs) || isInfinity (String.ofList (unsigned cs)) || isZeroLed cs ||
    isInteger cs || isDecimal cs

end Verbatim.Yaml
