import Verbatim.Datum.Basic
import Verbatim.Text.Hex

/-! # JSON

Structured data as JSON text over several lines, with two spaces for each level. A tagged value
is an object whose only key is the tag.
-/

namespace Verbatim.Json

def escape (c : Char) : List Char :=
  match c with
  | '\x22' => ['\x5c', '\x22']
  | '\x5c' => ['\x5c', '\x5c']
  | '\x08' => ['\x5c', 'b']
  | '\x0c' => ['\x5c', 'f']
  | '\n' => ['\x5c', 'n']
  | '\r' => ['\x5c', 'r']
  | '\t' => ['\x5c', 't']
  | _ => if c.toNat < 0x20 then ['\x5c', 'u'] ++ Text.hexPadded 4 c.toNat else [c]

def string (s : String) : List Char :=
  '\x22' :: (s.toList.flatMap escape ++ ['\x22'])

def margin (level : Nat) : List Char :=
  '\n' :: List.replicate (2 * level) ' '

def key (s : String) : List Char :=
  string s ++ [':', ' ']

mutual

/-- A value whose first line is at the given level. -/
def value (level : Nat) : Datum → List Char
  | .number n => Nat.toDigits 10 n
  | .text s => string s
  | .list [] => ['[', ']']
  | .list (d :: ds) =>
    '[' :: (margin (level + 1) ++ value (level + 1) d ++ items (level + 1) ds ++
      margin level ++ [']'])
  | .record [] => ['\x7b', '\x7d']
  | .record ((k, d) :: fields) =>
    '\x7b' :: (margin (level + 1) ++ key k ++ value (level + 1) d ++
      entries (level + 1) fields ++ margin level ++ ['\x7d'])
  | .tagged tag d =>
    '\x7b' :: (margin (level + 1) ++ key tag ++ value (level + 1) d ++ margin level ++ ['\x7d'])

def items (level : Nat) : List Datum → List Char
  | [] => []
  | d :: ds => ',' :: (margin level ++ value level d ++ items level ds)

def entries (level : Nat) : List (String × Datum) → List Char
  | [] => []
  | (k, d) :: fields =>
    ',' :: (margin level ++ key k ++ value level d ++ entries level fields)

end

def document (d : Datum) : String :=
  String.ofList (value 0 d ++ ['\n'])

end Verbatim.Json
