import Verbatim.Datum.Basic
import Verbatim.Datum.Yaml.Scalar

/-! # YAML

Structured data as YAML in block form. The entries of a list stand in the column of the key that
it belongs to, those of a record two columns further, and a tagged value behind its tag.
-/

namespace Verbatim.Yaml

def margin (column : Nat) : List Char :=
  List.replicate column ' '

def number (n : Nat) : List Char :=
  ' ' :: (Nat.toDigits 10 n ++ ['\n'])

def text (column : Nat) (s : String) : List Char :=
  ' ' :: scalar (column + 2) s

def emptyList : List Char :=
  [' ', '[', ']', '\n']

def emptyRecord : List Char :=
  [' ', '\x7b', '\x7d', '\n']

mutual

/-- A value behind a key or a dash, up to the end of its last line. It starts on the same line;
`column` is where the key or the dash stands. -/
def value (column : Nat) : Datum → List Char
  | .number n => number n
  | .text s => text column s
  | .tagged tag d => ' ' :: '!' :: (tag.toList ++ value column d)
  | .list [] => emptyList
  | .list (d :: ds) => '\n' :: (margin column ++ item column d ++ items column ds)
  | .record [] => emptyRecord
  | .record ((k, d) :: fields) =>
    '\n' :: (margin (column + 2) ++ k.toList ++ ':' :: (value (column + 2) d ++
      entries (column + 2) fields))

/-- A list entry with its dash. A list or a record in it starts on the line of the dash. -/
def item (column : Nat) : Datum → List Char
  | .number n => '-' :: number n
  | .text s => '-' :: text column s
  | .tagged tag d => '-' :: ' ' :: '!' :: (tag.toList ++ value column d)
  | .list [] => '-' :: emptyList
  | .list (d :: ds) => '-' :: ' ' :: (item (column + 2) d ++ items (column + 2) ds)
  | .record [] => '-' :: emptyRecord
  | .record ((k, d) :: fields) =>
    '-' :: ' ' :: (k.toList ++ ':' :: (value (column + 2) d ++ entries (column + 2) fields))

def items (column : Nat) : List Datum → List Char
  | [] => []
  | d :: ds => margin column ++ item column d ++ items column ds

def entries (column : Nat) : List (String × Datum) → List Char
  | [] => []
  | (k, d) :: fields =>
    margin column ++ k.toList ++ ':' :: (value column d ++ entries column fields)

end

def document : Datum → String
  | .list (d :: ds) => String.ofList (items 0 (d :: ds))
  | .record (f :: fields) => String.ofList (entries 0 (f :: fields))
  | d => String.ofList (value 0 d).tail

end Verbatim.Yaml
