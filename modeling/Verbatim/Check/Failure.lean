import Verbatim.Block.Basic
import Verbatim.Text.Quoted

/-! # Failed checks

What a check on a block can find wrong, and the report of it. Values that should have been equal
are shown under the report, the one found first.
-/

namespace Verbatim.Check

/-- How the checked term was reached. -/
inductive Subject where
  | term (index : Nat)
  | root (index : Nat)
  | arg (owner : Subject) (input : Nat)
  deriving DecidableEq, Repr

def Subject.text : Subject → String
  | term i => "term[" ++ toString i ++ "]"
  | root i => "root[" ++ toString i ++ "]"
  | arg owner i => owner.text ++ ".arg[" ++ toString i ++ "]"

inductive Failure where
  | termCount (found expected : Nat)
  | rootCount (found expected : Nat)
  | reconstruct (found expected : String)
  | errors (found : List (Nat × Option String))
  | noTerm (index size : Nat)
  | noRoot (index count : Nat)
  | kind (s : Subject) (found expected : Term.Kind)
  | name (s : Subject) (found : Option String) (expected : String)
  | text (s : Subject) (found expected : String)
  | inputCount (s : Subject) (found expected : Nat)
  | error (s : Subject) (found : Option String) (expected : String)
  | unexpectedError (s : Subject) (found : Option String)
  | noInput (s : Subject) (input : Nat)
  | freeName (s : Subject) (input : Nat) (name : String)
  | forward (s : Subject) (input index : Nat)
  | missing (s : Subject) (input index : Nat)
  deriving DecidableEq, Repr

def kindTitle : Term.Kind → String
  | .call => "FunctionCall"
  | .identifier => "Identifier"
  | .binary => "Infix"

def unequal (note found expected : String) : String :=
  "assertion `left == right` failed: " ++ note ++ "\n  left: " ++ found ++ "\n right: " ++ expected

def errorList (errors : List (Nat × Option String)) : String :=
  let entry := fun (e : Nat × Option String) =>
    "(" ++ toString e.1 ++ ", " ++ Text.quotedOption e.2 ++ ")"
  "[" ++ ", ".intercalate (errors.map entry) ++ "]"

namespace Failure

open Text (quoted quotedOption)

def message : Failure → String
  | termCount found expected =>
    unequal ("Expected " ++ toString expected ++ " terms, found " ++ toString found)
      (toString found) (toString expected)
  | rootCount found expected =>
    unequal ("Expected " ++ toString expected ++ " root terms, found " ++ toString found)
      (toString found) (toString expected)
  | reconstruct found expected =>
    unequal "Reconstructed text differs" (quoted found) (quoted expected)
  | errors found => "Expected no parse errors, found " ++ errorList found
  | noTerm index size =>
    "Term index " ++ toString index ++ " out of bounds (block has " ++ toString size ++ " terms)"
  | noRoot index count =>
    "Root " ++ toString index ++ " out of bounds (block has " ++ toString count ++ " roots)"
  | kind s found expected =>
    unequal (s.text ++ ": Expected " ++ expected.name ++ ", found " ++ found.name)
      (kindTitle found) (kindTitle expected)
  | name s found expected =>
    unequal (s.text ++ ": Expected name " ++ quoted expected) (quotedOption found)
      (quotedOption (some expected))
  | text s found expected =>
    unequal (s.text ++ ": Expected format " ++ quoted expected ++ ", found " ++ quoted found)
      (quoted found) (quoted expected)
  | inputCount s found expected =>
    unequal (s.text ++ ": Expected " ++ toString expected ++ " inputs, found " ++ toString found)
      (toString found) (toString expected)
  | error s found expected =>
    unequal (s.text ++ ": Expected parse error " ++ quoted expected) (quotedOption found)
      (quotedOption (some expected))
  | unexpectedError s found => s.text ++ ": Unexpected parse error " ++ quotedOption found
  | noInput s input => s.text ++ ": Input " ++ toString input ++ " out of bounds"
  | freeName s input called =>
    s.text ++ ": Input " ++ toString input ++ " is the free name " ++ quoted called ++
      ", not a term"
  | forward s input index =>
    s.text ++ ": Input " ++ toString input ++ " points forward to term " ++ toString index
  | missing s input index =>
    s.text ++ ": Input " ++ toString input ++ " points at missing term " ++ toString index

end Failure

end Verbatim.Check
