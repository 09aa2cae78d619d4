import Verbatim.Check.Failure

/-! # Checks on blocks

What is expected of a block and of single terms of it. Checks of one term run in order and stop at
the first that fails.
-/

namespace Verbatim.Check

inductive TermCheck where
  | kind (expected : Term.Kind)
  | named (expected : String)
  | call (name : String)
  | identifier (name : String)
  | text (expected : String)
  | inputCount (expected : Nat)
  | error (expected : String)
  | noError
  | arg (input : Nat) (checks : List TermCheck)
  deriving Repr

inductive BlockCheck where
  | termCount (expected : Nat)
  | rootCount (expected : Nat)
  | noErrors
  | reconstructs (expected : String)
  | term (index : Nat) (checks : List TermCheck)
  | root (index : Nat) (checks : List TermCheck)
  deriving Repr

def require (holds : Bool) (reason : Failure) : Except Failure Unit :=
  if holds then .ok () else .error reason

def hasKind (s : Subject) (t : Term) (expected : Term.Kind) : Except Failure Unit :=
  require (t.kind == expected) (.kind s t.kind expected)

def hasName (s : Subject) (t : Term) (expected : String) : Except Failure Unit :=
  require (t.name? == some expected) (.name s t.name? expected)

/-- The term to which an input points. It has to stand before the term that refers to it. -/
def argument (b : Block) (s : Subject) (t : Term) (input : Nat) : Except Failure Term :=
  match t.inputs[input]? with
  | none => .error (.noInput s input)
  | some (.named name) => .error (.freeName s input name)
  | some (.indexed index) =>
    if index < t.index then
      match b[index]? with
      | some arg => .ok arg
      | none => .error (.missing s input index)
    else .error (.forward s input index)

mutual

def TermCheck.run (b : Block) (s : Subject) (t : Term) : TermCheck → Except Failure Unit
  | kind expected => hasKind s t expected
  | named expected => hasName s t expected
  | call name => do
    hasKind s t .call
    hasName s t name
  | identifier name => do
    hasKind s t .identifier
    hasName s t name
  | text expected => require (t.text == expected) (.text s t.text expected)
  | inputCount expected =>
    require (t.inputs.length == expected) (.inputCount s t.inputs.length expected)
  | error expected => require (t.error == some expected) (.error s t.error expected)
  | noError => require t.error.isNone (.unexpectedError s t.error)
  | arg input checks => do
    let arg ← argument b s t input
    TermCheck.runAll b (.arg s input) arg checks

def TermCheck.runAll (b : Block) (s : Subject) (t : Term) : List TermCheck → Except Failure Unit
  | [] => .ok ()
  | check :: checks => do
    check.run b s t
    TermCheck.runAll b s t checks

end

def BlockCheck.run (b : Block) : BlockCheck → Except Failure Unit
  | termCount expected => require (b.length == expected) (.termCount b.length expected)
  | rootCount expected =>
    require (b.roots.length == expected) (.rootCount b.roots.length expected)
  | noErrors =>
    require b.errors.isEmpty (.errors (b.errors.map fun t => (t.index, t.error)))
  | reconstructs expected =>
    require (b.reconstruct == expected) (.reconstruct b.reconstruct expected)
  | term index checks =>
    match b[index]? with
    | some t => TermCheck.runAll b (.term index) t checks
    | none => .error (.noTerm index b.length)
  | root index checks =>
    match b.roots[index]? with
    | some t => TermCheck.runAll b (.root index) t checks
    | none => .error (.noRoot index b.roots.length)

end Verbatim.Check
