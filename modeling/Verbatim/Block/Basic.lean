/-! # Blocks

A block is a list of terms that refer to each other by index. The terms to which no other refers
are its roots. Each term carries the text that it was read from, operands included, so the texts
of the roots make up the text of the block.
-/

namespace Verbatim

/-- An operand: a name bound to no term, or the index of a term of the same block. -/
inductive Ref where
  | named (name : String)
  | indexed (index : Nat)
  deriving DecidableEq, Repr

namespace Ref

def name? : Ref → Option String
  | named name => some name
  | indexed _ => none

def index? : Ref → Option Nat
  | named _ => none
  | indexed index => some index

def text : Ref → String
  | named name => name
  | indexed index => "$" ++ toString index

end Ref

inductive Term.Kind where
  | call
  | identifier
  | binary
  deriving DecidableEq, Repr

namespace Term.Kind

def name : Kind → String
  | call => "func_call"
  | identifier => "identifier"
  | binary => "infix"

def label : Kind → String
  | call => "function_call"
  | identifier => "identifier"
  | binary => "infix"

end Term.Kind

/-- `inputs` are the callee and the arguments of a call, the operator and the operands of a binary
term, or the name of an identifier. -/
structure Term where
  kind : Term.Kind
  index : Nat
  inputs : List Ref
  nested : Option (List Term)
  text : String
  error : Option String
  deriving Repr

abbrev Block := List Term

namespace Term

def name? (t : Term) : Option String :=
  t.inputs.head?.bind Ref.name?

def hasError (t : Term) : Bool :=
  t.error.isSome

def references (t : Term) : List Nat :=
  t.inputs.filterMap Ref.index?

def refersTo (t : Term) (i : Nat) : Bool :=
  t.references.contains i

end Term

namespace Block

variable (b : Block)

def push (t : Term) : Block :=
  b ++ [{ t with index := b.length }]

def ofTerms (ts : List Term) : Block :=
  ts.foldl push []

def resolve (r : Ref) : Option Term :=
  r.index?.bind fun i => b[i]?

def isReferenced (i : Nat) : Bool :=
  (b.drop (i + 1)).any (·.refersTo i)

def references : List Nat :=
  b.flatMap Term.references

/-- The terms to which no term of the block refers, in order. -/
def roots : List Term :=
  let used := b.references
  (b.zipIdx.filter fun t => !used.contains t.2).map (·.1)

def errors : List Term :=
  b.filter Term.hasError

/-- The text of the block, from its roots. -/
def reconstruct : String :=
  b.roots.foldr (fun t s => t.text ++ s) ""

end Block

end Verbatim
