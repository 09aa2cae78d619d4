import Verbatim.Block.Basic
import Verbatim.Text.Blank

/-! # Outlines

A block drawn as a tree with one line for each term: its roots in order, and below each term the
terms to which it refers.
-/

namespace Verbatim.Block

namespace Outline

def icon : Term.Kind → String
  | .call => "ƒ"
  | .identifier => "◦"
  | .binary => "⊕"

def labelWidth : Nat := 30

/-- At most `width` characters; where some are cut off, three dots follow. -/
def truncate (width : Nat) (cs : List Char) : List Char :=
  if width < cs.length then cs.take width ++ ['.', '.', '.'] else cs

def label (t : Term) : String :=
  let line := (Text.trim t.text.toList).map fun c => if c = '\n' then '↵' else c
  String.ofList (truncate labelWidth line)

/-- What a term shows: its kind, index, label and error. -/
def caption (t : Term) : String :=
  icon t.kind ++ " $" ++ toString t.index ++ " " ++ label t ++
    match t.error with
    | none => ""
    | some error => "  ⚠ " ++ error

def connector (last : Bool) : String :=
  if last then "└─" else "├─"

def rail (last : Bool) : String :=
  if last then "  " else "│ "

variable (b : Block)

def children (t : Term) : List Term :=
  t.inputs.filterMap (resolve b)

/-- The lines of siblings and of what is below them, drawn by `below`. -/
def siblings (below : String → List Term → String) (lead : String) : List Term → String
  | [] => ""
  | t :: ts =>
    lead ++ connector ts.isEmpty ++ " " ++ caption t ++ "\n" ++
      below (lead ++ rail ts.isEmpty) (children b t) ++ siblings below lead ts

def levels : Nat → String → List Term → String
  | 0 => fun _ _ => ""
  | depth + 1 => siblings b (levels depth)

end Outline

/-- The tree of a block. As no path visits a term twice, it is no deeper than the block is long. -/
def outline (b : Block) : String :=
  "⧉ " ++ toString b.length ++ " terms\n" ++ Outline.levels b b.length "" b.roots

end Verbatim.Block
