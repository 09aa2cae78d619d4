import Verbatim.Token.Basic

/-! # Physical lines

Tokens in source order have ascending line numbers, so the tokens of one line are a slice of the
list. Binary search finds its two ends. Lines are numbered from zero, and the token that ends a
line belongs to it.
-/

namespace Verbatim

/-- Narrows the `size` places from `base` on until one is left, and returns the first place where
`p` fails. Correct if `p` holds of a first run of places and of no later one. -/
def partitionFrom (p : Nat → Bool) (base size : Nat) : Nat :=
  if size ≤ 1 then
    if p base then base + 1 else base
  else
    partitionFrom p (if p (base + size / 2) then base + size / 2 else base) (size - size / 2)
termination_by size
decreasing_by omega

/-- The number of elements in the first run of `xs` that satisfies `p`. -/
def partitionPoint {α : Type} (p : α → Bool) (xs : Array α) : Nat :=
  if xs.isEmpty then 0 else partitionFrom (fun i => xs[i]?.any p) 0 xs.size

namespace Token

def onLine (tokens : List Token) (n : Nat) : List Token :=
  let start := partitionPoint (fun t => t.line < n) tokens.toArray
  let stop := partitionPoint (fun t => t.line ≤ n) tokens.toArray
  (tokens.take stop).drop start

/-- The text of line `n` without its end, if it has tokens. -/
def lineText (tokens : List Token) (n : Nat) : Option String :=
  let line := onLine tokens n
  match line.getLast? with
  | none => none
  | some last => some (detokenize (if last.kind = .newline then line.dropLast else line))

def lineIndent (tokens : List Token) (n : Nat) : Option Nat :=
  (onLine tokens n).head?.map (·.indent)

def lineCount (tokens : List Token) : Nat :=
  match tokens.getLast? with
  | none => 0
  | some last => if last.kind = .newline then last.line + 2 else last.line + 1

end Token

end Verbatim
