import Verbatim.Block.OfExpr
import Mathlib.Tactic.Simps.Basic

/-! # Parsers with a state

Expressions read by actions on a state: how far the stream was advanced, the block so far, and how
many calls and expressions are open. Loops and calls of each other are bounded by a number of
rounds only, the last argument, and an action that needs more of them has no outcome.
-/

namespace Verbatim

open Token (Kind Stream)

/-- The stream is advanced to `index`, which may go beyond the last token. -/
structure Parser where
  tokens : List Token
  index : Nat := 0
  block : Block := []
  openCalls : Nat := 0
  /-- The expressions and right operands that are being read. -/
  depth : Nat := 0
  /-- The places over which the stream was advanced, one after the other. -/
  passed : List Nat := []
  deriving Repr

namespace Parser

/-- An action may have no outcome: it breaks off, or goes on for too long. -/
abbrev Action (α : Type) := StateT Parser (ExceptT ParseError Option) α

/-- Breaks off, and returns no error. -/
def breakOff {α : Type} : Action α :=
  fun _ => (none : Option (Except ParseError (α × Parser)))

def run {α : Type} (s : Parser) (x : Action α) : Option (Except ParseError (α × Parser)) :=
  x s

def ahead (s : Parser) : Stream :=
  s.tokens.drop s.index

def finished (s : Parser) : Bool :=
  s.tokens.length ≤ s.index

def advance (s : Parser) : Parser :=
  { s with index := s.index + 1, passed := s.passed ++ [s.index] }

def inCall (s : Parser) : Bool :=
  0 < s.openCalls

@[simps]
def withDepth (s : Parser) (depth : Nat) : Parser :=
  { s with depth }

@[simps]
def withCalls (s : Parser) (openCalls : Nat) : Parser :=
  { s with openCalls }

section Tokens

def peek (k : Nat) : Action Token := do
  return (← get).ahead.peek k

def peekIs (kind : Kind) (k : Nat) : Action Bool := do
  return (← get).ahead.peekIs kind k

def pastWhitespace (k : Nat) : Nat → Action Nat
  | 0 => breakOff
  | n + 1 => do
    if ← peekIs .whitespace k then pastWhitespace (k + 1) n else return k

def takeText : Action String := do
  let t ← peek 0
  modify advance
  return t.sourceText

def takeTexts (text : String) : Nat → Action String
  | 0 => return text
  | k + 1 => do takeTexts (text ++ (← takeText)) k

def consumeText (kind : Kind) : Action String := do
  let (text, _) ← liftM ((← get).ahead.consumeText (some kind))
  modify advance
  return text

def takeBlank : Action String := do
  if ← peekIs .whitespace 0 then takeText else return ""

def takeTrivia (text : String) : Nat → Action String
  | 0 => breakOff
  | n + 1 => do
    if (← peek 0).isTrivia then takeTrivia (text ++ (← takeText)) n else return text

def canFollow : Action Bool := do
  return (← peek 0).canFollow (← get).inCall

def takeJunk (text : String) : Nat → Action String
  | 0 => breakOff
  | n + 1 => do
    if ← canFollow then return text else takeJunk (text ++ (← takeText)) n

def recover (n : Nat) : Action (Option String × String) := do
  let blank ← takeBlank
  if ← canFollow then return (none, blank)
  else
    let error := "unexpected token: " ++ (← peek 0).sourceText
    return (some error, ← takeJunk blank n)

end Tokens

def enter (g : Grammar) : Action Unit := do
  let s ← get
  liftM (g.checkDepth s.depth s.ahead)
  set (s.withDepth (s.depth + 1))

def leave : Action Unit := do
  match (← get).depth with
  | 0 => breakOff
  | depth + 1 => modify fun s => s.withDepth depth

def openCall : Action Unit :=
  modify fun s => s.withCalls (s.openCalls + 1)

def closeCall : Action Unit := do
  match (← get).openCalls with
  | 0 => breakOff
  | openCalls + 1 => modify fun s => s.withCalls openCalls

def append (t : Term) : Action Nat :=
  modifyGet fun s => (s.block.length, { s with block := s.block.push t })

def textAt (i : Nat) : Action String := do
  match (← get).block[i]? with
  | none => breakOff
  | some t => return t.text

mutual

def phrase (g : Grammar) : Nat → Action Nat
  | 0 => breakOff
  | n + 1 => do
    enter g
    let leading ← takeTrivia "" n
    let t ← chain g 0 n
    let (error, skipped) ← recover n
    let trailing ← takeTrivia skipped n
    leave
    append { t with text := leading ++ t.text ++ trailing, error }

def chain (g : Grammar) (minimum : UInt32) : Nat → Action Term
  | 0 => breakOff
  | n + 1 => do
    let left ← operand g n
    climb g minimum left n

def climb (g : Grammar) (minimum : UInt32) (left : Term) : Nat → Action Term
  | 0 => breakOff
  | n + 1 => do
    let k ← pastWhitespace 0 n
    let kind := (← peek k).kind
    match g.operators.get? kind with
    | none => return left
    | some op =>
      if op.precedence < minimum then return left
      else
        let gap ← takeTexts "" k
        let symbol ← consumeText kind
        let text ← takeTrivia (gap ++ symbol) n
        enter g
        let right ← chain g op.rightMinimum n
        leave
        let i ← append left
        let j ← append right
        climb g minimum ⟨.binary, 0, [.named symbol, .indexed i, .indexed j], none,
          left.text ++ text ++ right.text, none⟩ n

def operand (g : Grammar) : Nat → Action Term
  | 0 => breakOff
  | n + 1 => do
    if ← peekIs .identifier 0 then
      if ← peekIs .leftParen 1 then call g n
      else
        let name ← consumeText .identifier
        return ⟨.identifier, 0, [.named name], none, name, none⟩
    else throw (.noProductionAt (← peek 0))

def call (g : Grammar) : Nat → Action Term
  | 0 => breakOff
  | n + 1 => do
    let name ← consumeText .identifier
    let opening ← consumeText .leftParen
    openCall
    let (text, refs) ← arguments g (name ++ opening) [.named name] n
    closeCall
    let closing ← consumeText .rightParen
    return ⟨.call, 0, refs, none, text ++ closing, none⟩

/-- Reads up to a closing parenthesis; `text` and `refs` are those of what was read before. -/
def arguments (g : Grammar) (text : String) (refs : List Ref) : Nat → Action (String × List Ref)
  | 0 => breakOff
  | n + 1 => do
    if (← peekIs .rightParen 0) || (← get).finished then return (text, refs)
    else if (← peek 0).isTrivia then arguments g (text ++ (← takeText)) refs n
    else
      let i ← phrase g n
      arguments g (text ++ (← textAt i)) (refs ++ [.indexed i]) n

end

def program (g : Grammar) : Nat → Action Unit
  | 0 => breakOff
  | n + 1 => do
    if (← get).finished then return ()
    else
      let _ ← phrase g n
      program g n

end Parser

end Verbatim
