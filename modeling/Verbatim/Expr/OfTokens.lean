import Verbatim.Expr.Basic
import Verbatim.Operators
import Verbatim.Token.Stream

/-! # Reading expressions

The expressions at the front of a token stream, by recursive descent and precedence climbing. A
result comes with the rest of the stream and a proof that it is shorter, which bounds the
recursion. How many expressions and right operands may be open at once is limited.
-/

namespace Verbatim

open Token (Kind Stream)

/-- The number of expressions that may be open at once. -/
def maxDepth : Nat := 128

/-- What a parse depends on besides its tokens. Without a limit any nesting is read. -/
structure Grammar where
  operators : Operators := .empty
  depthLimit : Option Nat := some maxDepth
  deriving DecidableEq, Repr

/-- A value read from a stream of a length below `bound`, and what follows it. -/
structure Parsed (α : Type) (bound : Nat) where
  value : α
  rest : Stream
  rest_lt : rest.length < bound

/-- Whether an expression may be followed by `t`. A closing parenthesis may follow only while a
call is open. -/
def Token.canFollow (inCall : Bool) (t : Token) : Bool :=
  match t.kind with
  | .rightParen => inCall
  | .identifier | .endOfStream => true
  | kind => kind.isTrivia

namespace Token.Stream

def pastOperator (s : Stream) : Stream :=
  s.pastGap.advance

def junk (inCall : Bool) (s : Stream) : Stream :=
  s.takeWhile fun t => !t.canFollow inCall

def pastJunk (inCall : Bool) (s : Stream) : Stream :=
  s.dropWhile fun t => !t.canFollow inCall

theorem junk_append_pastJunk (inCall : Bool) (s : Stream) :
    s.junk inCall ++ s.pastJunk inCall = s :=
  List.takeWhile_append_dropWhile

theorem length_pastOperator_le (s : Stream) : s.pastOperator.length ≤ s.length := by
  have := s.length_pastGap_le
  simp only [pastOperator, advance, List.length_tail]
  omega

theorem length_pastJunk_le (inCall : Bool) (s : Stream) :
    (s.pastJunk inCall).length ≤ s.length :=
  (List.dropWhile_suffix _).length_le

def require (kind : Kind) : (s : Stream) → Except ParseError (Parsed Token s.length)
  | [] => .error (.expectedAt kind endOfStream)
  | t :: s =>
    if t.kind = kind then .ok ⟨t, s, by simp⟩ else .error (.expectedAt kind t)

end Token.Stream

namespace Grammar

/-- One more expression can be opened before `s` while `depth` are open. -/
def checkDepth (g : Grammar) (depth : Nat) (s : Stream) : Except ParseError Unit :=
  match g.depthLimit with
  | none => .ok ()
  | some limit => if depth < limit then .ok () else .error (.tooDeepAt limit s.next)

mutual

def operand (g : Grammar) (depth : Nat) (s : Stream) : Except ParseError (Parsed Expr s.length) :=
  match s with
  | [] => .error (.noProductionAt Token.endOfStream)
  | ident :: s =>
    if ident.kind = .identifier then
      match s with
      | [] => .ok ⟨.name ident, [], by simp⟩
      | opening :: s =>
        if opening.kind = .leftParen then do
          let ⟨args, rest, _⟩ ← g.arguments depth s
          let ⟨closing, rest, _⟩ ← rest.require .rightParen
          .ok ⟨.call ident opening args closing, rest, by simp; omega⟩
        else .ok ⟨.name ident, opening :: s, by simp⟩
    else .error (.noProductionAt ident)
termination_by 4 * s.length
decreasing_by all_goals simp; omega

/-- An operand and the operators of precedence `minimum` and above that follow it. -/
def chain (g : Grammar) (depth : Nat) (minimum : UInt32) (s : Stream) :
    Except ParseError (Parsed Expr s.length) := do
  let ⟨left, rest, _⟩ ← g.operand depth s
  let ⟨value, rest, _⟩ ← g.climb depth minimum left rest
  .ok ⟨value, rest, by omega⟩
termination_by 4 * s.length + 1
decreasing_by all_goals omega

/-- Goes on from `left` while an operator of precedence `minimum` or above comes next. -/
def climb (g : Grammar) (depth : Nat) (minimum : UInt32) (left : Expr) (s : Stream) :
    Except ParseError (Parsed Expr (s.length + 1)) :=
  match g.operators.get? s.pastGap.next.kind with
  | none => .ok ⟨left, s, by omega⟩
  | some op =>
    if op.precedence < minimum then .ok ⟨left, s, by omega⟩
    else do
      g.checkDepth depth s.pastOperator.pastTrivia
      let ⟨right, rest, _⟩ ← g.chain (depth + 1) op.rightMinimum s.pastOperator.pastTrivia
      let left := .binary left s.gap s.pastGap.next s.pastOperator.trivia right
      let ⟨value, rest, _⟩ ← g.climb depth minimum left rest
      .ok ⟨value, rest, by
        have := s.pastOperator.length_pastTrivia_le
        have := s.length_pastOperator_le
        omega⟩
termination_by 4 * s.length + 2
decreasing_by
  all_goals
    have := s.pastOperator.length_pastTrivia_le
    have := s.length_pastOperator_le
    omega

def phrase (g : Grammar) (depth : Nat) (inCall : Bool) (s : Stream) :
    Except ParseError (Parsed Phrase s.length) := do
  g.checkDepth depth s
  let ⟨core, rest, _⟩ ← g.chain (depth + 1) 0 s.pastTrivia
  let junk := rest.pastBlank.junk inCall
  let after := rest.pastBlank.pastJunk inCall
  .ok ⟨.mk s.trivia core rest.blank junk after.trivia, after.pastTrivia, by
    have := s.length_pastTrivia_le
    have := rest.length_pastBlank_le
    have := rest.pastBlank.length_pastJunk_le inCall
    have := (rest.pastBlank.pastJunk inCall).length_pastTrivia_le
    simp only [after]
    omega⟩
termination_by 4 * s.length + 2
decreasing_by
  have := s.length_pastTrivia_le
  omega

def arguments (g : Grammar) (depth : Nat) (s : Stream) :
    Except ParseError (Parsed Args (s.length + 1)) :=
  match s with
  | [] => .ok ⟨.nil, [], by simp⟩
  | t :: s =>
    if t.kind = .rightParen then .ok ⟨.nil, t :: s, by simp⟩
    else if t.isTrivia then do
      let ⟨args, rest, _⟩ ← g.arguments depth s
      .ok ⟨.trivia t args, rest, by simp; omega⟩
    else do
      let ⟨p, rest, _⟩ ← g.phrase depth true (t :: s)
      let ⟨args, rest, _⟩ ← g.arguments depth rest
      .ok ⟨.phrase p args, rest, by omega⟩
termination_by 4 * s.length + 3
decreasing_by all_goals simp_all; try omega

end

def program (g : Grammar) (s : Stream) : Except ParseError (List Phrase) :=
  match s with
  | [] => .ok []
  | t :: s => do
    let ⟨p, rest, _⟩ ← g.phrase 0 false (t :: s)
    let ps ← g.program rest
    .ok (p :: ps)
termination_by s.length
decreasing_by assumption

end Grammar

end Verbatim
