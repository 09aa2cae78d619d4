import Verbatim.Token.Basic

/-! # Concrete expressions

Expressions as they are written: every token of the text, trivia and junk included, has its place
in the tree, so reading the tree from left to right gives the tokens back.
-/

namespace Verbatim

mutual

inductive Expr where
  | name (ident : Token)
  | call (callee opening : Token) (args : Args) (closing : Token)
  /-- `gap` is whitespace before the operator, `trivia` stands before the right operand. -/
  | binary (left : Expr) (gap : List Token) (op : Token) (trivia : List Token) (right : Expr)

/-- An expression that stands for itself, with what surrounds it. `junk` are tokens that cannot
follow an expression and are skipped. -/
inductive Phrase where
  | mk (leading : List Token) (core : Expr) (gap junk trailing : List Token)

inductive Args where
  | nil
  | trivia (t : Token) (rest : Args)
  | phrase (p : Phrase) (rest : Args)

end

deriving instance DecidableEq for Expr, Phrase, Args

mutual

def Expr.tokens : Expr → List Token
  | .name ident => [ident]
  | .call callee opening args closing => callee :: opening :: (args.tokens ++ [closing])
  | .binary left gap op trivia right => left.tokens ++ gap ++ op :: (trivia ++ right.tokens)

def Phrase.tokens : Phrase → List Token
  | .mk leading core gap junk trailing => leading ++ core.tokens ++ gap ++ junk ++ trailing

def Args.tokens : Args → List Token
  | .nil => []
  | .trivia t rest => t :: rest.tokens
  | .phrase p rest => p.tokens ++ rest.tokens

end

namespace Phrase

def core : Phrase → Expr
  | mk _ core _ _ _ => core

def junk : Phrase → List Token
  | mk _ _ _ junk _ => junk

end Phrase

def junkError (junk : List Token) : Option String :=
  junk.head?.map fun t => "unexpected token: " ++ t.sourceText

end Verbatim
