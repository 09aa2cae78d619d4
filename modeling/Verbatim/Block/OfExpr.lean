import Verbatim.Block.Basic
import Verbatim.Expr.OfTokens
import Verbatim.Lexeme.Cursor

/-! # Blocks of expressions

The terms of an expression, placed one after the other from a given index on. Operands come
before the term that uses them, and the two operands of a binary term stand side by side.
-/

namespace Verbatim

mutual

/-- The terms below an expression, the first of which is placed at `n`, and its own term, which is
not placed yet. -/
def Expr.terms (n : Nat) : Expr → List Term × Term
  | .name ident =>
    ([], ⟨.identifier, 0, [.named ident.sourceText], none, ident.sourceText, none⟩)
  | .call callee opening args closing =>
    let (below, refs, text) := args.terms n
    let text := callee.sourceText ++ opening.sourceText ++ text ++ closing.sourceText
    (below, ⟨.call, 0, .named callee.sourceText :: refs, none, text, none⟩)
  | .binary left gap op trivia right =>
    let (belowLeft, l) := left.terms n
    let (belowRight, r) := right.terms (n + belowLeft.length)
    let i := n + belowLeft.length + belowRight.length
    let text := l.text ++ detokenize (gap ++ op :: trivia) ++ r.text
    (belowLeft ++ belowRight ++ [{ l with index := i }, { r with index := i + 1 }],
      ⟨.binary, 0, [.named op.sourceText, .indexed i, .indexed (i + 1)], none, text, none⟩)

def Phrase.terms (n : Nat) : Phrase → List Term × Term
  | .mk leading core gap junk trailing =>
    let (below, t) := core.terms n
    let text := detokenize leading ++ t.text ++ detokenize (gap ++ junk ++ trailing)
    (below, { t with index := n + below.length, text := text, error := junkError junk })

/-- The terms of arguments, the references to them and their text. -/
def Args.terms (n : Nat) : Args → List Term × List Ref × String
  | .nil => ([], [], "")
  | .trivia t rest =>
    let (terms, refs, text) := rest.terms n
    (terms, refs, t.sourceText ++ text)
  | .phrase p rest =>
    let (below, t) := p.terms n
    let (terms, refs, text) := rest.terms (n + below.length + 1)
    (below ++ t :: terms, .indexed t.index :: refs, t.text ++ text)

end

namespace Block

def ofPhrases (n : Nat) : List Phrase → Block
  | [] => []
  | p :: ps =>
    let (below, t) := p.terms n
    below ++ t :: ofPhrases (n + below.length + 1) ps

def parse (g : Grammar) (tokens : List Token) : Except ParseError Block :=
  (g.program tokens).map (ofPhrases 0)

def parseSource (source : String) : Except ParseError Block :=
  parse {} (tokenize source)

end Block

end Verbatim
