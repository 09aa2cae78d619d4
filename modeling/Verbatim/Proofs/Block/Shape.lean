import Verbatim.Proofs.Block.Parse
import Verbatim.Proofs.Reading.Lockstep

/-! # Shapes of blocks

The shape of a block is what is left of it without texts: the kinds of its terms, their places and
references, and which of them have errors. Texts and positions of tokens are put into blocks and
errors and never looked at, so tokens of the same kinds have blocks of one shape.
-/

namespace Verbatim

open Token (Kind Stream)

def Token.ofKind (kind : Kind) : Token :=
  ⟨kind, ⟨0, 0⟩, 0, 0, 0, none⟩

/-- What is left of an error without text and position. -/
def ParseError.bare : ParseError → ParseError
  | .expected kind found _ => .expectedAt kind (.ofKind found)
  | .noProduction found _ _ => .noProductionAt (.ofKind found)
  | .tooDeep limit _ => .tooDeepAt limit .endOfStream

/-- The exchange that leaves nothing but the kinds of tokens. -/
def Exchange.bare : Exchange where
  token t := .ofKind t.kind
  error := ParseError.bare
  kind_token _ := rfl
  token_endOfStream := rfl
  error_expectedAt _ _ := rfl
  error_noProductionAt _ := rfl
  error_tooDeepAt _ _ := rfl

namespace Term

/-- A term without its texts: of a named input only the place is left. -/
structure Shape where
  kind : Term.Kind
  index : Nat
  inputs : List (Option Nat)
  hasError : Bool
  deriving DecidableEq, Repr

def shape (t : Term) : Shape :=
  ⟨t.kind, t.index, t.inputs.map Ref.index?, t.hasError⟩

variable {t t' : Term} {ts ts' : List Term}

theorem shape_eq_iff : t.shape = t'.shape ↔ t.kind = t'.kind ∧ t.index = t'.index ∧
    t.inputs.map Ref.index? = t'.inputs.map Ref.index? ∧ t.hasError = t'.hasError := by
  simp only [shape, Shape.mk.injEq]

theorem shape_setIndex (h : t.shape = t'.shape) (i : Nat) :
    shape { t with index := i } = shape { t' with index := i } :=
  congrArg (fun s : Shape => { s with index := i }) h

theorem length_eq_of_shape (h : ts.map shape = ts'.map shape) : ts.length = ts'.length := by
  simpa using congrArg List.length h

end Term

variable (f : Token → Token)

theorem isSome_junkError_map (junk : List Token) :
    (junkError (junk.map f)).isSome = (junkError junk).isSome := by
  cases junk <;> rfl

mutual

theorem Expr.shape_terms_map (n : Nat) : ∀ e : Expr,
    ((e.map f).terms n).1.map Term.shape = (e.terms n).1.map Term.shape ∧
      ((e.map f).terms n).2.shape = (e.terms n).2.shape
  | .name ident => ⟨rfl, rfl⟩
  | .call callee opening args closing => by
    obtain ⟨hb, hr⟩ := args.shape_terms_map n
    exact ⟨hb, Term.shape_eq_iff.mpr ⟨rfl, rfl, congrArg (none :: ·) hr, rfl⟩⟩
  | .binary left gap op trivia right => by
    obtain ⟨hbl, hl⟩ := left.shape_terms_map n
    obtain ⟨hbr, hr⟩ := right.shape_terms_map (n + (left.terms n).1.length)
    simp only [Expr.map, Expr.terms, Term.length_eq_of_shape hbl, Term.length_eq_of_shape hbr,
      List.map_append, List.map_cons, hbl, hbr, Term.shape_setIndex hl, Term.shape_setIndex hr]
    exact ⟨trivial, rfl⟩

theorem Phrase.shape_terms_map (n : Nat) : ∀ p : Phrase,
    ((p.map f).terms n).1.map Term.shape = (p.terms n).1.map Term.shape ∧
      ((p.map f).terms n).2.shape = (p.terms n).2.shape
  | .mk leading core gap junk trailing => by
    obtain ⟨hb, ht⟩ := core.shape_terms_map n
    obtain ⟨hk, -, hi, -⟩ := Term.shape_eq_iff.mp ht
    exact ⟨hb, Term.shape_eq_iff.mpr ⟨hk, congrArg (n + ·) (Term.length_eq_of_shape hb), hi,
      isSome_junkError_map f junk⟩⟩

theorem Args.shape_terms_map (n : Nat) : ∀ args : Args,
    ((args.map f).terms n).1.map Term.shape = (args.terms n).1.map Term.shape ∧
      ((args.map f).terms n).2.1.map Ref.index? = (args.terms n).2.1.map Ref.index?
  | .nil => ⟨rfl, rfl⟩
  | .trivia t rest => rest.shape_terms_map n
  | .phrase p rest => by
    obtain ⟨hb, ht⟩ := p.shape_terms_map n
    obtain ⟨hr, hi⟩ := rest.shape_terms_map (n + (p.terms n).1.length + 1)
    obtain ⟨-, hx, -, -⟩ := Term.shape_eq_iff.mp ht
    simp [Args.map, Args.terms, Term.length_eq_of_shape hb, hb, ht, hr, hx, hi]

end

namespace Block

theorem shape_ofPhrases_map (n : Nat) (ps : List Phrase) :
    (ofPhrases n (ps.map (Phrase.map f))).map Term.shape = (ofPhrases n ps).map Term.shape := by
  induction ps generalizing n with
  | nil => rfl
  | cons p ps ih =>
    obtain ⟨hb, ht⟩ := p.shape_terms_map f n
    simp only [List.map_cons, ofPhrases, Term.length_eq_of_shape hb, List.map_append, hb, ht, ih]

variable {ts us : List Token}

end Block

end Verbatim
