import Verbatim.Block.Basic
import Verbatim.Token.Basic

/-! # Structured data

The values that structured output formats write, and the form that tokens and blocks take in
them. Fields that hold nothing are left out.
-/

namespace Verbatim

inductive Datum where
  | number (n : Nat)
  | text (s : String)
  | list (items : List Datum)
  | record (fields : List (String × Datum))
  /-- A value marked with the name of its case. -/
  | tagged (tag : String) (value : Datum)
  deriving Repr

def Datum.optional (key : String) : Option Datum → List (String × Datum)
  | none => []
  | some value => [(key, value)]

def Token.datum (t : Token) : Datum :=
  .record <|
    [("kind", .text t.kind.label),
      ("span", .record [("start", .number t.span.start), ("end", .number t.span.stop)]),
      ("line_number", .number t.line),
      ("char_number", .number t.column),
      ("indent", .number t.indent)] ++
    Datum.optional "text" (t.text.map .text)

def Ref.datum : Ref → Datum
  | named name => .tagged "named" (.text name)
  | indexed index => .tagged "indexed" (.number index)

mutual

def Term.datum : Term → Datum
  | ⟨kind, index, inputs, nested, text, error⟩ =>
    .record <|
      [("term_type", .text kind.label),
        ("block_index", .number index),
        ("inputs", .list (inputs.map Ref.datum))] ++
      (match nested with
        | none => []
        | some terms => [("nested", .record [("terms", .list (Term.data terms))])]) ++
      [("format", .text text)] ++
      Datum.optional "parse_error" (error.map .text)

def Term.data : List Term → List Datum
  | [] => []
  | t :: ts => t.datum :: Term.data ts

end

def Block.datum (b : Block) : Datum :=
  .record [("terms", .list (Term.data b))]

end Verbatim
