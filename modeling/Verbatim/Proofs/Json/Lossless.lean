import Verbatim.Format
import Verbatim.Proofs.Json.Reader

/-! # Blocks and tokens from JSON

Tokens and blocks can be told from what is written of them as JSON: from the text one reads data,
and from the data one takes the fields by their names. A field that was left out keeps the value
that it has when there is nothing to write.
-/

namespace Verbatim

namespace Token

def Kind.ofLabel? (s : String) : Option Kind :=
  Kind.all.find? (·.label == s)

def setField? (t : Token) : String × Datum → Option Token
  | ("kind", .text s) => (Kind.ofLabel? s).map fun kind => { t with kind }
  | ("span", .record [("start", .number start), ("end", .number stop)]) =>
    some { t with span := ⟨start, stop⟩ }
  | ("line_number", .number line) => some { t with line }
  | ("char_number", .number column) => some { t with column }
  | ("indent", .number indent) => some { t with indent }
  | ("text", .text s) => some { t with text := some s }
  | _ => none

def ofDatum? : Datum → Option Token
  | .record fields => fields.foldlM setField? endOfStream
  | _ => none

def listOfDatum? : Datum → Option (List Token)
  | .list ds => ds.mapM ofDatum?
  | _ => none

end Token

def Ref.ofDatum? : Datum → Option Ref
  | .record [("named", .text name)] => some (named name)
  | .record [("indexed", .number index)] => some (indexed index)
  | _ => none

namespace Term

def Kind.ofLabel? (s : String) : Option Kind :=
  [call, identifier, binary].find? (·.label == s)

def setField? (t : Term) : String × Datum → Option Term
  | ("term_type", .text s) => (Kind.ofLabel? s).map fun kind => { t with kind }
  | ("block_index", .number index) => some { t with index }
  | ("inputs", .list ds) => (ds.mapM Ref.ofDatum?).map fun inputs => { t with inputs }
  | ("format", .text text) => some { t with text }
  | ("parse_error", .text s) => some { t with error := some s }
  | _ => none

def blank : Term :=
  ⟨.identifier, 0, [], none, "", none⟩

mutual

def ofDatum? : Datum → Option Term
  | .record fields => ofFields? blank fields
  | _ => none

def ofFields? (t : Term) : List (String × Datum) → Option Term
  | [] => some t
  | (key, d) :: fields =>
    if key = "nested" then
      (termsOfDatum? d).bind fun terms => ofFields? { t with nested := some terms } fields
    else (t.setField? (key, d)).bind fun u => ofFields? u fields

def termsOfDatum? : Datum → Option (List Term)
  | .record [(key, .list ds)] => if key = "terms" then ofData? ds else none
  | _ => none

def ofData? : List Datum → Option (List Term)
  | [] => some []
  | d :: ds => (ofDatum? d).bind fun t => (ofData? ds).map (t :: ·)

end

end Term

def Block.ofDatum? (d : Datum) : Option Block :=
  Term.termsOfDatum? d

section Decoding

theorem plainItems_map {α : Type} (f : α → Datum) (xs : List α) :
    Datum.plainItems (xs.map f) = xs.map fun x => (f x).plain := by
  induction xs with
  | nil => rfl
  | cons x xs ih => exact congrArg ((f x).plain :: ·) ih

theorem mapM_map_eq_some {α β : Type} {f : β → Option α} {g : α → β} (h : ∀ x, f (g x) = some x)
    (xs : List α) : (xs.map g).mapM f = some xs := by
  induction xs with
  | nil => rfl
  | cons x xs ih => simp [h, ih]

theorem Token.Kind.ofLabel?_label (kind : Kind) : ofLabel? kind.label = some kind := by
  cases kind <;> rfl

theorem Term.Kind.ofLabel?_label (kind : Kind) : ofLabel? kind.label = some kind := by
  cases kind <;> rfl

theorem Token.ofDatum?_datum (t : Token) : ofDatum? t.datum.plain = some t := by
  obtain ⟨kind, span, line, column, indent, text⟩ := t
  have hkind := kind.ofLabel?_label
  cases text <;>
    simp [datum, Datum.optional, Datum.plain, Datum.plainFields, ofDatum?, setField?, hkind,
      endOfStream]

theorem Ref.ofDatum?_datum (r : Ref) : ofDatum? r.datum.plain = some r := by
  cases r <;> rfl

namespace Term

mutual

theorem ofDatum?_datum : ∀ t : Term, ofDatum? t.datum.plain = some t
  | ⟨kind, index, inputs, nested, text, error⟩ => by
    have hkind := kind.ofLabel?_label
    have hinputs : (Datum.plainItems (inputs.map Ref.datum)).mapM Ref.ofDatum? = some inputs := by
      rw [plainItems_map]
      exact mapM_map_eq_some Ref.ofDatum?_datum inputs
    cases nested with
    | none =>
      cases error <;>
        simp [datum, Datum.optional, Datum.plain, Datum.plainFields, ofDatum?, ofFields?, setField?,
          hkind, hinputs, blank]
    | some ts =>
      have hterms := ofData?_data ts
      cases error <;>
        simp [datum, Datum.optional, Datum.plain, Datum.plainFields, ofDatum?, ofFields?, setField?,
          termsOfDatum?, hkind, hinputs, hterms, blank]

theorem ofData?_data : ∀ ts : List Term, ofData? (Datum.plainItems (data ts)) = some ts
  | [] => rfl
  | t :: ts => by
    simp [data, Datum.plainItems, ofData?, ofDatum?_datum t, ofData?_data ts]

end

end Term

theorem Block.ofDatum?_datum (b : Block) : ofDatum? b.datum.plain = some b := by
  simp [datum, Datum.plain, Datum.plainFields, ofDatum?, Term.termsOfDatum?, Term.ofData?_data]

theorem Token.listOfDatum?_datum (ts : List Token) :
    listOfDatum? (Datum.list (ts.map Token.datum)).plain = some ts := by
  rw [Datum.plain, plainItems_map]
  exact mapM_map_eq_some ofDatum?_datum ts

end Decoding

namespace Json

def readBlock (s : String) : Option Block :=
  (read s).bind Block.ofDatum?

def readTokens (s : String) : Option (List Token) :=
  (read s).bind Token.listOfDatum?

theorem readBlock_document (b : Block) : readBlock (document b.datum) = some b := by
  rw [readBlock, read_document, Option.bind_some, b.ofDatum?_datum]

theorem readTokens_document (ts : List Token) :
    readTokens (document (.list (ts.map Token.datum))) = some ts := by
  rw [readTokens, read_document, Option.bind_some, Token.listOfDatum?_datum]

/-- From the JSON text of a block or of tokens one reads back what was written, so the text is
written of nothing else. -/
theorem read_rendered :
    (∀ b : Block, ∃ s, Format.json.renderBlock b = .ok s ∧ readBlock s = some b) ∧
    (∀ ts : List Token, ∃ s, Format.json.renderTokens ts = .ok s ∧ readTokens s = some ts) ∧
    (∀ b b' : Block, Format.json.renderBlock b = Format.json.renderBlock b' ↔ b = b') ∧
    ∀ ts ts' : List Token,
      Format.json.renderTokens ts = Format.json.renderTokens ts' ↔ ts = ts' := by
  refine ⟨fun b => ⟨_, rfl, readBlock_document b⟩, fun ts => ⟨_, rfl, readTokens_document ts⟩,
    fun b b' => ⟨fun h => ?_, fun h => by rw [h]⟩, fun ts ts' => ⟨fun h => ?_, fun h => by rw [h]⟩⟩
  · have hdoc : document b.datum = document b'.datum := Except.ok.inj h
    exact Option.some.inj (by rw [← readBlock_document b, hdoc, readBlock_document b'])
  · have hdoc : document (.list (ts.map Token.datum)) = document (.list (ts'.map Token.datum)) :=
      Except.ok.inj h
    exact Option.some.inj (by rw [← readTokens_document ts, hdoc, readTokens_document ts'])

end Json

end Verbatim
