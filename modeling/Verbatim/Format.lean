import Verbatim.Block.Outline
import Verbatim.Datum.Json
import Verbatim.Datum.Yaml.Document

/-! # Output formats

Tokens are written as a listing or as structured data, blocks as an outline or as structured data.
-/

namespace Verbatim

inductive Format where
  | text
  | treeviz
  | json
  | yaml
  deriving DecidableEq, Repr

inductive FormatError where
  | unknown (name : String)
  | unsupported (format : Format) (sort : String)
  deriving DecidableEq, Repr

namespace Format

def all : List Format :=
  [text, treeviz, json, yaml]

def name : Format → String
  | text => "text"
  | treeviz => "treeviz"
  | json => "json"
  | yaml => "yaml"

def ofName (s : String) : Except FormatError Format :=
  match all.find? (·.name == s) with
  | some f => .ok f
  | none => .error (.unknown s)

end Format

def FormatError.message : FormatError → String
  | unknown name => "Unknown format: " ++ name
  | unsupported format sort => "Format '" ++ format.name ++ "' cannot render " ++ sort

def listing (tokens : List Token) : String :=
  tokens.foldr (fun t s => t.describe ++ "\n" ++ s) ""

def Format.renderTokens (tokens : List Token) : Format → Except FormatError String
  | text => .ok (listing tokens)
  | treeviz => .error (.unsupported .treeviz "tokens")
  | json => .ok (Json.document (.list (tokens.map Token.datum)))
  | yaml => .ok (Yaml.document (.list (tokens.map Token.datum)))

def Format.renderBlock (b : Block) : Format → Except FormatError String
  | text => .error (.unsupported .text "blocks")
  | treeviz => .ok b.outline
  | json => .ok (Json.document b.datum)
  | yaml => .ok (Yaml.document b.datum)

end Verbatim
