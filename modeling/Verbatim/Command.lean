import Verbatim.Block.OfExpr
import Verbatim.Format
import Verbatim.Text.Digits
import Verbatim.Token.Lines

/-! # Commands

The command line as a function from arguments and file contents to what is printed. `tokens` and
`parse` each take a path, an output format and, for tokens, the number of a line, from one on.
-/

namespace Verbatim

structure Arguments where
  path : Option String := none
  line : Option String := none
  format : Option String := none
  deriving DecidableEq, Repr

namespace Arguments

inductive Form where
  | operand
  | line (value : Option String)
  | format (value : Option String)
  | unknown
  deriving DecidableEq, Repr

namespace Form

def ofLong (cs : List Char) : Form :=
  let value :=
    match cs.dropWhile (· != '=') with
    | [] => none
    | _ :: v => some (String.ofList v)
  let name := String.ofList (cs.takeWhile (· != '='))
  if name = "line" then line value
  else if name = "format" then format value
  else unknown

def ofShort (letter : Char) (cs : List Char) : Form :=
  let value :=
    match cs with
    | [] => none
    | '=' :: v => some (String.ofList v)
    | v => some (String.ofList v)
  if letter = 'l' then line value
  else if letter = 'f' then format value
  else unknown

def ofString (s : String) : Form :=
  match s.toList with
  | '-' :: '-' :: cs => ofLong cs
  | '-' :: letter :: cs => ofShort letter cs
  | _ => operand

end Form

def withPath (a : Arguments) (s : String) : Option Arguments :=
  if a.path.isSome then none else some { a with path := some s }

def withLine (a : Arguments) (s : String) : Option Arguments :=
  if a.line.isSome then none else some { a with line := some s }

def withFormat (a : Arguments) (s : String) : Option Arguments :=
  if a.format.isSome then none else some { a with format := some s }

/-- Adds arguments in order. After two dashes all are paths. Nothing may be given twice, and what
looks like an option is not the value of one. -/
def addAll (a : Arguments) : List String → Option Arguments
  | [] => some a
  | "--" :: rest => rest.foldlM withPath a
  | s :: rest =>
    match Form.ofString s, rest with
    | .operand, rest => do (← a.withPath s).addAll rest
    | .line (some v), rest => do (← a.withLine v).addAll rest
    | .format (some v), rest => do (← a.withFormat v).addAll rest
    | .line none, v :: rest =>
      if Form.ofString v = .operand then do (← a.withLine v).addAll rest else none
    | .format none, v :: rest =>
      if Form.ofString v = .operand then do (← a.withFormat v).addAll rest else none
    | _, _ => none

end Arguments

inductive Command where
  | version
  | tokens (path : String) (line : Option Nat) (format : String)
  | parse (path format : String)
  deriving DecidableEq, Repr

inductive ReadError where
  | notFound
  | isDirectory
  | notUtf8
  | other (text : String)
  deriving DecidableEq, Repr

def ReadError.message : ReadError → String
  | notFound => "No such file or directory (os error 2)"
  | isDirectory => "Is a directory (os error 21)"
  | notUtf8 => "stream did not contain valid UTF-8"
  | other text => text

inductive Command.Error where
  | format (e : FormatError)
  | read (path : String) (e : ReadError)
  | lineZero
  | parse (path : String) (e : ParseError)
  deriving DecidableEq, Repr

def Command.Error.message : Command.Error → String
  | format e => e.message
  | read path e => "reading file " ++ path ++ ": " ++ e.message
  | lineZero => "line numbers start at 1"
  | parse path e => path ++ ": " ++ e.message

namespace Command

/-- A line number fits into 64 bits and may have a plus sign. -/
def lineNumber? (s : String) : Option Nat :=
  let digits :=
    match s.toList with
    | '+' :: cs => cs
    | cs => cs
  (Text.digits? 10 digits).filter (· < UInt64.size)

def tokensOf (a : Arguments) : Option Command := do
  let path ← a.path
  let format := a.format.getD "text"
  match a.line with
  | none => some (.tokens path none format)
  | some s => do some (.tokens path (some (← lineNumber? s)) format)

def parseOf (a : Arguments) : Option Command := do
  let path ← a.path
  if a.line.isSome then none else some (.parse path (a.format.getD "treeviz"))

def ofArgs : List String → Option Command
  | [] => none
  | "--version" :: _ => some .version
  | "tokens" :: rest => do tokensOf (← Arguments.addAll {} rest)
  | "parse" :: rest => do parseOf (← Arguments.addAll {} rest)
  | s :: _ => if "-V".isPrefixOf s then some .version else none

def path? : Command → Option String
  | version => none
  | tokens path _ _ => some path
  | parse path _ => some path

def select (ts : List Token) : Option Nat → Except Error (List Token)
  | none => .ok ts
  | some 0 => .error .lineZero
  | some (n + 1) => .ok (Token.onLine ts n)

def decode (path : String) (contents : Except ReadError ByteArray) : Except Error String :=
  match contents with
  | .error e => .error (.read path e)
  | .ok bytes =>
    match String.fromUTF8? bytes with
    | none => .error (.read path .notUtf8)
    | some source => .ok source

def run (contents : Except ReadError ByteArray) : Command → Except Error String
  | version => .ok "loose 0.1.0\n"
  | tokens path line name => do
    let format ← (Format.ofName name).mapError .format
    let source ← decode path contents
    let selected ← select (tokenize source) line
    (format.renderTokens selected).mapError .format
  | parse path name => do
    let format ← (Format.ofName name).mapError .format
    let source ← decode path contents
    let block ← (Block.parseSource source).mapError (.parse path)
    (format.renderBlock block).mapError .format

end Command

end Verbatim
