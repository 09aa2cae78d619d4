import Verbatim.Datum.Yaml.Implicit
import Verbatim.Text.Hex

/-! # YAML scalars

How a text is written in YAML: bare if that is safe, as a block of lines if it has line feeds,
else in single quotes or, where those do not do, in double quotes with escapes.
-/

namespace Verbatim.Yaml

inductive Style where
  | plain
  | single
  | double
  | literal
  deriving DecidableEq, Repr

def isBreak (c : Char) : Bool :=
  c == '\n' || c == '\r' || c == '\u0085' || c == '\u2028' || c == '\u2029'

def isSpecial (c : Char) : Bool :=
  let n := c.toNat
  !(c == '\n' || (0x20 ≤ n && n ≤ 0x7e) ||
    (0xa0 ≤ n && n != 0xfeff && n != 0xfffe && n != 0xffff))

def isBoundary : Option Char → Bool
  | none => true
  | some c => c == ' ' || c == '\t' || c == '\x00' || isBreak c

def indicators : List Char :=
  ['#', ',', '[', ']', '\x7b', '\x7d', '&', '*', '!', '|', '>', '\x27', '\x22', '%', '@', '\x60']

/-- A colon that ends a key, or the start of a comment, after the character `before`. -/
def indicatesLater (before : Char) : List Char → Bool
  | [] => false
  | c :: cs =>
    (c == ':' && isBoundary cs.head?) || (c == '#' && isBoundary (some before)) ||
      indicatesLater c cs

def hasIndicator : List Char → Bool
  | [] => false
  | c :: cs =>
    "---".toList.isPrefixOf (c :: cs) || "...".toList.isPrefixOf (c :: cs) ||
      indicators.contains c || (['?', ':', '-'].contains c && isBoundary cs.head?) ||
      indicatesLater c cs

def anyPair (p : Char → Char → Bool) : List Char → Bool
  | c :: d :: cs => p c d || anyPair p (d :: cs)
  | _ => false

def spaceAfterBreak (cs : List Char) : Bool :=
  anyPair (fun c d => isBreak c && d == ' ') cs

def breakAfterSpace (cs : List Char) : Bool :=
  anyPair (fun c d => c == ' ' && isBreak d) cs

def atEnd (p : Char → Bool) (cs : List Char) : Bool :=
  cs.getLast?.any p

def allowsPlain (cs : List Char) : Bool :=
  !(cs.head?.any (· == ' ') || atEnd (· == ' ') cs || cs.any isBreak || cs.any isSpecial ||
    hasIndicator cs)

def allowsSingle (cs : List Char) : Bool :=
  !(cs.any isSpecial || spaceAfterBreak cs || breakAfterSpace cs)

def allowsLiteral (cs : List Char) : Bool :=
  !(atEnd (· == ' ') cs || breakAfterSpace cs || cs.any isSpecial)

def style (cs : List Char) : Style :=
  if cs.contains '\n' then
    if allowsLiteral cs then .literal else .double
  else if !cs.isEmpty && !readsAsOther cs && allowsPlain cs then .plain
  else if allowsSingle cs then .single
  else .double

/-- Lines with a margin of `indent` spaces. The margin of a line is written before its first
character, so that empty lines have none; `fresh` says that a line has just begun. -/
def lines (indent : Nat) (escape : Char → List Char) (fresh : Bool) : List Char → List Char
  | [] => []
  | c :: cs =>
    if isBreak c then c :: lines indent escape true cs
    else
      (if fresh then List.replicate indent ' ' else []) ++ escape c ++
        lines indent escape false cs

def escapeSingle (c : Char) : List Char :=
  if c = '\x27' then ['\x27', '\x27'] else [c]

def single (indent : Nat) (cs : List Char) : List Char :=
  let margin := if atEnd isBreak cs then List.replicate indent ' ' else []
  '\x27' :: (lines indent escapeSingle false cs ++ margin ++ ['\x27'])

def escapeDouble (c : Char) : List Char :=
  match c with
  | '\x22' => ['\x5c', '\x22']
  | '\x5c' => ['\x5c', '\x5c']
  | '\x00' => ['\x5c', '0']
  | '\x07' => ['\x5c', 'a']
  | '\x08' => ['\x5c', 'b']
  | '\t' => ['\x5c', 't']
  | '\n' => ['\x5c', 'n']
  | '\x0b' => ['\x5c', 'v']
  | '\x0c' => ['\x5c', 'f']
  | '\r' => ['\x5c', 'r']
  | '\x1b' => ['\x5c', 'e']
  | '\u0085' => ['\x5c', 'N']
  | '\u2028' => ['\x5c', 'L']
  | '\u2029' => ['\x5c', 'P']
  | _ =>
    if !isSpecial c then [c]
    else if c.toNat ≤ 0xff then ['\x5c', 'x'] ++ Text.hexUpper 2 c.toNat
    else if c.toNat ≤ 0xffff then ['\x5c', 'u'] ++ Text.hexUpper 4 c.toNat
    else ['\x5c', 'U'] ++ Text.hexUpper 8 c.toNat

def double (cs : List Char) : List Char :=
  '\x22' :: (cs.flatMap escapeDouble ++ ['\x22'])

/-- What the header of a block of lines says of its end: whether the last break counts, and
whether more follow it. -/
def chomping (cs : List Char) : List Char :=
  match cs.reverse with
  | [] => ['-']
  | c :: before =>
    if !isBreak c then ['-']
    else if before.head?.all isBreak then ['+']
    else []

def literal (indent : Nat) (cs : List Char) : List Char :=
  let hint := if cs.head?.any (fun c => c == ' ' || isBreak c) then ['2'] else []
  let close := if atEnd isBreak cs then [] else ['\n']
  '|' :: (hint ++ chomping cs ++ '\n' :: (lines indent (fun c => [c]) true cs ++ close))

def scalar (indent : Nat) (s : String) : List Char :=
  let cs := s.toList
  match style cs with
  | .plain => cs ++ ['\n']
  | .single => single indent cs ++ ['\n']
  | .double => double cs ++ ['\n']
  | .literal => literal indent cs

end Verbatim.Yaml
