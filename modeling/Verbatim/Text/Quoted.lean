import Verbatim.Text.Hex
import Verbatim.Text.Printable

/-! # Quoted text

A text in double quotes, on one line and in printable characters only. Quotes, backslashes and
the common controls have short escapes, other unprintable characters their code point.
-/

namespace Verbatim.Text

/-- What stands for one character between the quotes. -/
def escape (c : Char) : List Char :=
  match c with
  | '\x00' => ['\x5c', '0']
  | '\t' => ['\x5c', 't']
  | '\r' => ['\x5c', 'r']
  | '\n' => ['\x5c', 'n']
  | '\x22' => ['\x5c', '\x22']
  | '\x5c' => ['\x5c', '\x5c']
  | _ => if isPrintable c then [c] else ['\x5c', 'u', '\x7b'] ++ hex c.toNat ++ ['\x7d']

def quoted (s : String) : String :=
  String.ofList ('\x22' :: (s.toList.flatMap escape ++ ['\x22']))

def quotedOption : Option String → String
  | none => "None"
  | some s => "Some(" ++ quoted s ++ ")"

end Verbatim.Text
