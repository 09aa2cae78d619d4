import Verbatim.Command

/-! # The program

Reads the file that a command names, runs the command and prints what it answers. Arguments that
are not in order end with exit code 2, failures with exit code 1.
-/

namespace Verbatim

def usage : String :=
  "usage: loose tokens PATH [--line N] [--format text|json|yaml]\n" ++
    "       loose parse PATH [--format treeviz|json|yaml]\n"

def readErrorOf (e : IO.Error) : ReadError :=
  match e with
  | .noFileOrDirectory .. => .notFound
  | .inappropriateType .. => .isDirectory
  | _ => .other (toString e)

def readContents (path : String) : IO (Except ReadError ByteArray) := do
  try
    return .ok (← IO.FS.readBinFile path)
  catch e =>
    return .error (readErrorOf e)

end Verbatim

open Verbatim in
def main (args : List String) : IO UInt32 := do
  match Command.ofArgs args with
  | none =>
    IO.eprint usage
    return 2
  | some command =>
    let contents ←
      match command.path? with
      | none => pure (.ok ByteArray.empty)
      | some path => readContents path
    match command.run contents with
    | .ok out =>
      IO.print out
      return 0
    | .error e =>
      IO.eprint ("Error: " ++ e.message ++ "\n")
      return 1
