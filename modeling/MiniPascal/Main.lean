import MiniPascal.Command.Run

/-!
The command on the files of the system.
-/

namespace MiniPascal.Command

def fileError : IO.Error → FileError
  | .noFileOrDirectory .. => .notFound
  | .inappropriateType .. => .isDirectory
  | e => .other (toString e)

def readText (path : String) : IO (Except FileError String) := do
  try
    match String.fromUTF8? (← IO.FS.readBinFile path) with
    | some text => return .ok text
    | none => return .error .notText
  catch e => return .error (fileError e)

def writeText (path text : String) : IO (Except FileError Unit) := do
  try
    IO.FS.writeFile path text
    return .ok ()
  catch e => return .error (fileError e)

end MiniPascal.Command

def main (args : List String) : IO UInt32 := do
  let outcome ← MiniPascal.Command.run ⟨MiniPascal.Command.readText, MiniPascal.Command.writeText⟩ args
  IO.print outcome.stdout
  IO.eprint outcome.stderr
  return outcome.exit.toUInt32
