import MiniJava.Command.Run

namespace MiniJava.Command

def fileError : IO.Error → FileError
  | .noFileOrDirectory .. => .notFound
  | .inappropriateType .. => .isDirectory
  | other => .stated (toString other)

def readFile (path : String) : IO (Except FileError String) := do
  try
    return decodeText (← IO.FS.readBinFile path)
  catch error =>
    return .error (fileError error)

def runOnSystem (arguments : List String) : IO Outcome := do
  match Options.ofArguments arguments with
  | .error error => return refuse error
  | .ok options => return respond options (← readFile options.file)

end MiniJava.Command

def main (arguments : List String) : IO UInt32 := do
  let outcome ← MiniJava.Command.runOnSystem arguments
  IO.print outcome.output
  IO.eprint outcome.errors
  return UInt32.ofNat outcome.exitCode
