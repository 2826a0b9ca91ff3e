import MiniJava.Command.FileTree
import MiniJava.Command.Options

namespace MiniJava

structure Outcome where
  exitCode : Nat
  output : String
  errors : String
deriving DecidableEq

namespace Command

def helpText : String :=
  "Compile a MiniJava program to stack-machine bytecode\n\n" ++
  "Usage: mjc [OPTIONS] <FILE>\n\n" ++
  "Arguments:\n" ++
  "  <FILE>  MiniJava source file to compile\n\n" ++
  "Options:\n" ++
  "      --print-ast       Print the abstract syntax tree\n" ++
  "      --print-bytecode  Print the generated instructions of every method\n" ++
  "      --json            Emit output and diagnostics as JSON\n" ++
  "  -v, --verbose...      Increase log verbosity (-v debug, -vv trace)\n" ++
  "  -h, --help            Print help\n" ++
  "  -V, --version         Print version\n"

def versionText : String := "mjc 0.1.0\n"

def usageText : UsageError → String
  | .unknownArgument => "error: unexpected argument"
  | .flagValue => "error: unexpected value for a flag"
  | .repeatedFlag => "error: a flag cannot be used multiple times"
  | .emptyFile => "error: a value is required for '<FILE>' but none was supplied"
  | .missingFile => "error: the following required arguments were not provided:\n  <FILE>"
  | .help => helpText
  | .version => versionText

def refuse : UsageError → Outcome
  | .help => ⟨0, helpText, ""⟩
  | .version => ⟨0, versionText, ""⟩
  | error => ⟨2, "", usageText error ++ "\n\nUsage: mjc [OPTIONS] <FILE>\n\n" ++
      "For more information, try '--help'.\n"⟩

def respond (o : Options) : Except FileError String → Outcome
  | .error error =>
    ⟨1, "", "Error: Could not read file '" ++ o.file ++ "': " ++ error.message ++ "\n"⟩
  | .ok source =>
    match Compilation.ofText source with
    | .ok compilation => ⟨0, compilation.render o.output, ""⟩
    | .error error => ⟨1, "", error.render o.output.asDocument ++ "\n"⟩

def run (arguments : List String) (files : FileTree) : Outcome :=
  match Options.ofArguments arguments with
  | .error error => refuse error
  | .ok options => respond options (files.read options.file)

end Command

end MiniJava
