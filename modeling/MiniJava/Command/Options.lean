import MiniJava.Report

namespace MiniJava

inductive UsageError
  | unknownArgument
  | flagValue
  | repeatedFlag
  | emptyFile
  | missingFile
  | help
  | version
deriving DecidableEq

inductive LogLevel
  | warn
  | debug
  | trace
deriving DecidableEq

def LogLevel.name : LogLevel → String
  | warn => "WARN"
  | debug => "DEBUG"
  | trace => "TRACE"

structure Options where
  file : String
  output : OutputOptions
  verbosity : Nat
deriving DecidableEq

def Options.logLevel (o : Options) : LogLevel :=
  match o.verbosity with
  | 0 => .warn
  | 1 => .debug
  | _ => .trace

inductive Flag
  | tree
  | code
  | asDocument
  | verbose
  | help
  | version
deriving DecidableEq

namespace Flag

def ofLong? : String → Option Flag
  | "print-ast" => some tree
  | "print-bytecode" => some code
  | "json" => some asDocument
  | "verbose" => some verbose
  | "help" => some help
  | "version" => some version
  | _ => none

def ofShort? : Char → Option Flag
  | 'v' => some verbose
  | 'h' => some help
  | 'V' => some version
  | _ => none

end Flag

inductive Argument
  | value (words : String)
  | separator
  | long (name : String) (hasValue : Bool)
  | short (letters : List Char)

-- Reads an argument before the separator. A lone dash is a value.
def Argument.ofText (words : String) : Argument :=
  match words.toList with
  | ['-', '-'] => separator
  | '-' :: '-' :: rest =>
    long (String.ofList (rest.takeWhile (· ≠ '='))) (rest.contains '=')
  | '-' :: c :: rest => short (c :: rest)
  | _ => value words

structure Request where
  file : Option String
  output : OutputOptions
  verbosity : Nat
  onlyValues : Bool

namespace Request

def empty : Request := ⟨none, ⟨false, false, false⟩, 0, false⟩

def maxVerbosity : Nat := 255

def once (isSet : Bool) (r : Request) : Except UsageError Request :=
  if isSet then .error .repeatedFlag else .ok r

-- Takes a flag. The name of the file is looked at now, if it stands before the flag.
def flag (r : Request) (f : Flag) : Except UsageError Request :=
  if r.file = some "" then .error .emptyFile
  else match f with
    | .tree => once r.output.tree { r with output.tree := true }
    | .code => once r.output.code { r with output.code := true }
    | .asDocument => once r.output.asDocument { r with output.asDocument := true }
    | .verbose => .ok { r with verbosity := min (r.verbosity + 1) maxVerbosity }
    | .help => .error .help
    | .version => .error .version

def value (r : Request) (words : String) : Except UsageError Request :=
  if r.file.isSome then .error .unknownArgument else .ok { r with file := some words }

def letters (r : Request) : List Char → Except UsageError Request
  | [] => .ok r
  | c :: rest => do
    match Flag.ofShort? c with
    | none => throw .unknownArgument
    | some f => letters (← r.flag f) rest

def argument (r : Request) (words : String) : Except UsageError Request :=
  if r.onlyValues then r.value words
  else match Argument.ofText words with
    | .value words => r.value words
    | .separator => .ok { r with onlyValues := true }
    | .short cs => r.letters cs
    | .long name hasValue =>
      match Flag.ofLong? name with
      | none => .error .unknownArgument
      | some f => if hasValue then .error .flagValue else r.flag f

def options (r : Request) : Except UsageError Options :=
  match r.file with
  | none => .error .missingFile
  | some file =>
    if file = "" then .error .emptyFile else .ok ⟨file, r.output, r.verbosity⟩

end Request

-- Reads a command line. The first thing wrong with it is told.
def Options.ofArguments (arguments : List String) : Except UsageError Options := do
  (← arguments.foldlM Request.argument .empty).options

end MiniJava
