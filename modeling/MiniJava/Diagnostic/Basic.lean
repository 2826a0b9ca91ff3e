import MiniJava.Diagnostic.Cause

namespace MiniJava

inductive DiagnosticKind
  | lexical
  | grammatical
  | semantic
deriving DecidableEq

def DiagnosticKind.word : DiagnosticKind → String
  | lexical => "lexical"
  | grammatical => "syntax"
  | semantic => "semantic"

def DiagnosticKind.name : DiagnosticKind → String
  | lexical => "Lexical"
  | grammatical => "Syntax"
  | semantic => "Semantic"

inductive Problem
  | lexical (error : LexicalError)
  | grammatical (error : SyntaxError)
  | semantic (error : SemanticError)
  | stated (kind : DiagnosticKind) (words : String)
deriving DecidableEq

namespace Problem

def kind : Problem → DiagnosticKind
  | lexical _ => .lexical
  | grammatical _ => .grammatical
  | semantic _ => .semantic
  | stated kind _ => kind

def message : Problem → String
  | lexical error => error.message
  | grammatical error => error.message
  | semantic error => error.message
  | stated _ words => words

end Problem

structure Diagnostic where
  problem : Problem
  position : Option Position
deriving DecidableEq

namespace Diagnostic

def lexical (error : LexicalError) (position : Position) : Diagnostic :=
  ⟨.lexical error, position⟩

def grammatical (error : SyntaxError) (position : Position) : Diagnostic :=
  ⟨.grammatical error, position⟩

def semantic (error : SemanticError) (position : Position) : Diagnostic :=
  ⟨.semantic error, position⟩

def kind (d : Diagnostic) : DiagnosticKind :=
  d.problem.kind

def message (d : Diagnostic) : String :=
  d.problem.message

def text (d : Diagnostic) : String :=
  let words := d.kind.word ++ " error: " ++ d.message
  match d.position with
  | some position => position.text ++ ": " ++ words
  | none => words

end Diagnostic

inductive CompileError
  | rejected (diagnostics : List Diagnostic)
  | internal (error : InternalError)
deriving DecidableEq

namespace CompileError

def diagnostics : CompileError → List Diagnostic
  | rejected diagnostics => diagnostics
  | internal _ => []

def summary : CompileError → String
  | rejected diagnostics =>
    "compilation failed with " ++ toString diagnostics.length ++ " error(s)"
  | internal error => "internal compiler error: " ++ error.message

end CompileError

def acceptUnless (diagnostics : List Diagnostic) (value : α) : Except CompileError α :=
  if diagnostics.isEmpty then .ok value else .error (.rejected diagnostics)

end MiniJava
