import MiniJava.Diagnostic.Basic
import MiniJava.Text.Document

namespace MiniJava

def Position.document (p : Position) : Document :=
  .record [("line", .nat p.line), ("column", .nat p.column)]

def Diagnostic.document (d : Diagnostic) : Document :=
  .record
    [("kind", .text d.kind.name), ("message", .text d.message),
      ("position", .optional Position.document d.position)]

namespace CompileError

def lines (e : CompileError) : List String :=
  e.diagnostics.map Diagnostic.text ++ [e.summary]

-- The report of a failure. As a document it lists the diagnostics; an internal failure has none and
-- is always told in words.
def render (asDocument : Bool) : CompileError → String
  | rejected diagnostics =>
    if asDocument then (Document.list (diagnostics.map Diagnostic.document)).render
    else "\n".intercalate (rejected diagnostics).lines
  | internal error => (internal error).summary

end CompileError

end MiniJava
