import MiniJava.Code.Document
import MiniJava.Code.Program
import MiniJava.Tree.Shape

namespace MiniJava

structure OutputOptions where
  tree : Bool
  code : Bool
  asDocument : Bool
deriving DecidableEq

namespace Compilation

def methodDocument (handle : Nat) (method : MethodCode) : Document :=
  .record
    [("handle", .nat handle), ("name", .text method.name), ("chunk", method.chunk.document)]

def document (options : OutputOptions) (c : Compilation) : Document :=
  let methods := .list (c.code.toList.map fun (handle, method) => methodDocument handle method)
  let tree := if options.tree then [("ast", c.program.shape.document)] else []
  (Document.record (("methods", methods) :: tree)).sorted

def listing (handle : Nat) (method : MethodCode) : String :=
  method.name ++ " (" ++ (MethodHandle.mk handle).text ++ "):\n" ++ method.chunk.listing

-- What is printed of a compilation. If nothing is asked for, it is the number of methods.
def render (options : OutputOptions) (c : Compilation) : String :=
  if options.asDocument then (c.document options).render
  else if options.tree || options.code then
    let tree := if options.tree then c.program.shape.outline ++ "\n" else ""
    let code := if options.code then
        String.join (c.code.toList.map fun (handle, method) => listing handle method)
      else ""
    tree ++ code
  else "compiled " ++ toString c.code.size ++ " method(s)\n"

end Compilation

end MiniJava
