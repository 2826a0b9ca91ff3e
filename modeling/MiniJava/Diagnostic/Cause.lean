import MiniJava.Symbol.StaticType
import MiniJava.Token.Basic
import MiniJava.Tree.Form

namespace MiniJava

inductive Expectation
  | token (kind : TokenKind)
  | identifier
  | aType
  | namedType (name : String)
deriving DecidableEq

def Expectation.display : Expectation → String
  | token kind => kind.display
  | identifier => "an identifier"
  | aType => "a type"
  | namedType name => TokenKind.quoted name

inductive SyntaxError
  | unexpected (expected : Expectation) (found : TokenKind)
  | declarationStart (found : TokenKind)
  | statementKeyword (found : Keyword)
  | expressionKeyword (found : Keyword)
  | termStart (found : TokenKind)
  | notAStatement (form : ExpressionForm)
deriving DecidableEq

def SyntaxError.message : SyntaxError → String
  | unexpected expected found => "expected " ++ expected.display ++ " but found " ++ found.display
  | declarationStart found => "invalid " ++ found.display ++ " starting a declaration"
  | statementKeyword found =>
    "invalid keyword " ++ TokenKind.quoted found.spelling ++ " starting a statement"
  | expressionKeyword found =>
    "invalid start token " ++ TokenKind.quoted found.spelling ++ " for an expression"
  | termStart found => "invalid start token " ++ found.display ++ " for a term in an expression"
  | notAStatement form => form.describe ++ " cannot form a statement on its own"

inductive Entity
  | aClass
  | superclass
  | aType
  | method
  | aVariable
deriving DecidableEq

def Entity.word : Entity → String
  | aClass => "class"
  | superclass => "superclass"
  | aType => "type"
  | method => "method"
  | aVariable => "variable"

inductive SlotUse
  | parameters
  | locals
deriving DecidableEq

def SlotUse.words : SlotUse → String
  | parameters => "parameters"
  | locals => "local variables"

-- The largest slot number of an instruction.
def maxSlot : Nat := 65535

inductive SemanticError
  | duplicate (entity : Entity) (name : String)
  | unresolved (entity : Entity) (name : String)
  | extendsBuiltin (className superclass : String)
  | cyclicInheritance (className : String)
  | slotsExhausted (use : SlotUse)
  | cannotAssign (form : ExpressionForm)
  | thisInMain
  | notIndexable (type : StaticType)
  | lengthOfNonArray
  | notCallable (method : String) (type : StaticType)
  | argumentCount (method : String) (parameters arguments : Nat)
deriving DecidableEq

def SemanticError.message : SemanticError → String
  | duplicate entity name => "duplicate definition of " ++ entity.word ++ " " ++ TokenKind.quoted name
  | unresolved entity name => "cannot find " ++ entity.word ++ " " ++ TokenKind.quoted name
  | extendsBuiltin className superclass =>
    "class " ++ TokenKind.quoted className ++ " cannot extend built-in type " ++
      TokenKind.quoted superclass
  | cyclicInheritance className =>
    "cyclic inheritance involving class " ++ TokenKind.quoted className
  | slotsExhausted use =>
    "too many " ++ use.words ++ " in one method (at most " ++ toString maxSlot ++ ")"
  | cannotAssign form =>
    "cannot assign to " ++ form.describe ++ "; expected a variable or array element"
  | thisInMain => "`this` cannot be used in the static main method"
  | notIndexable type => "cannot index into a value of type " ++ TokenKind.quoted type.display
  | lengthOfNonArray => "`length` can only be applied to arrays"
  | notCallable method type =>
    "cannot call method " ++ TokenKind.quoted method ++ " on a value of type " ++
      TokenKind.quoted type.display
  | argumentCount method parameters arguments =>
    "method " ++ TokenKind.quoted method ++ " takes " ++ toString parameters ++
      " argument(s) but " ++ toString arguments ++ " were supplied"

-- Why code cannot be generated. None of it is the program's fault, so no position is told.
inductive InternalError
  | noMainClass
  | mainNotResolved
  | methodNotResolved (className method : String)
  | erroneousTree
  | labelsUnbound (labels : List Nat)
  | noStaticType (node : Nat)
  | variableNotResolved (node : Nat)
  | callNotResolved (method : String)
  | notAnArray (node : Nat)
  | cannotAssign (form : ExpressionForm)
  | noSlot
  | noTypeHandle (name : String)
  | noMethodHandle (symbol : Nat)
  | noFieldHandle (symbol : Nat)
  | noConstructor (type : Nat)
  | stated (words : String)
deriving DecidableEq

def InternalError.message : InternalError → String
  | noMainClass => "program has no main class"
  | mainNotResolved => "main method was not resolved"
  | methodNotResolved className method =>
    "method " ++ TokenKind.quoted (className ++ "." ++ method) ++ " was not resolved"
  | erroneousTree => "cannot generate code for a tree with parse errors"
  | labelsUnbound labels =>
    "labels left unbound: [" ++
      ", ".intercalate (labels.map fun label => "Label(" ++ toString label ++ ")") ++ "]"
  | noStaticType node => "no static type for node #" ++ toString node
  | variableNotResolved node => "variable at node #" ++ toString node ++ " was not resolved"
  | callNotResolved method => "call to " ++ TokenKind.quoted method ++ " was not resolved"
  | notAnArray node => "node #" ++ toString node ++ " is indexed but is not an array"
  | cannotAssign form => "cannot assign to " ++ form.describe
  | noSlot => "variable has no argument or local slot"
  | noTypeHandle name => "no type handle for " ++ TokenKind.quoted name
  | noMethodHandle symbol => "no method handle for SymbolId(" ++ toString symbol ++ ")"
  | noFieldHandle symbol => "no field handle for SymbolId(" ++ toString symbol ++ ")"
  | noConstructor type => "no constructor for type#" ++ toString type
  | stated words => words

end MiniJava
