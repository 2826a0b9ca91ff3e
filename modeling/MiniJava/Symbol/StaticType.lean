namespace MiniJava

inductive StaticType
  | int
  | boolean
  | void
  | object (className : String)
  | array (element : StaticType)
deriving DecidableEq

namespace StaticType

def ofName (name : String) : StaticType :=
  if name = "int" then int
  else if name = "boolean" then boolean
  else if name = "void" then void
  else object name

-- The type of a declaration: a named type, or the array of it.
def ofDeclared (name : String) (isArray : Bool) : StaticType :=
  if isArray then array (ofName name) else ofName name

@[simp]
theorem ofName_eq_int : ofName name = int ↔ name = "int" := by
  unfold ofName
  (repeat' split) <;> simp_all

@[simp]
theorem ofName_eq_boolean : ofName name = boolean ↔ name = "boolean" := by
  unfold ofName
  (repeat' split) <;> simp_all

@[simp]
theorem ofName_eq_void : ofName name = void ↔ name = "void" := by
  unfold ofName
  (repeat' split) <;> simp_all

-- All other names are names of classes.
@[simp]
theorem ofName_eq_object :
    ofName name = object c ↔ name = c ∧ name ≠ "int" ∧ name ≠ "boolean" ∧ name ≠ "void" := by
  unfold ofName
  (repeat' split) <;> simp_all

@[simp]
theorem ofName_ne_array : ofName name ≠ array τ := by
  unfold ofName
  (repeat' split) <;> exact nofun

-- A declaration is of an array if and only if it is written as one.
@[simp]
theorem ofDeclared_eq_array :
    ofDeclared name isArray = array τ ↔ isArray = true ∧ ofName name = τ := by
  cases isArray <;> simp [ofDeclared]

def element? : StaticType → Option StaticType
  | array element => some element
  | _ => none

def isIntegral : StaticType → Bool
  | int | boolean => true
  | _ => false

def className? : StaticType → Option String
  | object name => some name
  | _ => none

-- The written form: the name, with `[]` for every array.
def display : StaticType → String
  | int => "int"
  | boolean => "boolean"
  | void => "void"
  | object name => name
  | array element => element.display ++ "[]"

end StaticType

end MiniJava
