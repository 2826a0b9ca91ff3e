namespace MiniJava

structure TypeHandle where
  number : Nat
deriving DecidableEq

structure MethodHandle where
  number : Nat
deriving DecidableEq

structure FieldHandle where
  number : Nat
deriving DecidableEq

structure ConstructorHandle where
  number : Nat
deriving DecidableEq

structure Label where
  number : Nat
deriving DecidableEq

def TypeHandle.text (h : TypeHandle) : String := "type#" ++ toString h.number

def MethodHandle.text (h : MethodHandle) : String := "method#" ++ toString h.number

def FieldHandle.text (h : FieldHandle) : String := "field#" ++ toString h.number

def ConstructorHandle.text (h : ConstructorHandle) : String := "ctor#" ++ toString h.number

def Label.text (l : Label) : String := "L" ++ toString l.number

inductive ElementKind
  | int
  | reference
deriving DecidableEq

def ElementKind.suffix : ElementKind → String
  | int => "i4"
  | reference => "ref"

-- An instruction pops its operands and pushes its result; receivers and arguments are pushed from
-- left to right.
inductive Opcode
  | pushInt (value : Int)
  | loadArg (argument : Nat)
  | storeArg (argument : Nat)
  | loadLocal (slot : Nat)
  | storeLocal (slot : Nat)
  | loadField (field : FieldHandle)
  | storeField (field : FieldHandle)
  | loadElement (kind : ElementKind)
  | storeElement (kind : ElementKind)
  | arrayLength
  | newArray (element : TypeHandle)
  | newObject (constructor : ConstructorHandle)
  -- Pops the arguments and the receiver and pushes what the method gives, if anything.
  | call (method : MethodHandle)
  | callPrintInt
  | callAssert
  | add
  | sub
  | mul
  | div
  | rem
  | lessThan
  | greaterThan
  | equal
  | and
  | or
  | pop
  | branch (target : Label)
  | branchIfFalse (target : Label)
  | branchIfTrue (target : Label)
  -- Leaves the method, with the top value if there is one to give.
  | ret
deriving DecidableEq

namespace Opcode

def target? : Opcode → Option Label
  | branch target | branchIfFalse target | branchIfTrue target => some target
  | _ => none

def text : Opcode → String
  | pushInt value => "push_int " ++ toString value
  | loadArg argument => "load_arg " ++ toString argument
  | storeArg argument => "store_arg " ++ toString argument
  | loadLocal slot => "load_local " ++ toString slot
  | storeLocal slot => "store_local " ++ toString slot
  | loadField field => "load_field " ++ field.text
  | storeField field => "store_field " ++ field.text
  | loadElement kind => "load_elem." ++ kind.suffix
  | storeElement kind => "store_elem." ++ kind.suffix
  | arrayLength => "array_length"
  | newArray element => "new_array " ++ element.text
  | newObject constructor => "new_object " ++ constructor.text
  | call method => "call " ++ method.text
  | callPrintInt => "call_print_int"
  | callAssert => "call_assert"
  | add => "add"
  | sub => "sub"
  | mul => "mul"
  | div => "div"
  | rem => "rem"
  | lessThan => "clt"
  | greaterThan => "cgt"
  | equal => "ceq"
  | and => "and"
  | or => "or"
  | pop => "pop"
  | branch target => "br " ++ target.text
  | branchIfFalse target => "brfalse " ++ target.text
  | branchIfTrue target => "brtrue " ++ target.text
  | ret => "ret"

end Opcode

end MiniJava
