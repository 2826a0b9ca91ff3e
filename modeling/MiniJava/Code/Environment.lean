import MiniJava.Code.Opcode
import MiniJava.Diagnostic.Cause
import MiniJava.Symbol.Table

namespace MiniJava

structure Environment where
  types : Std.TreeMap String TypeHandle
  methods : Std.TreeMap SymbolId MethodHandle
  fields : Std.TreeMap SymbolId FieldHandle
  -- By the number of the type that they make.
  constructors : Std.TreeMap Nat ConstructorHandle

namespace Environment

def empty : Environment := ⟨∅, ∅, ∅, ∅⟩

def insertType (e : Environment) (name : String) (handle : TypeHandle) : Environment :=
  { e with types := e.types.insert name handle }

def insertMethod (e : Environment) (method : SymbolId) (handle : MethodHandle) : Environment :=
  { e with methods := e.methods.insert method handle }

def insertField (e : Environment) (field : SymbolId) (handle : FieldHandle) : Environment :=
  { e with fields := e.fields.insert field handle }

def insertConstructor (e : Environment) (type : TypeHandle) (handle : ConstructorHandle) :
    Environment :=
  { e with constructors := e.constructors.insert type.number handle }

def orMissing (error : InternalError) : Option α → Except InternalError α
  | some a => .ok a
  | none => .error error

def typeHandle (e : Environment) (name : String) : Except InternalError TypeHandle :=
  orMissing (.noTypeHandle name) e.types[name]?

def methodHandle (e : Environment) (method : SymbolId) : Except InternalError MethodHandle :=
  orMissing (.noMethodHandle method) e.methods[method]?

def fieldHandle (e : Environment) (field : SymbolId) : Except InternalError FieldHandle :=
  orMissing (.noFieldHandle field) e.fields[field]?

def constructor (e : Environment) (type : TypeHandle) : Except InternalError ConstructorHandle :=
  orMissing (.noConstructor type.number) e.constructors[type.number]?

theorem typeHandle_insertType (e : Environment) (name name' : String) (handle : TypeHandle) :
    (e.insertType name handle).typeHandle name' =
      if name = name' then .ok handle else e.typeHandle name' := by
  simp only [typeHandle, insertType, Std.TreeMap.getElem?_insert]
  split <;> simp_all [orMissing]

theorem methodHandle_insertMethod (e : Environment) (method method' : SymbolId)
    (handle : MethodHandle) :
    (e.insertMethod method handle).methodHandle method' =
      if method = method' then .ok handle else e.methodHandle method' := by
  simp only [methodHandle, insertMethod, Std.TreeMap.getElem?_insert]
  split <;> simp_all [orMissing]

theorem fieldHandle_insertField (e : Environment) (field field' : SymbolId)
    (handle : FieldHandle) :
    (e.insertField field handle).fieldHandle field' =
      if field = field' then .ok handle else e.fieldHandle field' := by
  simp only [fieldHandle, insertField, Std.TreeMap.getElem?_insert]
  split <;> simp_all [orMissing]

theorem constructor_insertConstructor (e : Environment) (type type' : TypeHandle)
    (handle : ConstructorHandle) :
    (e.insertConstructor type handle).constructor type' =
      if type.number = type'.number then .ok handle else e.constructor type' := by
  simp only [constructor, insertConstructor, Std.TreeMap.getElem?_insert]
  split <;> simp_all [orMissing]

structure Layout where
  environment : Environment
  types : Nat
  methods : Nat
  fields : Nat

namespace Layout

def empty : Layout := ⟨.empty, 0, 0, 0⟩

-- Gives a symbol the next handle of its kind, and a class a constructor of the same number. Formals
-- and locals have no handles.
def place (l : Layout) (id : SymbolId) (symbol : Symbol) : Layout :=
  match symbol.kind with
  | .ofType type =>
    let named := l.environment.insertType symbol.name ⟨l.types⟩
    { l with
      environment := if type.builtin then named else named.insertConstructor ⟨l.types⟩ ⟨l.types⟩
      types := l.types + 1 }
  | .ofMethod _ =>
    { l with
      environment := l.environment.insertMethod id ⟨l.methods⟩
      methods := l.methods + 1 }
  | .ofVariable ⟨_, .field, _⟩ =>
    { l with
      environment := l.environment.insertField id ⟨l.fields⟩
      fields := l.fields + 1 }
  | .ofVariable _ => l

end Layout

def sequential (t : SymbolTable) : Environment :=
  (t.symbols.toList.zipIdx.foldl (fun layout (symbol, id) => layout.place id symbol)
    Layout.empty).environment

end Environment

end MiniJava
