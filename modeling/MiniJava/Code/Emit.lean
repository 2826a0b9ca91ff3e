import Std.Data.ExtTreeMap
import MiniJava.Code.Chunk
import MiniJava.Code.Environment
import MiniJava.Tree.Basic

namespace MiniJava.Emit

structure Context where
  table : SymbolTable
  environment : Environment

structure Draft where
  chunk : Chunk
  -- The labels that wait for a statement, by the number of the statement.
  pending : Std.ExtTreeMap NodeId Label

namespace Draft

def empty : Draft := ⟨.empty, ∅⟩

def emit (d : Draft) (opcode : Opcode) (position : Option Position) : Draft :=
  { d with chunk := d.chunk.emit opcode position }

def defineLabel (d : Draft) : Label × Draft :=
  (d.chunk.defineLabel.1, { d with chunk := d.chunk.defineLabel.2 })

def mark (d : Draft) (label : Label) : Draft :=
  { d with chunk := d.chunk.mark label }

def await (d : Draft) (node : NodeId) (label : Label) : Draft :=
  { d with pending := d.pending.insert node label }

def reach (d : Draft) (s : Statement) : Draft :=
  match s.id? with
  | some node =>
    match d.pending[node]? with
    | some label => { d.mark label with pending := d.pending.erase node }
    | none => d
  | none => d

end Draft

abbrev Action := StateT Draft (Except InternalError)

def emit (opcode : Opcode) (position : Position) : Action Unit :=
  modify fun d => d.emit opcode position

def defineLabel : Action Label :=
  modifyGet Draft.defineLabel

def mark (label : Label) : Action Unit :=
  modify fun d => d.mark label

-- A label that is bound when a statement is reached. The statement must not be a placeholder.
def labelFor (s : Statement) : Action Label := do
  let node ← Environment.orMissing .erroneousTree s.id?
  let label ← defineLabel
  modify fun d => d.await node label
  return label

def reach (s : Statement) : Action Unit :=
  modify fun d => d.reach s

def staticType (g : Context) (node : NodeId) : Except InternalError StaticType :=
  Environment.orMissing (.noStaticType node) (g.table.typeOf? node)

def nodeOf (e : Expression) : Except InternalError NodeId :=
  Environment.orMissing .erroneousTree e.id?

def variableAt (g : Context) (node : NodeId) : Except InternalError (SymbolId × VariableSymbol) :=
  Environment.orMissing (.variableNotResolved node) do
    let id ← g.table.referenced? node
    let symbol ← g.table.symbol? id
    let declared ← symbol.asVariable?
    return (id, declared)

def slotOf (declared : VariableSymbol) : Except InternalError Nat :=
  Environment.orMissing .noSlot declared.slot

def elementKind (g : Context) (array : Expression) : Except InternalError ElementKind := do
  let node ← nodeOf array
  match (← staticType g node).element? with
  | some element => return if element.isIntegral then .int else .reference
  | none => throw (.notAnArray node)

def binaryOpcode : BinaryOperator → Opcode
  | .add => .add
  | .sub => .sub
  | .mul => .mul
  | .div => .div
  | .mod => .rem
  | .less => .lessThan
  | .greater => .greaterThan
  | .equal => .equal
  | .and => .and
  | .or => .or

mutual

def expression (g : Context) : Expression → Action Unit
  | .call id receiver method arguments position => do
    expression g receiver
    match ← staticType g (← nodeOf receiver) with
    | .array _ => emit .arrayLength position
    | _ =>
      expressions g arguments
      let symbol ← Environment.orMissing (.callNotResolved method) (g.table.referenced? id)
      emit (.call (← g.environment.methodHandle symbol)) position
  | .newObject _ typeName position => do
    let type ← g.environment.typeHandle typeName
    emit (.newObject (← g.environment.constructor type)) position
  | .newArray _ typeName size position => do
    let type ← g.environment.typeHandle typeName
    expression g size
    emit (.newArray type) position
  | .not _ operand position => do
    expression g operand
    emit (.pushInt 0) position
    emit .equal position
  | .binary _ op left right position => do
    expression g left
    expression g right
    emit (binaryOpcode op) position
  | .boolean _ value position => emit (.pushInt (if value then 1 else 0)) position
  | .integer _ value position => emit (.pushInt value) position
  | .self _ position => emit (.loadArg 0) position
  | .index _ array subscript position => do
    expression g array
    expression g subscript
    emit (.loadElement (← elementKind g array)) position
  | .reference id _ position => do
    let (symbol, declared) ← variableAt g id
    match declared.storage with
    | .field =>
      emit (.loadArg 0) position
      emit (.loadField (← g.environment.fieldHandle symbol)) position
    | .formal => emit (.loadArg (← slotOf declared)) position
    | .localSlot => emit (.loadLocal (← slotOf declared)) position
  | .malformed _ => throw .erroneousTree

def expressions (g : Context) : List Expression → Action Unit
  | [] => return
  | e :: es => do
    expression g e
    expressions g es

end

-- Everything that the store into a target needs below the value.
def address (g : Context) : Expression → Action Unit
  | .reference id _ position => do
    let (_, declared) ← variableAt g id
    if declared.storage = .field then emit (.loadArg 0) position
  | .index _ array subscript _ => do
    expression g array
    expression g subscript
  | other => throw (.cannotAssign other.form)

def store (g : Context) (target : Expression) (position : Position) : Action Unit := do
  match target with
  | .reference id _ _ =>
    let (symbol, declared) ← variableAt g id
    match declared.storage with
    | .field => emit (.storeField (← g.environment.fieldHandle symbol)) position
    | .formal => emit (.storeArg (← slotOf declared)) position
    | .localSlot => emit (.storeLocal (← slotOf declared)) position
  | .index _ array _ _ => emit (.storeElement (← elementKind g array)) position
  | other => throw (.cannotAssign other.form)

mutual

def statement (g : Context) (s : Statement) : Action Unit := do
  reach s
  match s with
  | .declare _ => return
  | .print _ value position =>
    expression g value
    emit .callPrintInt position
  | .ret _ value position =>
    expression g value
    emit .ret position
  | .assert _ condition position =>
    expression g condition
    emit .callAssert position
  | .block _ body _ => statements g body
  | .assign _ target value position =>
    address g target
    expression g value
    store g target position
  | .ifThen _ condition onTrue position =>
    expression g condition
    let exit ← defineLabel
    emit (.branchIfFalse exit) position
    statement g onTrue
    emit (.branch exit) position
    mark exit
  | .ifThenElse _ condition onTrue onFalse position =>
    expression g condition
    let exit ← defineLabel
    let otherwise ← labelFor onFalse
    emit (.branchIfFalse otherwise) position
    statement g onTrue
    emit (.branch exit) position
    statement g onFalse
    mark exit
  | .loop _ condition body position =>
    let test ← defineLabel
    let again ← labelFor body
    emit (.branch test) position
    statement g body
    mark test
    expression g condition
    emit (.branchIfTrue again) position
  | .call id receiver method arguments position =>
    expression g (.call id receiver method arguments position)
    if (← staticType g id) ≠ .void then emit .pop position
  | .malformed _ => throw .erroneousTree

def statements (g : Context) : List Statement → Action Unit
  | [] => return
  | s :: ss => do
    statement g s
    statements g ss

end

-- A placeholder has no code.
theorem expression_malformed (g : Context) (p : Position) :
    expression g (.malformed p) = throw .erroneousTree := by
  simp only [expression]

theorem statement_malformed (g : Context) (p : Position) :
    statement g (.malformed p) = (do reach (.malformed p); throw .erroneousTree) := by
  simp only [statement]

def endsInReturn (ss : List Statement) : Bool :=
  (ss.getLast?.map Statement.isReturn).getD false

-- The body of a method. Control does not run off its end.
def body (g : Context) (ss : List Statement) : Action Unit := do
  statements g ss
  unless endsInReturn ss do
    modify fun d => d.emit .ret none

def finish (d : Draft) : Except InternalError Chunk :=
  if d.chunk.unmarked.isEmpty && d.pending.isEmpty then .ok d.chunk
  else .error (.labelsUnbound (d.chunk.unmarked.map (·.number)))

def chunk (g : Context) (ss : List Statement) : Except InternalError Chunk := do
  let (_, d) ← (body g ss).run .empty
  finish d

end MiniJava.Emit
