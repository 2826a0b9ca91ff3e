import Mathlib.Logic.Function.Basic
import MiniJava.Proofs.Semantics.Runtime

namespace MiniJava

variable {V W X : Type} {g : Emit.Context}

-- The values of the formals and the locals, by their declarations.
abbrev Memory (V : Type) := NodeId → V

-- Where a variable is kept: in a field of the receiver, or in the memory.
inductive Place
  | field (handle : FieldHandle)
  | memory (declaration : NodeId)

-- Where the variable is kept that a node refers to.
def Emit.Context.place? (g : Context) (i : NodeId) : Option Place := do
  let s ← g.table.referenced? i
  let x ← g.table.symbol? s
  let v ← x.asVariable?
  match v.storage with
  | .field               => return .field (← (g.environment.fieldHandle s).toOption)
  | .formal | .localSlot => return .memory (← x.declaration)

-- How an array keeps its elements. An array of arrays keeps references.
def StaticType.elementKind? : StaticType → Option ElementKind
  | .array .int | .array .boolean => some .int
  | .array _                      => some .reference
  | _                             => none

-- By the type that is recorded for the array.
def Emit.Context.elementKind? (g : Context) (array : Expression) : Option ElementKind := do
  let i ← array.id?
  let τ ← g.table.typeOf? i
  τ.elementKind?

-- What a statement leads to: control falls to its end, or leaves the body, or nothing goes on.
inductive Result (V W X : Type)
  | falls (memory : Memory V) (world : W)
  | returns (value : V) (world : W)
  | fails (failure : X)

-- The expression that a statement evaluates before control goes elsewhere.
def Statement.head? : Statement → Option Expression
  | .ret _ e _ | .ifThen _ e _ _ | .ifThenElse _ e _ _ _ | .loop _ e _ _ => some e
  | _ => none

namespace Runtime

open MiniJava.Computation

-- Calls the method that a node refers to.
def send (r : Runtime g V W X) (i : NodeId) (x : V) (xs : List V) : Computation W X (Option V) := do
  let s ← required (g.table.referenced? i)
  let h ← required (g.environment.methodHandle s).toOption
  perform (r.call h x xs)

mutual

-- Operands are evaluated from left to right; both operands of `&&` and `||` are evaluated.
def evaluate (r : Runtime g V W X) (object : V) (σ : Memory V) : Expression → Computation W X V
  | .call i receiver name arguments _ => do
    let x ← evaluate r object σ receiver
    if name = "length" then
      perform (r.arrayLength x)
    else
      let xs ← evaluateAll r object σ arguments
      required (← r.send i x xs)
  | .newObject _ name _ => do
    let type ← required (g.environment.typeHandle name).toOption
    let constructor ← required (g.environment.constructor type).toOption
    perform (r.newObject constructor)
  | .newArray _ name size _ => do
    let type ← required (g.environment.typeHandle name).toOption
    let n ← evaluate r object σ size
    perform (r.newArray type n)
  | .not _ operand _ => do
    let x ← evaluate r object σ operand
    perform (r.binary .equal x (r.integer 0))
  | .binary _ op left right _ => do
    let x ← evaluate r object σ left
    let y ← evaluate r object σ right
    perform (r.binary op x y)
  | .boolean _ value _ => return r.integer (if value then 1 else 0)
  | .integer _ value _ => return r.integer value
  | .self _ _ => return object
  | .index _ array subscript _ => do
    let kind ← required (g.elementKind? array)
    let x ← evaluate r object σ array
    let k ← evaluate r object σ subscript
    perform (r.loadElement kind x k)
  | .reference i _ _ => do
    match ← required (g.place? i) with
    | .field f  => perform (r.loadField f object)
    | .memory d => return σ d
  | .malformed _ => stuck

def evaluateAll (r : Runtime g V W X) (object : V) (σ : Memory V) :
    List Expression → Computation W X (List V)
  | [] => return []
  | e :: es => do
    let v ← evaluate r object σ e
    let vs ← evaluateAll r object σ es
    return v :: vs

end

-- What a statement does to the memory, if control cannot but fall to its end.
def act (r : Runtime g V W X) (object : V) (σ : Memory V) : Statement → Computation W X (Memory V)
  | .declare _ => return σ
  | .print _ e _ => do
    let v ← r.evaluate object σ e
    perform (r.print v)
    return σ
  | .assert _ e _ => do
    let v ← r.evaluate object σ e
    perform (r.assert v)
    return σ
  | .assign _ (.reference i _ _) value _ => do
    let place ← required (g.place? i)
    let v ← r.evaluate object σ value
    match place with
    | .field f =>
      perform (r.storeField f object v)
      return σ
    | .memory d => return Function.update σ d v
  | .assign _ (.index _ array subscript _) value _ => do
    let kind ← required (g.elementKind? array)
    let x ← r.evaluate object σ array
    let k ← r.evaluate object σ subscript
    let v ← r.evaluate object σ value
    perform (r.storeElement kind x k v)
    return σ
  | .call i receiver name arguments _ => do
    let x ← r.evaluate object σ receiver
    if name = "length" then
      let _ ← perform (r.arrayLength x)
      return σ
    else
      let xs ← r.evaluateAll object σ arguments
      let _ ← r.send i x xs
      return σ
  | _ => stuck

end Runtime

mutual

-- What a statement leads to from a memory and a world.
inductive Executes (r : Runtime g V W X) (object : V) :
    Statement → Memory V → W → Result V W X → Prop
  | done : r.act object σ s w = some (.ok (σ', w')) → Executes r object s σ w (.falls σ' w')
  | broken : r.act object σ s w = some (.error x) → Executes r object s σ w (.fails x)
  | stopped :
    s.head? = some e → r.evaluate object σ e w = some (.error x) → Executes r object s σ w (.fails x)
  | ret :
    r.evaluate object σ e w = some (.ok (v, w')) → Executes r object (.ret i e p) σ w (.returns v w')
  | block : ExecutesAll r object body σ w out → Executes r object (.block i body p) σ w out
  | ifThen :
    r.evaluate object σ e w = some (.ok (v, w')) → r.isZero v = false →
      Executes r object onTrue σ w' out → Executes r object (.ifThen i e onTrue p) σ w out
  | skip :
    r.evaluate object σ e w = some (.ok (v, w')) → r.isZero v = true →
      Executes r object (.ifThen i e onTrue p) σ w (.falls σ w')
  | ifTrue :
    r.evaluate object σ e w = some (.ok (v, w')) → r.isZero v = false →
      Executes r object onTrue σ w' out → Executes r object (.ifThenElse i e onTrue onFalse p) σ w out
  | ifFalse :
    r.evaluate object σ e w = some (.ok (v, w')) → r.isZero v = true →
      Executes r object onFalse σ w' out → Executes r object (.ifThenElse i e onTrue onFalse p) σ w out
  | exit :
    r.evaluate object σ e w = some (.ok (v, w')) → r.isZero v = true →
      Executes r object (.loop i e body p) σ w (.falls σ w')
  | again :
    r.evaluate object σ e w = some (.ok (v, w')) → r.isZero v = false →
      Executes r object body σ w' (.falls σ' w'') → Executes r object (.loop i e body p) σ' w'' out →
      Executes r object (.loop i e body p) σ w out
  | leave :
    r.evaluate object σ e w = some (.ok (v, w')) → r.isZero v = false →
      Executes r object body σ w' out → (∀ σ' w'', out ≠ .falls σ' w'') →
      Executes r object (.loop i e body p) σ w out

inductive ExecutesAll (r : Runtime g V W X) (object : V) :
    List Statement → Memory V → W → Result V W X → Prop
  | nil  : ExecutesAll r object [] σ w (.falls σ w)
  | cons :
    Executes r object s σ w (.falls σ' w') → ExecutesAll r object ss σ' w' out →
      ExecutesAll r object (s :: ss) σ w out
  | leave :
    Executes r object s σ w out → (∀ σ' w', out ≠ .falls σ' w') →
      ExecutesAll r object (s :: ss) σ w out

end

-- How a body ends. A method that gives no value drops the value of a return.
def Result.ending (returns : StaticType) : Result V W X → Ending V W X
  | .falls _ w   => .returned none w
  | .returns v w => .returned (if returns = .void then none else some v) w
  | .fails x     => .failed x

-- How a body ends that is started with a memory in a world.
def Evaluates (r : Runtime g V W X) (object : V) (returns : StaticType) (body : List Statement)
    (σ : Memory V) (w : W) (o : Ending V W X) : Prop :=
  ∃ out, ExecutesAll r object body σ w out ∧ out.ending returns = o

end MiniJava
