import MiniJava.Proofs.Emit.Total

namespace MiniJava

-- Whether a node calls a method that gives no value.
def SymbolTable.callsVoid (t : SymbolTable) (i : NodeId) : Bool :=
  ((t.referenced? i).bind t.method?).any (·.returns = .void)

mutual

-- An expression in which every call is needed for its value, and gives one.
def Expression.valued (t : SymbolTable) : Expression → Bool
  | .call i receiver _ arguments _ =>
    !t.callsVoid i && receiver.valued t && Expression.allValued t arguments
  | .newArray _ _ size _ => size.valued t
  | .not _ operand _ => operand.valued t
  | .binary _ _ left right _ => left.valued t && right.valued t
  | .index _ array subscript _ => array.valued t && subscript.valued t
  | .newObject .. | .boolean .. | .integer .. | .self .. | .reference .. | .malformed _ => true

def Expression.allValued (t : SymbolTable) : List Expression → Bool
  | [] => true
  | e :: es => e.valued t && Expression.allValued t es

end

mutual

-- A statement in which all that is needed has a value. A call that is a statement need not.
def Statement.valued (t : SymbolTable) : Statement → Bool
  | .declare _ | .malformed _ => true
  | .print _ e _ | .ret _ e _ | .assert _ e _ => e.valued t
  | .block _ body _ => Statement.allValued t body
  | .assign _ target value _ => target.valued t && value.valued t
  | .ifThen _ e onTrue _ => e.valued t && onTrue.valued t
  | .ifThenElse _ e onTrue onFalse _ => e.valued t && onTrue.valued t && onFalse.valued t
  | .loop _ e body _ => e.valued t && body.valued t
  | .call _ receiver _ arguments _ => receiver.valued t && Expression.allValued t arguments

def Statement.allValued (t : SymbolTable) : List Statement → Bool
  | [] => true
  | s :: ss => s.valued t && Statement.allValued t ss

end

def Program.valued (t : SymbolTable) (p : Program) : Bool :=
  (Resolve.allClasses p).all fun c => c.bodies.all fun b => Statement.allValued t b.statements

-- How many values an instruction takes from the stack, and how many it leaves there.
structure Effect where
  pops   : Nat
  pushes : Nat

-- A call takes the receiver and the arguments, and leaves what the method gives.
def MethodSymbol.effect (m : MethodSymbol) : Effect where
  pops   := 1 + m.parameters.length
  pushes := if m.returns = .void then 0 else 1

-- The effect of an instruction that is no call. A return leaves the method, whatever is on the
-- stack.
def Opcode.effect? : Opcode → Option Effect
  | pushInt _ | loadArg _ | loadLocal _ | newObject _ => some ⟨0, 1⟩
  | loadField _ | arrayLength | newArray _ => some ⟨1, 1⟩
  | loadElement _ | add | sub | mul | div | rem | lessThan | greaterThan | equal | and | or =>
    some ⟨2, 1⟩
  | storeArg _ | storeLocal _ | callPrintInt | callAssert | pop | branchIfFalse _
  | branchIfTrue _ => some ⟨1, 0⟩
  | storeField _ => some ⟨2, 0⟩
  | storeElement _ => some ⟨3, 0⟩
  | branch _ | ret => some ⟨0, 0⟩
  | call _ => none

namespace Emit

inductive HasEffect (g : Context) : Opcode → Effect → Prop
  | plain : o.effect? = some ε → HasEffect g o ε
  | call  : g.environment.methodHandle s = .ok h → g.table.method? s = some m →
    HasEffect g (.call h) m.effect

theorem HasEffect.eq_of_effect? (h : HasEffect g o ε) (he : o.effect? = some ε') : ε = ε' := by
  cases h with
  | plain h  => exact Option.some.inj (h.symm.trans he)
  | call _ _ => cases he

-- A call takes what the method of its handle takes, and no handle is that of two methods.
theorem HasEffect.unique (h : HasEffect (.sequential t) o ε) (h' : HasEffect (.sequential t) o ε') :
    ε = ε' := by
  cases h with
  | plain he =>
    cases h' with
    | plain he'    => exact Option.some.inj (he.symm.trans he')
    | call hs' hm' => cases he
  | call hs hm =>
    cases h' with
    | plain he'    => cases he'
    | call hs' hm' =>
      obtain rfl := Environment.methodHandle_inj hs hs'
      obtain rfl := Option.some.inj (hm.symm.trans hm')
      rfl

end Emit

end MiniJava
