import Mathlib.Logic.Relation
import MiniJava.Resolve.Bodies

namespace MiniJava

-- What a call has to know of a method. The main method has no declaration of its own.
structure Signature where
  name        : String
  returns     : StaticType
  parameters  : List StaticType
  declaration : Option NodeId

-- The body of a method with its formals.
structure Body where
  parameters : List VariableDeclaration
  statements : List Statement
  inMain     : Bool

namespace Member

def field? : Member → Option VariableDeclaration
  | field d => some d
  | _       => none

def method? : Member → Option MethodDeclaration
  | method m => some m
  | _        => none

end Member

def MethodDeclaration.signature (m : MethodDeclaration) : Signature where
  name        := m.name
  returns     := Resolve.staticType m.returns
  parameters  := m.parameters.map fun d => Resolve.staticType d.type
  declaration := m.id

def MethodDeclaration.toBody (m : MethodDeclaration) : Body where
  parameters := m.parameters
  statements := m.body
  inMain     := false

def Resolve.MethodBody.toBody (b : Resolve.MethodBody) : Body where
  parameters := b.parameters
  statements := b.statements
  inMain     := b.isMain

namespace ClassDeclaration

def fields (c : ClassDeclaration) : List VariableDeclaration :=
  c.members.filterMap Member.field?

def methods (c : ClassDeclaration) : List MethodDeclaration :=
  c.members.filterMap Member.method?

end ClassDeclaration

namespace Resolve.AnyClass

def superclass : AnyClass → Option String
  | main _    => none
  | regular c => c.superclass

def fields : AnyClass → List VariableDeclaration
  | main _    => []
  | regular c => c.fields

def signatures : AnyClass → List Signature
  | main _    => [⟨"main", .void, [], none⟩]
  | regular c => c.methods.map (·.signature)

def bodies : AnyClass → List Body
  | main c    => [⟨[], c.body, true⟩]
  | regular c => c.methods.map (·.toBody)

end Resolve.AnyClass

namespace Typing

open Resolve (AnyClass allClasses staticType)

def classNames (p : Program) : List String :=
  (allClasses p).map (·.name)

-- The names of types: those of the built-in types and of the declared classes.
def Known (p : Program) (name : String) : Prop :=
  name ∈ builtinTypes ∨ name ∈ classNames p

def Extends (p : Program) (name superclass : String) : Prop :=
  ∃ c ∈ p.classes, c.name = name ∧ c.superclass = some superclass

-- A class with the classes that it extends, the nearest first.
inductive Lineage (p : Program) : AnyClass → List AnyClass → Prop
  | root : c ∈ allClasses p → c.superclass = none → Lineage p c [c]
  | extend :
    c ∈ allClasses p → c.superclass = some parent.name → Lineage p parent l →
      Lineage p c (c :: l)

-- The nearest method of a name.
def method? (lineage : List AnyClass) (name : String) : Option Signature :=
  lineage.findSome? fun c => c.signatures.find? (·.name = name)

inductive HasMethod (p : Program) : (className name : String) → Signature → Prop
  | intro : Lineage p c l → method? l name = some m → HasMethod p c.name name m

-- The variables that are declared side by side, the latest first.
abbrev Frame := List VariableDeclaration

-- What an expression can refer to.
structure Context where
  program   : Program
  className : String
  inMain    : Bool
  -- The frames around the expression, the innermost first: those of the blocks and the method, then
  -- the fields of the class and of its superclasses.
  frames    : List Frame

namespace Context

def push (Γ : Context) (F : Frame) : Context :=
  { Γ with frames := F :: Γ.frames }

-- The innermost variable of a name.
def lookup? (Γ : Context) (name : String) : Option VariableDeclaration :=
  Γ.frames.findSome? fun F => F.find? (·.name = name)

end Context

-- What is noted of a node: its type, the variable that it refers to, the method that it calls. The
-- judgements say nothing about a table. What is to be noted of every node that they pass is a
-- parameter: with `Notes.any` they only tell whether a program is well-formed, with the notes of a
-- table they also tell that the table has kept it.
structure Notes where
  type     : NodeId → StaticType → Prop
  refersTo : NodeId → VariableDeclaration → Prop
  calls    : NodeId → Signature → Prop

-- Nothing in particular is noted.
def Notes.any : Notes :=
  ⟨fun _ _ => True, fun _ _ => True, fun _ _ => True⟩

mutual

inductive HasType (N : Notes) (Γ : Context) : Expression → StaticType → Prop
  | length :
    HasType N Γ receiver (.array τ) → HaveTypes N Γ arguments → N.type i .int →
      HasType N Γ (.call i receiver "length" arguments p) .int
  | call :
    HasType N Γ receiver (.object className) → HaveTypes N Γ arguments → name ≠ "length" →
      HasMethod Γ.program className name m → m.parameters.length = arguments.length →
      N.calls i m → N.type i m.returns →
      HasType N Γ (.call i receiver name arguments p) m.returns
  | newObject :
    Known Γ.program name → N.type i (.object name) →
      HasType N Γ (.newObject i name p) (.object name)
  | newArray :
    HasType N Γ size τ → Known Γ.program name → N.type i (.ofDeclared name true) →
      HasType N Γ (.newArray i name size p) (.ofDeclared name true)
  | not :
    HasType N Γ operand τ → N.type i .boolean → HasType N Γ (.not i operand p) .boolean
  | arithmetic :
    HasType N Γ left τ → HasType N Γ right υ → op.family = .arithmetic → N.type i .int →
      HasType N Γ (.binary i op left right p) .int
  | logical :
    HasType N Γ left τ → HasType N Γ right υ → op.family ≠ .arithmetic → N.type i .boolean →
      HasType N Γ (.binary i op left right p) .boolean
  | boolean : N.type i .boolean → HasType N Γ (.boolean i value p) .boolean
  | integer : N.type i .int → HasType N Γ (.integer i value p) .int
  | self :
    Γ.inMain = false → N.type i (.object Γ.className) →
      HasType N Γ (.self i p) (.object Γ.className)
  | index :
    HasType N Γ array (.array τ) → HasType N Γ subscript υ → N.type i τ →
      HasType N Γ (.index i array subscript p) τ
  | reference :
    Γ.lookup? name = some d → N.refersTo i d → N.type i (staticType d.type) →
      HasType N Γ (.reference i name p) (staticType d.type)

inductive HaveTypes (N : Notes) (Γ : Context) : List Expression → Prop
  | nil : HaveTypes N Γ []
  | cons : HasType N Γ e τ → HaveTypes N Γ es → HaveTypes N Γ (e :: es)

end

-- Variables and array elements.
def Assignable : Expression → Prop
  | .reference .. | .index .. => True
  | _                         => False

mutual

-- A statement that stands in the frame `F` and leaves the frame `F'`. What is a branch or the body
-- of a loop declares into the frame around it; a block has a frame of its own.
inductive Checks (N : Notes) : Context → Frame → Statement → Frame → Prop
  | declare :
    (∀ d' ∈ F, d'.name ≠ d.name) → Known Γ.program d.type.name →
      Checks N Γ F (.declare d) (d :: F)
  | print  : HasType N (Γ.push F) e τ → Checks N Γ F (.print i e p) F
  | ret    : HasType N (Γ.push F) e τ → Checks N Γ F (.ret i e p) F
  | assert : HasType N (Γ.push F) e τ → Checks N Γ F (.assert i e p) F
  | block  : ChecksAll N (Γ.push F) [] body F' → Checks N Γ F (.block i body p) F
  | assign :
    Assignable target → HasType N (Γ.push F) target τ → HasType N (Γ.push F) value υ →
      Checks N Γ F (.assign i target value p) F
  | ifThen :
    HasType N (Γ.push F) e τ → Checks N Γ F onTrue F' → Checks N Γ F (.ifThen i e onTrue p) F'
  | ifThenElse :
    HasType N (Γ.push F) e τ → Checks N Γ F onTrue F' → Checks N Γ F' onFalse F'' →
      Checks N Γ F (.ifThenElse i e onTrue onFalse p) F''
  | loop :
    HasType N (Γ.push F) e τ → Checks N Γ F body F' → Checks N Γ F (.loop i e body p) F'
  | call :
    HasType N (Γ.push F) (.call i receiver name arguments p) τ →
      Checks N Γ F (.call i receiver name arguments p) F

inductive ChecksAll (N : Notes) : Context → Frame → List Statement → Frame → Prop
  | nil  : ChecksAll N Γ F [] F
  | cons : Checks N Γ F s F' → ChecksAll N Γ F' ss F'' → ChecksAll N Γ F (s :: ss) F''

end

end Typing

mutual

-- The locals that a statement declares, at any depth, in the order of the text.
def Statement.locals : Statement → List VariableDeclaration
  | .declare d => [d]
  | .block _ body _ => Statement.localsOf body
  | .ifThen _ _ onTrue _ => onTrue.locals
  | .ifThenElse _ _ onTrue onFalse _ => onTrue.locals ++ onFalse.locals
  | .loop _ _ body _ => body.locals
  | .print .. | .ret .. | .assert .. | .assign .. | .call .. | .malformed _ => []

def Statement.localsOf : List Statement → List VariableDeclaration
  | [] => []
  | s :: ss => s.locals ++ Statement.localsOf ss

end

namespace Typing

open Resolve (AnyClass allClasses)

-- The largest slot is `maxSlot`. The slots of formals start at one, those of locals at zero.
structure ChecksBody (N : Notes) (Γ : Context) (b : Body) : Prop where
  distinct   : (b.parameters.map (·.name)).Nodup
  known      : ∀ d ∈ b.parameters, Known Γ.program d.type.name
  formals    : b.parameters.length ≤ maxSlot
  locals     : (Statement.localsOf b.statements).length ≤ maxSlot + 1
  statements : ∃ F, ChecksAll N Γ b.parameters.reverse b.statements F

-- The context of a body in a class of that lineage.
def bodyContext (p : Program) (c : AnyClass) (lineage : List AnyClass) (b : Body) : Context where
  program   := p
  className := c.name
  inMain    := b.inMain
  frames    := lineage.map (·.fields)

structure WellFormed (N : Notes) (p : Program) : Prop where
  classes      : (classNames p).Nodup
  superclasses : ∀ c ∈ p.classes, ∀ name, c.superclass = some name → name ∈ classNames p
  acyclic      : ∀ name, ¬Relation.TransGen (Extends p) name name
  fields       : ∀ c ∈ p.classes, (c.fields.map (·.name)).Nodup
  methods      : ∀ c ∈ p.classes, (c.methods.map (·.name)).Nodup
  fieldTypes   : ∀ c ∈ p.classes, ∀ d ∈ c.fields, Known p d.type.name
  returnTypes  : ∀ c ∈ p.classes, ∀ m ∈ c.methods, Known p m.returns.name
  bodies       : ∀ c l, Lineage p c l → ∀ b ∈ c.bodies, ChecksBody N (bodyContext p c l b) b

end Typing

end MiniJava
