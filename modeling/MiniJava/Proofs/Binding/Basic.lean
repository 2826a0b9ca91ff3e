import MiniJava.Proofs.Typing.Basic

namespace MiniJava

namespace Binding

open Resolve (AnyClass allClasses staticType)
open Typing

-- Of those with the same name the first, less the names that are taken.
def accepted (name : α → String) (taken : List String) : List α → List α
  | []     => []
  | a :: l =>
    if name a ∈ taken then accepted name taken l else a :: accepted name (name a :: taken) l

-- The classes that get defined.
def classes (p : Program) : List AnyClass :=
  accepted (·.name) builtinTypes (allClasses p)

-- The bodies of the methods that get defined.
def bodies : AnyClass → List Body
  | .main c    => [⟨[], c.body, true⟩]
  | .regular c => (accepted (·.name) [] c.methods).map (·.toBody)

def class? (cs : List AnyClass) (name : String) : Option AnyClass :=
  cs.find? (·.name = name)

-- The names of classes that have been linked, each with that of its superclass.
abbrev Links := List (String × String)

-- A class with those that it extends by the links, the nearest first; `n` of them at most.
def line (cs : List AnyClass) (ls : Links) : (n : Nat) → AnyClass → List AnyClass
  | 0, _     => []
  | n + 1, c => c :: (((ls.lookup c.name).bind (class? cs)).map (line cs ls n)).getD []

-- A class gets linked with the superclass that it names, unless there is none or it is in the line
-- of the superclass.
def link (cs : List AnyClass) (ls : Links) (c : AnyClass) : Links :=
  match c.superclass with
  | none      => ls
  | some name =>
    match class? cs name with
    | none   => ls
    | some d => if (line cs ls cs.length d).any (·.name = c.name) then ls else (c.name, name) :: ls

def links (cs : List AnyClass) : Links :=
  cs.foldl (link cs) []

-- A class with the superclasses that it has been linked with, the nearest first.
def lineage (p : Program) (c : AnyClass) : List AnyClass :=
  line (classes p) (links (classes p)) (classes p).length c

-- What a call finds in a class or the nearest of its superclasses.
def callee? (p : Program) (c : AnyClass) (name : String) : Option Signature :=
  method? (lineage p c) name

-- The environment of a body before anything is declared in it: the fields of its class, then those
-- of the superclasses.
def context (p : Program) (c : AnyClass) (b : Body) : Context :=
  bodyContext p c (lineage p c) b

instance : Decidable (Known p name) :=
  inferInstanceAs (Decidable (_ ∨ _))

-- The type of a call, from that of the receiver.
def answer? (p : Program) (name : String) : StaticType → Option StaticType
  | .array _          => if name = "length" then some .int else none
  | .object className =>
    if name = "length" then none
    else ((class? (classes p) className).bind (callee? p · name)).map (·.returns)
  | _                 => none

-- The type of an expression, as far as its names stand for something.
def typeOf? (Γ : Context) : Expression → Option StaticType
  | .call _ receiver name _ _  => (typeOf? Γ receiver).bind (answer? Γ.program name)
  | .newObject _ name _        => if Known Γ.program name then some (.object name) else none
  | .newArray _ name _ _       => some (.ofDeclared name true)
  | .not ..                    => some .boolean
  | .binary _ op _ _ _         => some (if op.family = .arithmetic then .int else .boolean)
  | .boolean ..                => some .boolean
  | .integer ..                => some .int
  | .self ..                   => some (.object Γ.className)
  | .index _ array _ _         => (typeOf? Γ array).bind StaticType.element?
  | .reference _ name _        => (Γ.lookup? name).map fun d => staticType d.type
  | .malformed _               => none

inductive Target
  | ofVariable (d : VariableDeclaration)
  | ofMethod (m : Signature)

-- A node whose name is bound, and what the name stands for.
structure Use where
  node     : NodeId
  entity   : Entity
  name     : String
  position : Position
  target   : Option Target

-- A method is bound if the receiver is an object of a class that is defined.
def called? (p : Program) (i : NodeId) (name : String) (position : Position) :
    StaticType → Option Use
  | .object className =>
    if name = "length" then none
    else (class? (classes p) className).map fun c =>
      ⟨i, .method, name, position, (callee? p c name).map .ofMethod⟩
  | _                 => none

def use? (Γ : Context) : Expression → Option Use
  | .reference i name position       =>
    some ⟨i, .aVariable, name, position, (Γ.lookup? name).map .ofVariable⟩
  | .call i receiver name _ position =>
    (typeOf? Γ receiver).bind (called? Γ.program i name position)
  | _                                => none

-- A name that is looked up, where it stands, and whether it is found.
structure Site where
  entity   : Entity
  name     : String
  position : Position
  found    : Bool

namespace Site

def report (s : Site) : Diagnostic :=
  .semantic (.unresolved s.entity s.name) s.position

def ofType (p : Program) (name : String) (position : Position) : Site :=
  ⟨.aType, name, position, Known p name⟩

end Site

def Use.site (u : Use) : Site :=
  ⟨u.entity, u.name, u.position, u.target.isSome⟩

-- What is reported of the names that are not found.
def missing (l : List Site) : List Diagnostic :=
  (l.filter fun s => !s.found).map Site.report

-- What the resolution of a body comes to, each with the environment there.
inductive Visit
  | declaration (Γ : Context) (d : VariableDeclaration)
  | expression (Γ : Context) (e : Expression)

def Visit.sites : Visit → List Site
  | declaration Γ d                          => [.ofType Γ.program d.type.name d.position]
  | expression Γ (.newObject _ name position)
  | expression Γ (.newArray _ name _ position) => [.ofType Γ.program name position]
  | expression Γ e                           => (use? Γ e).toList.map Use.site

end Binding

mutual

-- An expression with all that it is made of, every part before the whole.
def Expression.parts : Expression → List Expression
  | .call i receiver name arguments p =>
    receiver.parts ++ Expression.partsOf arguments ++ [.call i receiver name arguments p]
  | .newArray i name size p           => size.parts ++ [.newArray i name size p]
  | .not i operand p                  => operand.parts ++ [.not i operand p]
  | .binary i op left right p         => left.parts ++ right.parts ++ [.binary i op left right p]
  | .index i array subscript p        => array.parts ++ subscript.parts ++ [.index i array subscript p]
  | e                                 => [e]

def Expression.partsOf : List Expression → List Expression
  | []      => []
  | e :: es => e.parts ++ Expression.partsOf es

end

-- The locals that a statement declares into the frame that it stands in. A branch or the body of a
-- loop has no frame of its own.
def Statement.declares : Statement → List VariableDeclaration
  | .declare d                       => [d]
  | .ifThen _ _ s _ | .loop _ _ s _  => s.declares
  | .ifThenElse _ _ s s' _           => s.declares ++ s'.declares
  | .print .. | .ret .. | .assert .. | .block .. | .assign .. | .call .. | .malformed _ => []

namespace Binding

open Typing

-- There is no table in what follows: an environment is handed from statement to statement, and a
-- class is found with the classes that it is linked with.
def visits (Γ : Context) (e : Expression) : List Visit :=
  e.parts.map (.expression Γ)

mutual

-- The frame `F` has what is declared before the statement.
def visitsIn (Γ : Context) (F : Frame) : Statement → List Visit
  | .declare d                                       => [.declaration (Γ.push F) d]
  | .print _ e _ | .ret _ e _ | .assert _ e _        => visits (Γ.push F) e
  | .block _ body _                                  => visitsAll (Γ.push F) [] body
  | .assign _ target value _                         =>
    visits (Γ.push F) target ++ visits (Γ.push F) value
  | .ifThen _ e s _ | .loop _ e s _                  => visits (Γ.push F) e ++ visitsIn Γ F s
  | .ifThenElse _ e s s' _                           =>
    visits (Γ.push F) e ++ visitsIn Γ F s ++ visitsIn Γ (F ++ s.declares) s'
  | .call i receiver name arguments p                =>
    visits (Γ.push F) (.call i receiver name arguments p)
  | .malformed _                                     => []

def visitsAll (Γ : Context) (F : Frame) : List Statement → List Visit
  | []      => []
  | s :: ss => visitsIn Γ F s ++ visitsAll Γ (F ++ s.declares) ss

end

-- The formals are in the frame of the locals, before them.
def visitsOf (Γ : Context) (b : Body) : List Visit :=
  b.parameters.map (.declaration Γ) ++ visitsAll Γ b.parameters b.statements

end Binding

end MiniJava
