import Mathlib.Data.List.Forall2
import MiniJava.Proofs.Typing.Basic

namespace MiniJava

-- What the number of a node is needed for.
inductive NodeRole
  | expression
  | reference
  | call
  | other

-- How two trees may differ.
structure Likeness where
  nodes     : NodeRole → NodeId → NodeId → Prop
  name      : String → String
  positions : Position → Position → Prop

namespace Likeness

-- Only numbers and positions differ.
def upTo (positions : Position → Position → Prop) : Likeness :=
  ⟨fun _ _ _ => True, id, positions⟩

end Likeness

def NodeRole.ofCall (name : String) : NodeRole :=
  if name = "length" then expression else call

theorem NodeRole.ofCall_ne (name : String) : ofCall name ≠ other := by
  unfold ofCall
  split <;> simp

structure VariableDeclaration.Like (L : Likeness) (d d' : VariableDeclaration) : Prop where
  id       : L.nodes .other d.id d'.id
  name     : d'.name = L.name d.name
  type     : d'.type = ⟨L.name d.type.name, d.type.isArray⟩
  storage  : d'.storage = d.storage
  position : L.positions d.position d'.position

mutual

inductive Expression.Like (L : Likeness) : Expression → Expression → Prop
  | call :
    L.nodes (.ofCall name) i i' → receiver.Like L receiver' →
      Expression.LikeAll L arguments arguments' → L.positions p p' →
      Like L (.call i receiver name arguments p) (.call i' receiver' (L.name name) arguments' p')
  | newObject :
    L.nodes .expression i i' → L.positions p p' →
      Like L (.newObject i name p) (.newObject i' (L.name name) p')
  | newArray :
    L.nodes .expression i i' → size.Like L size' → L.positions p p' →
      Like L (.newArray i name size p) (.newArray i' (L.name name) size' p')
  | not :
    L.nodes .expression i i' → operand.Like L operand' → L.positions p p' →
      Like L (.not i operand p) (.not i' operand' p')
  | binary :
    L.nodes .expression i i' → left.Like L left' → right.Like L right' → L.positions p p' →
      Like L (.binary i op left right p) (.binary i' op left' right' p')
  | boolean :
    L.nodes .expression i i' → L.positions p p' → Like L (.boolean i value p) (.boolean i' value p')
  | integer :
    L.nodes .expression i i' → L.positions p p' → Like L (.integer i value p) (.integer i' value p')
  | self : L.nodes .expression i i' → L.positions p p' → Like L (.self i p) (.self i' p')
  | index :
    L.nodes .expression i i' → array.Like L array' → subscript.Like L subscript' →
      L.positions p p' → Like L (.index i array subscript p) (.index i' array' subscript' p')
  | reference :
    L.nodes .reference i i' → L.positions p p' →
      Like L (.reference i name p) (.reference i' (L.name name) p')
  | malformed : L.positions p p' → Like L (.malformed p) (.malformed p')

inductive Expression.LikeAll (L : Likeness) : List Expression → List Expression → Prop
  | nil  : LikeAll L [] []
  | cons : e.Like L e' → LikeAll L es es' → LikeAll L (e :: es) (e' :: es')

end

mutual

inductive Statement.Like (L : Likeness) : Statement → Statement → Prop
  | declare : d.Like L d' → Like L (.declare d) (.declare d')
  | print :
    L.nodes .other i i' → e.Like L e' → L.positions p p' → Like L (.print i e p) (.print i' e' p')
  | ret :
    L.nodes .other i i' → e.Like L e' → L.positions p p' → Like L (.ret i e p) (.ret i' e' p')
  | assert :
    L.nodes .other i i' → e.Like L e' → L.positions p p' → Like L (.assert i e p) (.assert i' e' p')
  | block :
    L.nodes .other i i' → Statement.LikeAll L body body' → L.positions p p' →
      Like L (.block i body p) (.block i' body' p')
  | assign :
    L.nodes .other i i' → target.Like L target' → value.Like L value' → L.positions p p' →
      Like L (.assign i target value p) (.assign i' target' value' p')
  | ifThen :
    L.nodes .other i i' → e.Like L e' → s.Like L s' → L.positions p p' →
      Like L (.ifThen i e s p) (.ifThen i' e' s' p')
  | ifThenElse :
    L.nodes .other i i' → e.Like L e' → onTrue.Like L onTrue' → onFalse.Like L onFalse' →
      L.positions p p' → Like L (.ifThenElse i e onTrue onFalse p) (.ifThenElse i' e' onTrue' onFalse' p')
  | loop :
    L.nodes .other i i' → e.Like L e' → s.Like L s' → L.positions p p' →
      Like L (.loop i e s p) (.loop i' e' s' p')
  | call :
    Expression.Like L (.call i receiver name arguments p) (.call i' receiver' name' arguments' p') →
      Like L (.call i receiver name arguments p) (.call i' receiver' name' arguments' p')
  | malformed : L.positions p p' → Like L (.malformed p) (.malformed p')

inductive Statement.LikeAll (L : Likeness) : List Statement → List Statement → Prop
  | nil  : LikeAll L [] []
  | cons : s.Like L s' → LikeAll L ss ss' → LikeAll L (s :: ss) (s' :: ss')

end

-- Methods that are alike; one that is exempt may have other statements.
structure MethodDeclaration.Like (L : Likeness) (exempt : Prop) (m m' : MethodDeclaration) : Prop where
  id         : L.nodes .other m.id m'.id
  name       : m'.name = L.name m.name
  returns    : m'.returns = ⟨L.name m.returns.name, m.returns.isArray⟩
  parameters : List.Forall₂ (VariableDeclaration.Like L) m.parameters m'.parameters
  body       : ¬exempt → Statement.LikeAll L m.body m'.body
  position   : L.positions m.position m'.position

-- Methods are exempt by their names.
inductive Member.Like (L : Likeness) (exempt : String → Prop) : Member → Member → Prop
  | field     : d.Like L d' → Like L exempt (.field d) (.field d')
  | method    : m.Like L (exempt m.name) m' → Like L exempt (.method m) (.method m')
  | malformed : L.positions p p' → Like L exempt (.malformed p) (.malformed p')

structure MainClass.Like (L : Likeness) (exempt : Prop) (c c' : MainClass) : Prop where
  id       : L.nodes .other c.id c'.id
  name     : c'.name = L.name c.name
  body     : ¬exempt → Statement.LikeAll L c.body c'.body
  position : L.positions c.position c'.position

structure ClassDeclaration.Like (L : Likeness) (exempt : String → Prop) (c c' : ClassDeclaration) :
    Prop where
  id         : L.nodes .other c.id c'.id
  name       : c'.name = L.name c.name
  superclass : c'.superclass = c.superclass.map L.name
  members    : List.Forall₂ (Member.Like L exempt) c.members c'.members
  position   : L.positions c.position c'.position

-- Methods are exempt by the names of their classes and their own.
structure Program.Like (L : Likeness) (exempt : String → String → Prop) (p p' : Program) : Prop where
  mainClass : Option.Rel (fun c c' => MainClass.Like L (exempt c.name "main") c c')
    p.mainClass p'.mainClass
  classes   : List.Forall₂ (fun c c' => ClassDeclaration.Like L (exempt c.name) c c')
    p.classes p'.classes

variable {L : Likeness}

namespace Expression.Like

theorem id? (h : Like L e e') (hi : e.id? = some i) :
    ∃ k i', k ≠ .other ∧ e'.id? = some i' ∧ L.nodes k i i' := by
  cases h with
  | call h =>
    obtain rfl := Option.some.inj hi
    exact ⟨_, _, NodeRole.ofCall_ne _, rfl, h⟩
  | newObject h | newArray h | not h | binary h | boolean h | integer h | self h | index h
  | reference h =>
    obtain rfl := Option.some.inj hi
    exact ⟨_, _, by simp, rfl, h⟩
  | malformed => cases hi

end Expression.Like

theorem Expression.LikeAll.length_eq : LikeAll L es es' → es'.length = es.length
  | .nil      => rfl
  | .cons _ h => congrArg (· + 1) h.length_eq

theorem Statement.Like.isReturn {s s' : Statement} (h : s.Like L s') : s'.isReturn = s.isReturn := by
  cases h <;> rfl

theorem Statement.LikeAll.endsInReturn {ss ss' : List Statement} : LikeAll L ss ss' →
    (ss'.getLast?.map Statement.isReturn).getD false = (ss.getLast?.map Statement.isReturn).getD false
  | .nil                   => rfl
  | .cons h .nil           => h.isReturn
  | .cons _ (.cons hs hss) => by
    have hi := (cons hs hss).endsInReturn
    simpa [List.getLast?_cons_cons] using hi

mutual

theorem Statement.Like.locals {s s' : Statement} : s.Like L s' →
    List.Forall₂ (VariableDeclaration.Like L) s.locals s'.locals
  | .declare h              => .cons h .nil
  | .block _ h _            => h.locals
  | .ifThen _ _ h _         => h.locals
  | .ifThenElse _ _ ht hf _ => List.rel_append ht.locals hf.locals
  | .loop _ _ h _           => h.locals
  | .print .. | .ret .. | .assert .. | .assign .. | .call .. | .malformed .. => .nil

theorem Statement.LikeAll.locals {ss ss' : List Statement} : Statement.LikeAll L ss ss' →
    List.Forall₂ (VariableDeclaration.Like L) (Statement.localsOf ss) (Statement.localsOf ss')
  | .nil       => .nil
  | .cons h hs => List.rel_append h.locals hs.locals

end

-- A tree is like itself.
section

variable {P : Position → Position → Prop}

theorem VariableDeclaration.like_refl (hP : ∀ p, P p p) (d : VariableDeclaration) : d.Like (.upTo P) d :=
  ⟨trivial, rfl, rfl, rfl, hP _⟩

mutual

theorem Expression.like_refl (hP : ∀ p, P p p) : (e : Expression) → e.Like (.upTo P) e
  | .call _ receiver _ arguments _ =>
    .call trivial (receiver.like_refl hP) (Expression.likeAll_refl hP arguments) (hP _)
  | .newObject ..                  => .newObject trivial (hP _)
  | .newArray _ _ size _           => .newArray trivial (size.like_refl hP) (hP _)
  | .not _ operand _               => .not trivial (operand.like_refl hP) (hP _)
  | .binary _ _ left right _       => .binary trivial (left.like_refl hP) (right.like_refl hP) (hP _)
  | .boolean ..                    => .boolean trivial (hP _)
  | .integer ..                    => .integer trivial (hP _)
  | .self ..                       => .self trivial (hP _)
  | .index _ array subscript _     => .index trivial (array.like_refl hP) (subscript.like_refl hP) (hP _)
  | .reference ..                  => .reference trivial (hP _)
  | .malformed _                   => .malformed (hP _)

theorem Expression.likeAll_refl (hP : ∀ p, P p p) : (es : List Expression) →
    Expression.LikeAll (.upTo P) es es
  | []      => .nil
  | e :: es => .cons (e.like_refl hP) (Expression.likeAll_refl hP es)

end

mutual

theorem Statement.like_refl (hP : ∀ p, P p p) : (s : Statement) → s.Like (.upTo P) s
  | .declare d                        => .declare (d.like_refl hP)
  | .print _ e _                      => .print trivial (e.like_refl hP) (hP _)
  | .ret _ e _                        => .ret trivial (e.like_refl hP) (hP _)
  | .assert _ e _                     => .assert trivial (e.like_refl hP) (hP _)
  | .block _ body _                   => .block trivial (Statement.likeAll_refl hP body) (hP _)
  | .assign _ target value _          =>
    .assign trivial (target.like_refl hP) (value.like_refl hP) (hP _)
  | .ifThen _ e onTrue _              => .ifThen trivial (e.like_refl hP) (onTrue.like_refl hP) (hP _)
  | .ifThenElse _ e onTrue onFalse _  =>
    .ifThenElse trivial (e.like_refl hP) (onTrue.like_refl hP) (onFalse.like_refl hP) (hP _)
  | .loop _ e body _                  => .loop trivial (e.like_refl hP) (body.like_refl hP) (hP _)
  | .call i receiver name arguments p =>
    .call ((Expression.call i receiver name arguments p).like_refl hP)
  | .malformed _                      => .malformed (hP _)

theorem Statement.likeAll_refl (hP : ∀ p, P p p) : (ss : List Statement) →
    Statement.LikeAll (.upTo P) ss ss
  | []      => .nil
  | s :: ss => .cons (s.like_refl hP) (Statement.likeAll_refl hP ss)

end

theorem Member.like_refl (hP : ∀ p, P p p) (m : Member) : m.Like (.upTo P) exempt m := by
  cases m with
  | field d     => exact .field (d.like_refl hP)
  | method m    => exact .method ⟨trivial, rfl, rfl, List.forall₂_same.mpr fun d _ => d.like_refl hP,
      fun _ => Statement.likeAll_refl hP m.body, hP _⟩
  | malformed p => exact .malformed (hP p)

theorem MainClass.like_refl (hP : ∀ p, P p p) (c : MainClass) : c.Like (.upTo P) exempt c :=
  ⟨trivial, rfl, fun _ => Statement.likeAll_refl hP c.body, hP _⟩

end

-- Numbers and positions differ the other way round.
section

variable {P : Position → Position → Prop}

theorem VariableDeclaration.Like.symm {d d' : VariableDeclaration} (h : d.Like (.upTo P) d') :
    d'.Like (.upTo (flip P)) d where
  id       := trivial
  name     := h.name.symm
  type     := h.type.symm
  storage  := h.storage.symm
  position := h.position

mutual

theorem Expression.Like.symm {e e' : Expression} : e.Like (.upTo P) e' → e'.Like (.upTo (flip P)) e
  | .call _ hr ha hp       => .call trivial hr.symm ha.symm hp
  | .newObject _ hp        => .newObject trivial hp
  | .newArray _ hs hp      => .newArray trivial hs.symm hp
  | .not _ ho hp           => .not trivial ho.symm hp
  | .binary _ hl hr hp     => .binary trivial hl.symm hr.symm hp
  | .boolean _ hp          => .boolean trivial hp
  | .integer _ hp          => .integer trivial hp
  | .self _ hp             => .self trivial hp
  | .index _ ha hs hp      => .index trivial ha.symm hs.symm hp
  | .reference _ hp        => .reference trivial hp
  | .malformed hp          => .malformed hp

theorem Expression.LikeAll.symm {es es' : List Expression} :
    Expression.LikeAll (.upTo P) es es' → Expression.LikeAll (.upTo (flip P)) es' es
  | .nil       => .nil
  | .cons h hs => .cons h.symm hs.symm

end

mutual

theorem Statement.Like.symm {s s' : Statement} : s.Like (.upTo P) s' → s'.Like (.upTo (flip P)) s
  | .declare hd               => .declare hd.symm
  | .print _ he hp            => .print trivial he.symm hp
  | .ret _ he hp              => .ret trivial he.symm hp
  | .assert _ he hp           => .assert trivial he.symm hp
  | .block _ hb hp            => .block trivial hb.symm hp
  | .assign _ ht hv hp        => .assign trivial ht.symm hv.symm hp
  | .ifThen _ he ht hp        => .ifThen trivial he.symm ht.symm hp
  | .ifThenElse _ he ht hf hp => .ifThenElse trivial he.symm ht.symm hf.symm hp
  | .loop _ he hb hp          => .loop trivial he.symm hb.symm hp
  | .call he                  => .call he.symm
  | .malformed hp             => .malformed hp

theorem Statement.LikeAll.symm {ss ss' : List Statement} :
    Statement.LikeAll (.upTo P) ss ss' → Statement.LikeAll (.upTo (flip P)) ss' ss
  | .nil       => .nil
  | .cons h hs => .cons h.symm hs.symm

end

theorem MethodDeclaration.Like.symm {m m' : MethodDeclaration} (h : m.Like (.upTo P) exempt m') :
    m'.Like (.upTo (flip P)) exempt m where
  id         := trivial
  name       := h.name.symm
  returns    := h.returns.symm
  parameters := h.parameters.flip.imp fun _ _ hd => hd.symm
  body he    := (h.body he).symm
  position   := h.position

theorem Member.Like.symm {m m' : Member} (h : m.Like (.upTo P) exempt m') :
    m'.Like (.upTo (flip P)) exempt m := by
  cases h with
  | field hd     => exact .field hd.symm
  | method hm    => exact .method ((hm.name : _ = _) ▸ hm.symm)
  | malformed hp => exact .malformed hp

theorem MainClass.Like.symm {c c' : MainClass} (h : c.Like (.upTo P) exempt c') :
    c'.Like (.upTo (flip P)) exempt c where
  id       := trivial
  name     := h.name.symm
  body he  := (h.body he).symm
  position := h.position

end

end MiniJava
