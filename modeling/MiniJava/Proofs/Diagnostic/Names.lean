import MiniJava.Proofs.Diagnostic.Words
import MiniJava.Proofs.Recasting.Reading

namespace MiniJava

section

variable (P : String → Prop)

-- `P` holds of every name in a tree.

def TypeRef.Bears (type : TypeRef) : Prop :=
  P type.name

structure VariableDeclaration.Bears (d : VariableDeclaration) : Prop where
  name : P d.name
  type : d.type.Bears P

mutual

def Expression.Bears : Expression → Prop
  | .call _ receiver name arguments _ => receiver.Bears ∧ P name ∧ BearAll arguments
  | .newObject _ name _               => P name
  | .newArray _ name size _           => P name ∧ size.Bears
  | .not _ operand _                  => operand.Bears
  | .binary _ _ left right _          => left.Bears ∧ right.Bears
  | .index _ array subscript _        => array.Bears ∧ subscript.Bears
  | .reference _ name _               => P name
  | .boolean _ _ _ | .integer _ _ _   => True
  | .self _ _ | .malformed _          => True

def Expression.BearAll : List Expression → Prop
  | []      => True
  | e :: es => e.Bears ∧ BearAll es

end

mutual

def Statement.Bears : Statement → Prop
  | .declare d                                  => d.Bears P
  | .print _ e _ | .ret _ e _ | .assert _ e _   => e.Bears P
  | .block _ body _                             => BearAll body
  | .assign _ target value _                    => target.Bears P ∧ value.Bears P
  | .ifThen _ e onTrue _                        => e.Bears P ∧ onTrue.Bears
  | .ifThenElse _ e onTrue onFalse _            => e.Bears P ∧ onTrue.Bears ∧ onFalse.Bears
  | .loop _ e body _                            => e.Bears P ∧ body.Bears
  | .call _ receiver name arguments _           =>
    receiver.Bears P ∧ P name ∧ Expression.BearAll P arguments
  | .malformed _                                => True

def Statement.BearAll : List Statement → Prop
  | []      => True
  | s :: ss => s.Bears ∧ BearAll ss

end

structure MethodDeclaration.Bears (m : MethodDeclaration) : Prop where
  name       : P m.name
  returns    : m.returns.Bears P
  parameters : ∀ d ∈ m.parameters, d.Bears P
  body       : Statement.BearAll P m.body

def Member.Bears : Member → Prop
  | field d     => d.Bears P
  | method m    => m.Bears P
  | malformed _ => True

structure ClassDeclaration.Bears (c : ClassDeclaration) : Prop where
  name       : P c.name
  superclass : ∀ name ∈ c.superclass, P name
  members    : ∀ m ∈ c.members, m.Bears P

structure MainClass.Bears (c : MainClass) : Prop where
  name : P c.name
  body : Statement.BearAll P c.body

structure Program.Bears (p : Program) : Prop where
  mainClass : ∀ c ∈ p.mainClass, c.Bears P
  classes   : ∀ c ∈ p.classes, c.Bears P

end

-- The word is spelled as before.
def Recasting.Keeps (ρ : Recasting) (word : String) : Prop :=
  ρ.name word = word

variable {ρ : Recasting}

theorem TypeRef.bears_of_recast {type : TypeRef} (h : type.recast ρ = type) : type.Bears ρ.Keeps :=
  congrArg TypeRef.name h

theorem VariableDeclaration.bears_of_recast {d : VariableDeclaration} (h : d.recast ρ = d) :
    d.Bears ρ.Keeps where
  name := congrArg VariableDeclaration.name h
  type := TypeRef.bears_of_recast (congrArg VariableDeclaration.type h)

mutual

theorem Expression.bears_of_recast (e : Expression) (h : e.recast ρ = e) : e.Bears ρ.Keeps := by
  cases e with
  | call i receiver name arguments p =>
    obtain ⟨-, hr, hn, ha, -⟩ := Expression.call.inj h
    exact ⟨bears_of_recast receiver hr, hn, bearAll_of_recast arguments ha⟩
  | newObject i name p               => exact (Expression.newObject.inj h).2.1
  | newArray i name size p           =>
    obtain ⟨-, hn, hs, -⟩ := Expression.newArray.inj h
    exact ⟨hn, bears_of_recast size hs⟩
  | not i operand p                  => exact bears_of_recast operand (Expression.not.inj h).2.1
  | binary i op left right p         =>
    obtain ⟨-, -, hl, hr, -⟩ := Expression.binary.inj h
    exact ⟨bears_of_recast left hl, bears_of_recast right hr⟩
  | index i array subscript p        =>
    obtain ⟨-, ha, hs, -⟩ := Expression.index.inj h
    exact ⟨bears_of_recast array ha, bears_of_recast subscript hs⟩
  | reference i name p               => exact (Expression.reference.inj h).2.1
  | boolean | integer | self | malformed => trivial

theorem Expression.bearAll_of_recast (es : List Expression) (h : recastAll ρ es = es) :
    BearAll ρ.Keeps es := by
  cases es with
  | nil       => trivial
  | cons e es =>
    obtain ⟨he, hes⟩ := List.cons.inj h
    exact ⟨bears_of_recast e he, bearAll_of_recast es hes⟩

end

mutual

theorem Statement.bears_of_recast (s : Statement) (h : s.recast ρ = s) : s.Bears ρ.Keeps := by
  have he (e : Expression) : e.recast ρ = e → e.Bears ρ.Keeps := e.bears_of_recast
  cases s with
  | declare d                        => exact d.bears_of_recast (Statement.declare.inj h)
  | print i e p                      => exact he e (Statement.print.inj h).2.1
  | ret i e p                        => exact he e (Statement.ret.inj h).2.1
  | assert i e p                     => exact he e (Statement.assert.inj h).2.1
  | block i body p                   => exact bearAll_of_recast body (Statement.block.inj h).2.1
  | assign i target value p          =>
    obtain ⟨-, ht, hv, -⟩ := Statement.assign.inj h
    exact ⟨he target ht, he value hv⟩
  | ifThen i e s p                   =>
    obtain ⟨-, hc, hs, -⟩ := Statement.ifThen.inj h
    exact ⟨he e hc, bears_of_recast s hs⟩
  | ifThenElse i e s s' p            =>
    obtain ⟨-, hc, hs, hs', -⟩ := Statement.ifThenElse.inj h
    exact ⟨he e hc, bears_of_recast s hs, bears_of_recast s' hs'⟩
  | loop i e s p                     =>
    obtain ⟨-, hc, hs, -⟩ := Statement.loop.inj h
    exact ⟨he e hc, bears_of_recast s hs⟩
  | call i receiver name arguments p =>
    obtain ⟨-, hr, hn, ha, -⟩ := Statement.call.inj h
    exact ⟨he receiver hr, hn, Expression.bearAll_of_recast arguments ha⟩
  | malformed p                      => trivial

theorem Statement.bearAll_of_recast (ss : List Statement) (h : recastAll ρ ss = ss) :
    BearAll ρ.Keeps ss := by
  cases ss with
  | nil       => trivial
  | cons s ss =>
    obtain ⟨hs, hss⟩ := List.cons.inj h
    exact ⟨bears_of_recast s hs, bearAll_of_recast ss hss⟩

end

theorem forall_of_map_eq_self {f : α → α} {l : List α} (h : l.map f = l) : ∀ a ∈ l, f a = a :=
  List.map_inj_left.mp (h.trans (List.map_id' l).symm)

theorem MethodDeclaration.bears_of_recast {m : MethodDeclaration} (h : m.recast ρ = m) :
    m.Bears ρ.Keeps where
  name           := congrArg MethodDeclaration.name h
  returns        := TypeRef.bears_of_recast (congrArg MethodDeclaration.returns h)
  parameters d hd :=
    VariableDeclaration.bears_of_recast
      (forall_of_map_eq_self (congrArg MethodDeclaration.parameters h) d hd)
  body           := Statement.bearAll_of_recast m.body (congrArg MethodDeclaration.body h)

theorem Member.bears_of_recast {m : Member} (h : m.recast ρ = m) : m.Bears ρ.Keeps := by
  cases m with
  | field d     => exact VariableDeclaration.bears_of_recast (Member.field.inj h)
  | method m    => exact MethodDeclaration.bears_of_recast (Member.method.inj h)
  | malformed p => trivial

theorem ClassDeclaration.bears_of_recast {c : ClassDeclaration} (h : c.recast ρ = c) :
    c.Bears ρ.Keeps where
  name            := congrArg ClassDeclaration.name h
  superclass w hw := by
    have hs : c.superclass.map ρ.name = c.superclass := congrArg ClassDeclaration.superclass h
    rw [Option.mem_def.mp hw] at hs
    exact Option.some.inj hs
  members m hm    :=
    Member.bears_of_recast (forall_of_map_eq_self (congrArg ClassDeclaration.members h) m hm)

theorem MainClass.bears_of_recast {c : MainClass} (h : c.recast ρ = c) : c.Bears ρ.Keeps where
  name := congrArg MainClass.name h
  body := Statement.bearAll_of_recast c.body (congrArg MainClass.body h)

theorem Program.bears_of_recast {p : Program} (h : p.recast ρ = p) : p.Bears ρ.Keeps where
  mainClass c hc := by
    have hm : p.mainClass.map (·.recast ρ) = p.mainClass := congrArg Program.mainClass h
    rw [Option.mem_def.mp hc] at hm
    exact MainClass.bears_of_recast (Option.some.inj hm)
  classes c hc   :=
    ClassDeclaration.bears_of_recast (forall_of_map_eq_self (congrArg Program.classes h) c hc)

section

variable {P : String → Prop}

open Classical in
-- The words with `P` stay, and no others.
noncomputable def Recasting.keeping (hl : P "length") (hb : ∀ word ∈ builtinTypes, P word) :
    Recasting where
  name word := if P word then word else word ++ "x"
  place p   := p
  length    := if_pos hl
  builtin word hw := if_pos (hb word hw)

theorem Recasting.keeps_keeping (hl : P "length") (hb : ∀ word ∈ builtinTypes, P word) :
    (keeping hl hb).Keeps = P := by
  funext word
  apply propext
  by_cases h : P word
  case pos => exact iff_of_true (if_pos h) h
  case neg =>
    refine iff_of_false (fun he => ?_) h
    have he : word ++ "x" = word := (if_neg h).symm.trans he
    simpa using congrArg String.length he

theorem Token.recast_keeping {hl : P "length"} {hb : ∀ word ∈ builtinTypes, P word} {t : Token}
    (h : t.kind.Bears P) : t.recast (.keeping hl hb) = t := by
  obtain ⟨kind, p⟩ := t
  cases kind with
  | identifier name => exact congrArg (fun name => Token.mk (.identifier name) p) (if_pos h)
  | _               => rfl

-- Reading is the same for all names. So if all names of the tokens stay under another spelling, the
-- tree that is read from them stays as well, and with it every name in the tree.
theorem ParsedProgram.bears_program {s : TokenStream} (h : ∀ t ∈ s.tokens, t.kind.Bears P)
    (hn : ∀ t ∈ s.tokens, t.kind.NamesBuiltin) (hl : P "length")
    (hb : ∀ word ∈ builtinTypes, P word) : (ofStream s).program.Bears P := by
  have ht : s.tokens = s.tokens.map (·.recast (.keeping hl hb)) :=
    ((List.map_congr_left fun t ht => Token.recast_keeping (h t ht)).trans (List.map_id' _)).symm
  have hp := ParsedProgram.ofStream_recast hn ht rfl
  have hbears := Program.bears_of_recast (congrArg ParsedProgram.program hp).symm
  rwa [Recasting.keeps_keeping] at hbears

end

end MiniJava
