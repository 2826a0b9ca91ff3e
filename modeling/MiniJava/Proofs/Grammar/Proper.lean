import MiniJava.Proofs.Grammar.Basic
import MiniJava.Proofs.Token.Words

namespace MiniJava

mutual

def Expression.Proper : Expression → Prop
  | .call _ receiver name arguments _ =>
    receiver.Proper ∧ Expression.ProperAll arguments ∧ (name = "length" → arguments = [])
  | .newObject _ name _ => name ∉ builtinTypes
  | .newArray _ _ size _ => size.Proper
  | .not _ operand _ => operand.Proper
  | .binary _ _ left right _ => left.Proper ∧ right.Proper
  | .index _ array subscript _ => array.Proper ∧ subscript.Proper
  | .boolean .. | .integer .. | .self .. | .reference .. => True
  | .malformed _ => False

def Expression.ProperAll : List Expression → Prop
  | [] => True
  | e :: es => e.Proper ∧ Expression.ProperAll es

end

mutual

def Statement.Proper : Statement → Prop
  | .declare d => d.storage = .localSlot
  | .print _ e _ | .ret _ e _ | .assert _ e _ => e.Proper
  | .block _ body _ => Statement.ProperAll body
  | .assign _ target value _ => target.Proper ∧ value.Proper
  | .ifThen _ e onTrue _ => e.Proper ∧ onTrue.Proper
  | .ifThenElse _ e onTrue onFalse _ => e.Proper ∧ onTrue.Proper ∧ onFalse.Proper
  | .loop _ e body _ => e.Proper ∧ body.Proper
  | .call i receiver name arguments p => (Expression.call i receiver name arguments p).Proper
  | .malformed _ => False

def Statement.ProperAll : List Statement → Prop
  | [] => True
  | s :: ss => s.Proper ∧ Statement.ProperAll ss

end

def Member.Proper : Member → Prop
  | field d     => d.storage = .field
  | method m    => (∀ d ∈ m.parameters, d.storage = .formal) ∧ Statement.ProperAll m.body
  | malformed _ => False

structure ClassDeclaration.Proper (c : ClassDeclaration) : Prop where
  name       : c.name ∉ builtinTypes
  superclass : ∀ name, c.superclass = some name → name ∉ builtinTypes
  members    : ∀ m ∈ c.members, m.Proper

structure MainClass.Proper (c : MainClass) : Prop where
  name : c.name ∉ builtinTypes
  body : Statement.ProperAll c.body

structure Program.Proper (p : Program) : Prop where
  mainClass : ∃ c, p.mainClass = some c ∧ c.Proper
  classes   : ∀ c ∈ p.classes, c.Proper

namespace Grammar

abbrev Lexed (l : List Token) : Prop :=
  ∀ t ∈ l, t.kind.Lexed

theorem Lexed.tail (h : Lexed (t :: l)) : Lexed l :=
  fun u hu => h u (List.mem_cons_of_mem t hu)

theorem Lexed.identifier (h : Lexed (t :: l)) (hk : t.kind = .identifier name) :
    name ∉ builtinTypes ∧ Keyword.ofWord? name = none := by
  have ht := h t List.mem_cons_self
  rw [hk] at ht
  exact ht

theorem Lexed.namesClass (h : Lexed (t :: l)) (hn : NamesClass t name) : name ∉ builtinTypes := by
  cases hn with
  | identifier hk => exact (h.identifier hk).1
  | typeName hk =>
    have ht := h t List.mem_cons_self
    rw [hk] at ht
    cases ht

-- A method that is called by an identifier is not `length`, which is a keyword.
theorem Lexed.ne_length (h : Lexed (t :: l)) (hk : t.kind = .identifier name) :
    name ≠ "length" := by
  intro he
  have hw := (h.identifier hk).2
  rw [he] at hw
  exact absurd hw (by decide)

-- The tokens behind a phrase are lexed as well.
mutual

theorem IsTerm.proper : IsTerm l e r → Lexed l → e.Proper ∧ Lexed r
  | .self _, h | .yes _, h | .no _, h | .integer _, h | .reference _, h => ⟨trivial, h.tail⟩
  | .parentheses _ he _, h =>
    have ⟨he, hr⟩ := he.proper h.tail
    ⟨he, hr.tail⟩
  | .newObject _ hn _ _, h => ⟨h.tail.namesClass hn, h.tail.tail.tail.tail⟩
  | .newArray _ _ _ he _, h =>
    have ⟨he, hr⟩ := he.proper h.tail.tail.tail
    ⟨he, hr.tail⟩
  | .index ha _ hs _, h =>
    have ⟨ha, hm⟩ := ha.proper h
    have ⟨hs, hr⟩ := hs.proper hm.tail
    ⟨⟨ha, hs⟩, hr.tail⟩
  | .length hr _ _, h =>
    have ⟨hr, hm⟩ := hr.proper h
    ⟨⟨hr, trivial, fun _ => rfl⟩, hm.tail.tail⟩
  | .call hr _ hk _ ha _, h =>
    have ⟨hr, hm⟩ := hr.proper h
    have ⟨ha, hw⟩ := ha.proper hm.tail.tail.tail
    ⟨⟨hr, ha, fun he => absurd he (hm.tail.ne_length hk)⟩, hw.tail⟩

theorem IsLevel.proper : IsLevel k l e r → Lexed l → e.Proper ∧ Lexed r
  | .term h', h    => h'.proper h
  | .not _ h', h   => h'.proper h.tail
  | .tighter h', h => h'.proper h
  | .binary hl _ _ hr, h =>
    have ⟨hl, hm⟩ := hl.proper h
    have ⟨hr, hr'⟩ := hr.proper hm.tail
    ⟨⟨hl, hr⟩, hr'⟩

theorem IsArguments.proper : IsArguments l es r → Lexed l → Expression.ProperAll es ∧ Lexed r
  | .none, h     => ⟨trivial, h⟩
  | .some h', h  => h'.proper h

theorem IsArgumentList.proper :
    IsArgumentList l es r → Lexed l → Expression.ProperAll es ∧ Lexed r
  | .one he, h =>
    have ⟨he, hr⟩ := he.proper h
    ⟨⟨he, trivial⟩, hr⟩
  | .more he _ hes, h =>
    have ⟨he, hm⟩ := he.proper h
    have ⟨hes, hr⟩ := hes.proper hm.tail
    ⟨⟨he, hes⟩, hr⟩

end

theorem IsType.lexed : IsType l type r → Lexed l → Lexed r
  | .plain _, h     => h.tail
  | .array _ _ _, h => h.tail.tail.tail

theorem IsVariable.lexed : IsVariable storage l d r → Lexed l → d.storage = storage ∧ Lexed r
  | .intro ht _, h => ⟨rfl, (ht.lexed h).tail⟩

theorem IsCondition.proper : IsCondition l e r → Lexed l → e.Proper ∧ Lexed r
  | .intro _ he _, h =>
    have ⟨he, hr⟩ := he.proper h.tail
    ⟨he, hr.tail⟩

mutual

theorem IsStatement.proper : IsStatement closed l s r → Lexed l → s.Proper ∧ Lexed r
  | .declare hd _, h =>
    have ⟨hd, hr⟩ := hd.lexed h
    ⟨hd, hr.tail⟩
  | .print _ _ _ _ _ he _, h =>
    have ⟨he, hr⟩ := he.proper h.tail.tail.tail.tail.tail
    ⟨he, hr.tail⟩
  | .ret _ he _, h =>
    have ⟨he, hr⟩ := he.proper h.tail
    ⟨he, hr.tail⟩
  | .assert _ he _, h =>
    have ⟨he, hr⟩ := he.proper h.tail
    ⟨he, hr.tail⟩
  | .block _ hb _, h =>
    have ⟨hb, hr⟩ := hb.proper h.tail
    ⟨hb, hr.tail⟩
  | .assign _ ht _ hv _, h =>
    have ⟨ht, hm⟩ := ht.proper h
    have ⟨hv, hr⟩ := hv.proper hm.tail
    ⟨⟨ht, hv⟩, hr.tail⟩
  | .call _ he _, h =>
    have ⟨he, hr⟩ := he.proper h
    ⟨he, hr.tail⟩
  | .ifThen _ he ht, h =>
    have ⟨he, hm⟩ := he.proper h.tail
    have ⟨ht, hr⟩ := ht.proper hm
    ⟨⟨he, ht⟩, hr⟩
  | .ifThenElse _ he ht _ hf, h =>
    have ⟨he, hm⟩ := he.proper h.tail
    have ⟨ht, hm'⟩ := ht.proper hm
    have ⟨hf, hr⟩ := hf.proper hm'.tail
    ⟨⟨he, ht, hf⟩, hr⟩
  | .loop _ he hb, h =>
    have ⟨he, hm⟩ := he.proper h.tail
    have ⟨hb, hr⟩ := hb.proper hm
    ⟨⟨he, hb⟩, hr⟩

theorem IsStatements.proper : IsStatements l ss r → Lexed l → Statement.ProperAll ss ∧ Lexed r
  | .nil, h => ⟨trivial, h⟩
  | .cons hs hss, h =>
    have ⟨hs, hm⟩ := hs.proper h
    have ⟨hss, hr⟩ := hss.proper hm
    ⟨⟨hs, hss⟩, hr⟩

end

theorem IsParameters.lexed (hp : IsParameters l ds r) (h : Lexed l) :
    (∀ d ∈ ds, d.storage = .formal) ∧ Lexed r := by
  induction hp with
  | one hd =>
    have ⟨hd, hr⟩ := hd.lexed h
    exact ⟨by simpa using hd, hr⟩
  | more hd _ _ hi =>
    have ⟨hd, hm⟩ := hd.lexed h
    have ⟨hds, hr⟩ := hi hm.tail
    exact ⟨List.forall_mem_cons.mpr ⟨hd, hds⟩, hr⟩

theorem IsSignature.lexed :
    IsSignature l ds r → Lexed l → (∀ d ∈ ds, d.storage = .formal) ∧ Lexed r
  | .none _ _, h => ⟨fun _ hd => absurd hd List.not_mem_nil, h.tail.tail⟩
  | .some _ hp _, h =>
    have ⟨hp, hr⟩ := hp.lexed h.tail
    ⟨hp, hr.tail⟩

theorem IsBody.proper : IsBody l ss r → Lexed l → Statement.ProperAll ss ∧ Lexed r
  | .intro _ hs _, h =>
    have ⟨hs, hr⟩ := hs.proper h.tail
    ⟨hs, hr.tail⟩

theorem IsMember.proper : IsMember l d r → Lexed l → d.Proper ∧ Lexed r
  | .field hd _, h =>
    have ⟨hd, hr⟩ := hd.lexed h
    ⟨hd, hr.tail⟩
  | .method _ ht _ hp hb, h =>
    have ⟨hp, hm⟩ := hp.lexed (ht.lexed h.tail).tail
    have ⟨hb, hr⟩ := hb.proper hm
    ⟨⟨hp, hb⟩, hr⟩

theorem IsMembers.proper (hm : IsMembers l ds r) (h : Lexed l) :
    (∀ d ∈ ds, d.Proper) ∧ Lexed r := by
  induction hm with
  | nil => exact ⟨fun _ hd => absurd hd List.not_mem_nil, h⟩
  | cons hd _ hi =>
    have ⟨hd, hm⟩ := hd.proper h
    have ⟨hds, hr⟩ := hi hm
    exact ⟨List.forall_mem_cons.mpr ⟨hd, hds⟩, hr⟩

theorem IsSuperclass.lexed : IsSuperclass l parent r → Lexed l →
    (∀ name, parent = Option.some name → name ∉ builtinTypes) ∧ Lexed r
  | .none, h => ⟨fun _ hn => (nomatch hn), h⟩
  | .some _ hk, h =>
    ⟨fun _ hn => Option.some.inj hn ▸ (h.tail.identifier hk).1, h.tail.tail⟩

theorem IsClass.proper : IsClass l c r → Lexed l → c.Proper ∧ Lexed r
  | .intro _ hk hp _ hm _, h =>
    have ⟨hp, hm'⟩ := hp.lexed h.tail.tail
    have ⟨hm, hr⟩ := hm.proper hm'.tail
    ⟨⟨(h.tail.identifier hk).1, hp, hm⟩, hr.tail⟩

theorem IsClasses.proper (hc : IsClasses l cs) (h : Lexed l) : ∀ c ∈ cs, c.Proper := by
  induction hc with
  | nil => exact fun _ hc => absurd hc List.not_mem_nil
  | cons hc _ hi =>
    have ⟨hc, hm⟩ := hc.proper h
    exact List.forall_mem_cons.mpr ⟨hc, hi hm⟩

theorem IsMainClass.proper : IsMainClass l c r → Lexed l → c.Proper ∧ Lexed r
  | .intro _ hk _ _ _ _ _ _ _ hb _, h =>
    have ⟨hb, hr⟩ := hb.proper h.tail.tail.tail.tail.tail.tail.tail.tail.tail
    ⟨⟨(h.tail.identifier hk).1, hb⟩, hr.tail⟩

theorem IsProgram.proper : IsProgram l p → Lexed l → p.Proper
  | .intro hm hc, h =>
    have ⟨hm, hr⟩ := hm.proper h
    ⟨⟨_, rfl, hm⟩, hc.proper hr⟩

end Grammar

end MiniJava
