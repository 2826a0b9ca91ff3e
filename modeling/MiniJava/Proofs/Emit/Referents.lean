import MiniJava.Proofs.Emit.Balance

namespace MiniJava

-- What there are handles for.
inductive Referent
  | method (symbol : SymbolId)
  | field (symbol : SymbolId)
  -- The type of the elements of a new array.
  | element (typeName : String)
  -- The class of a new object.
  | object (typeName : String)

inductive Handle
  | method (handle : MethodHandle)
  | field (handle : FieldHandle)
  | type (handle : TypeHandle)
  | constructor (handle : ConstructorHandle)
deriving DecidableEq

-- What an environment has for a referent. That of a new object is the constructor of its class.
def Environment.handle (e : Environment) : Referent → Except InternalError Handle
  | .method s     => .method <$> e.methodHandle s
  | .field s      => .field <$> e.fieldHandle s
  | .element name => .type <$> e.typeHandle name
  | .object name  => do
    let type ← e.typeHandle name
    .constructor <$> e.constructor type

namespace Environment

variable {e : Environment} {handle : Handle}

theorem map_eq_ok {x : Except ε α} {f : α → β} : f <$> x = .ok b ↔ ∃ a, x = .ok a ∧ f a = b := by
  cases x <;> simp [Functor.map, Except.map]

@[simp]
theorem handle_method : e.handle (.method s) = .ok handle ↔
    ∃ m, e.methodHandle s = .ok m ∧ .method m = handle :=
  map_eq_ok

@[simp]
theorem handle_field : e.handle (.field s) = .ok handle ↔
    ∃ f, e.fieldHandle s = .ok f ∧ .field f = handle :=
  map_eq_ok

@[simp]
theorem handle_element : e.handle (.element name) = .ok handle ↔
    ∃ τ, e.typeHandle name = .ok τ ∧ .type τ = handle :=
  map_eq_ok

@[simp]
theorem handle_object : e.handle (.object name) = .ok handle ↔
    ∃ τ, e.typeHandle name = .ok τ ∧ ∃ c, e.constructor τ = .ok c ∧ .constructor c = handle := by
  rw [Environment.handle, Emit.bind_eq_ok]
  simp only [map_eq_ok]

end Environment

-- The handle in an instruction.
def Opcode.handle? : Opcode → Option Handle
  | call m                    => some (.method m)
  | loadField f | storeField f => some (.field f)
  | newArray t                => some (.type t)
  | newObject c               => some (.constructor c)
  | _                         => none

-- The field that a node refers to.
def SymbolTable.fieldAt? (t : SymbolTable) (i : NodeId) : Option SymbolId :=
  (t.referenced? i).filter fun s => (t.symbol? s).any (·.isField)

mutual

-- The referents of a phrase in the order of their instructions.
def Expression.referents (t : SymbolTable) : Expression → List Referent
  | .call i receiver name arguments _ =>
    receiver.referents t ++ Expression.referentsAll t arguments ++
      if name = "length" then [] else (t.referenced? i).toList.map .method
  | .newObject _ name _ => [.object name]
  | .newArray _ name size _ => size.referents t ++ [.element name]
  | .not _ operand _ => operand.referents t
  | .binary _ _ left right _ => left.referents t ++ right.referents t
  | .index _ array subscript _ => array.referents t ++ subscript.referents t
  | .reference i _ _ => (t.fieldAt? i).toList.map .field
  | .boolean .. | .integer .. | .self .. | .malformed _ => []

def Expression.referentsAll (t : SymbolTable) : List Expression → List Referent
  | [] => []
  | e :: es => e.referents t ++ Expression.referentsAll t es

end

mutual

-- A variable is stored to after the value is there. The condition of a loop follows the body.
def Statement.referents (t : SymbolTable) : Statement → List Referent
  | .print _ e _ | .ret _ e _ | .assert _ e _ => e.referents t
  | .block _ body _ => Statement.referentsAll t body
  | .assign _ target value _ =>
    match target with
    | .reference .. => value.referents t ++ target.referents t
    | _             => target.referents t ++ value.referents t
  | .ifThen _ e onTrue _ => e.referents t ++ onTrue.referents t
  | .ifThenElse _ e onTrue onFalse _ => e.referents t ++ onTrue.referents t ++ onFalse.referents t
  | .loop _ e body _ => body.referents t ++ e.referents t
  | .call i receiver name arguments p =>
    (Expression.call i receiver name arguments p).referents t
  | .declare _ | .malformed _ => []

def Statement.referentsAll (t : SymbolTable) : List Statement → List Referent
  | [] => []
  | s :: ss => s.referents t ++ Statement.referentsAll t ss

end

namespace Emit

open Typing

-- The handles in the instructions are those of the referents.
def Held (e : Environment) (ns : List Referent) (is : List Instruction) : Prop :=
  (is.filterMap (·.opcode.handle?)).map .ok = ns.map e.handle

section

variable {e : Environment}

namespace Held

theorem nil : Held e [] [] :=
  rfl

theorem append (h : Held e ns is) (h' : Held e ms js) : Held e (ns ++ ms) (is ++ js) := by
  rw [Held, List.filterMap_append, List.map_append, List.map_append]
  exact congrArg₂ _ h h'

-- An instruction with a handle.
theorem single (ho : o.handle? = some h) (hn : e.handle n = .ok h) : Held e [n] [⟨o, q⟩] := by
  simp [Held, ho, hn]

-- An instruction without one.
theorem concat (h : Held e ns is) (ho : o.handle? = none) : Held e ns (is ++ [⟨o, q⟩]) := by
  rw [← List.append_nil ns]
  exact h.append (by simp [Held, ho])

theorem cons (ho : o.handle? = none) (h : Held e ns is) : Held e ns (⟨o, q⟩ :: is) := by
  simpa [Held, ho] using h

-- All referents have handles.
theorem exists_handle (h : Held e ns is) (hn : n ∈ ns) : ∃ handle, e.handle n = .ok handle := by
  have hmem := List.mem_map_of_mem (f := e.handle) hn
  rw [← h] at hmem
  obtain ⟨handle, _, hh⟩ := List.mem_map.mp hmem
  exact ⟨handle, hh.symm⟩

end Held

variable {t : SymbolTable}

theorem variableAt_eq_ok : variableAt ⟨t, e⟩ i = .ok (s, v) ↔
    t.referenced? i = some s ∧ ∃ x, t.symbol? s = some x ∧ x.asVariable? = some v := by
  simp [variableAt, Option.bind_eq_some_iff]

theorem fieldAt?_of_field (hv : variableAt ⟨t, e⟩ i = .ok (s, v)) (hd : v.storage = .field) :
    t.fieldAt? i = some s := by
  obtain ⟨hs, x, hx, hxv⟩ := variableAt_eq_ok.mp hv
  simp [SymbolTable.fieldAt?, hs, hx, Symbol.isField, hxv, hd]

theorem fieldAt?_of_slot (hv : variableAt ⟨t, e⟩ i = .ok (s, v)) (hd : v.storage ≠ .field) :
    t.fieldAt? i = none := by
  obtain ⟨hs, x, hx, hxv⟩ := variableAt_eq_ok.mp hv
  simp [SymbolTable.fieldAt?, hs, hx, Symbol.isField, hxv, hd]

theorem handle?_binaryOpcode (op : BinaryOperator) : (binaryOpcode op).handle? = none := by
  cases op <;> rfl

theorem referents_field (hv : variableAt ⟨t, e⟩ i = .ok (s, v)) (hd : v.storage = .field) :
    (Expression.reference i name p).referents t = [.field s] := by
  rw [Expression.referents, fieldAt?_of_field hv hd]
  rfl

theorem referents_slot (hv : variableAt ⟨t, e⟩ i = .ok (s, v)) (hd : v.storage ≠ .field) :
    (Expression.reference i name p).referents t = [] := by
  rw [Expression.referents, fieldAt?_of_slot hv hd]
  rfl

mutual

theorem Value.held : HasType t.notes Γ x τ → x.Proper → Value ⟨t, e⟩ x is → Held e (x.referents t) is
  | .length hr _ _, hp, .length hv _ _ => by
    obtain ⟨hp, _, ha⟩ := hp
    obtain rfl := ha rfl
    have h := hv.held hr hp
    simpa [Expression.referents, Expression.referentsAll] using h.concat rfl
  | .length hr _ _, _, .call _ hi hj hτ _ _ _ =>
    absurd (Option.some.inj (hj.symm.trans (typeOf?_eq hr hi))) (hτ _)
  | .call hr _ _ _ _ _ _, _, .length _ hi hj => by
    cases hj.symm.trans (typeOf?_eq hr hi)
  | .call hr ha hn _ _ _ _, hp, .call hv _ _ _ hvs hs hm => by
    rw [Expression.referents, if_neg hn, hs]
    exact ((hv.held hr hp.1).append (hvs.held ha hp.2.1)).append
      (.single rfl (Environment.handle_method.mpr ⟨_, hm, rfl⟩))
  | .newObject _ _, _, .newObject hh hc =>
    .single rfl (Environment.handle_object.mpr ⟨_, hh, _, hc, rfl⟩)
  | .newArray hs _ _, hp, .newArray hh hv =>
    (hv.held hs hp).append (.single rfl (Environment.handle_element.mpr ⟨_, hh, rfl⟩))
  | .not he _, hp, .not hv => by
    rw [Expression.referents]
    exact List.append_nil (Expression.referents t _) ▸ (hv.held he hp).append (.cons rfl (.cons rfl .nil))
  | .arithmetic hl hr _ _, hp, .binary hv hw | .logical hl hr _ _, hp, .binary hv hw =>
    ((hv.held hl hp.1).append (hw.held hr hp.2)).concat (handle?_binaryOpcode _)
  | .boolean _, _, .boolean | .integer _, _, .integer | .self _ _, _, .self => .cons rfl .nil
  | .index ha hs _, hp, .index hv hw _ =>
    ((hv.held ha hp.1).append (hw.held hs hp.2)).concat rfl
  | .reference _ _ _, _, .field hv hd hf => by
    rw [referents_field hv hd]
    exact .cons rfl (.single rfl (Environment.handle_field.mpr ⟨_, hf, rfl⟩))
  | .reference _ _ _, _, .formal hv hd _ | .reference _ _ _, _, .localSlot hv hd _ => by
    rw [referents_slot hv (by simp [hd])]
    exact .cons rfl .nil

theorem Values.held : HaveTypes t.notes Γ xs → Expression.ProperAll xs → Values ⟨t, e⟩ xs is →
    Held e (Expression.referentsAll t xs) is
  | .nil, _, .nil => .nil
  | .cons hx hxs, hp, .cons hv hvs => (hv.held hx hp.1).append (hvs.held hxs hp.2)

end

theorem Address.held_reference (h : Address ⟨t, e⟩ (.reference i name p) is) : Held e [] is := by
  cases h with
  | field => exact .cons rfl .nil
  | slot  => exact .nil

-- The code that stores a value into a target.
theorem Address.held_assign (ha : Address ⟨t, e⟩ target is) (ht : HasType t.notes Γ target τ)
    (hp : target.Proper) (hs : Store ⟨t, e⟩ target o) (hv : Held e (value.referents t) js) :
    Held e ((Statement.assign i target value p).referents t) (is ++ js ++ [⟨o, some p⟩]) := by
  cases ht with
  | @reference name =>
    have h := ha.held_reference.append hv
    show Held e (value.referents t ++ (Expression.reference _ name _).referents t) _
    cases hs with
    | field hr hd hf                     =>
      rw [referents_field hr hd]
      exact h.append (.single rfl (Environment.handle_field.mpr ⟨_, hf, rfl⟩))
    | formal hr hd _ | localSlot hr hd _ =>
      rw [referents_slot hr (by simp [hd]), List.append_nil]
      exact h.concat rfl
  | index har hsub _ =>
    cases ha with | element hva hvs =>
    cases hs with | element =>
    exact (((hva.held har hp.1).append (hvs.held hsub hp.2)).append hv).concat rfl
  | length | call | newObject | newArray | not | arithmetic | logical | boolean | integer | self =>
    cases ha

mutual

theorem Code.held : Checks t.notes Γ F s F' → s.Proper → Code ⟨t, e⟩ s n l is ts →
    Held e (s.referents t) is
  | .declare _ _, _, .declare => .nil
  | .print h, hp, .print hv | .ret h, hp, .ret hv | .assert h, hp, .assert hv
  | .call h, hp, .drop hv _ _ => (hv.held h hp).concat rfl
  | .call h, hp, .call hv _ => hv.held h hp
  | .block hb, hp, .block hs => hs.held hb hp
  | .assign _ ht hx, hp, .assign ha hv hs => ha.held_assign ht hp.1 hs (hv.held hx hp.2)
  | .ifThen hx ht, hp, .ifThen hv hs =>
    (((hv.held hx hp.1).concat rfl).append (hs.held ht hp.2)).concat rfl
  | .ifThenElse hx ht hf, hp, .ifThenElse hv hs hs' =>
    ((((hv.held hx hp.1).concat rfl).append (hs.held ht hp.2.1)).concat rfl).append (hs'.held hf hp.2.2)
  | .loop hx hb, hp, .loop hs hv =>
    (((hs.held hb hp.2).cons rfl).append (hv.held hx hp.1)).concat rfl

theorem CodeAll.held : ChecksAll t.notes Γ F ss F' → Statement.ProperAll ss →
    CodeAll ⟨t, e⟩ ss n l is ts → Held e (Statement.referentsAll t ss) is
  | .nil, _, .nil => .nil
  | .cons hs hss, hp, .cons hc hcs => (hc.held hs hp.1).append (hcs.held hss hp.2)

end

end

end Emit

end MiniJava
