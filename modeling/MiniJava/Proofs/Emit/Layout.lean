import Mathlib.Logic.Basic
import MiniJava.Proofs.Emit.Run
import MiniJava.Tree.Nodes

namespace MiniJava.Emit

mutual

inductive Value (g : Context) : Expression → List Instruction → Prop
  | length (hr : Value g receiver is) (hi : receiver.id? = some j)
      (ht : g.table.typeOf? j = some (.array τ)) :
      Value g (.call i receiver name arguments p) (is ++ [⟨.arrayLength, some p⟩])
  | call (hr : Value g receiver is) (hi : receiver.id? = some j) (ht : g.table.typeOf? j = some τ)
      (hτ : ∀ υ, τ ≠ .array υ) (ha : Values g arguments js) (hs : g.table.referenced? i = some s)
      (hm : g.environment.methodHandle s = .ok m) :
      Value g (.call i receiver name arguments p) (is ++ js ++ [⟨.call m, some p⟩])
  | newObject (ht : g.environment.typeHandle name = .ok t)
      (hc : g.environment.constructor t = .ok c) :
      Value g (.newObject i name p) [⟨.newObject c, some p⟩]
  | newArray (ht : g.environment.typeHandle name = .ok t) (hs : Value g size is) :
      Value g (.newArray i name size p) (is ++ [⟨.newArray t, some p⟩])
  | not (he : Value g operand is) :
      Value g (.not i operand p) (is ++ [⟨.pushInt 0, some p⟩, ⟨.equal, some p⟩])
  | binary (hl : Value g left is) (hr : Value g right js) :
      Value g (.binary i op left right p) (is ++ js ++ [⟨binaryOpcode op, some p⟩])
  | boolean : Value g (.boolean i value p) [⟨.pushInt (if value then 1 else 0), some p⟩]
  | integer : Value g (.integer i value p) [⟨.pushInt value, some p⟩]
  | self    : Value g (.self i p) [⟨.loadArg 0, some p⟩]
  | index (ha : Value g array is) (hs : Value g subscript js) (hk : elementKind g array = .ok k) :
      Value g (.index i array subscript p) (is ++ js ++ [⟨.loadElement k, some p⟩])
  | field (hv : variableAt g i = .ok (s, d)) (hd : d.storage = .field)
      (hf : g.environment.fieldHandle s = .ok f) :
      Value g (.reference i name p) [⟨.loadArg 0, some p⟩, ⟨.loadField f, some p⟩]
  | formal (hv : variableAt g i = .ok (s, d)) (hd : d.storage = .formal)
      (hk : slotOf d = .ok slot) :
      Value g (.reference i name p) [⟨.loadArg slot, some p⟩]
  | localSlot (hv : variableAt g i = .ok (s, d)) (hd : d.storage = .localSlot)
      (hk : slotOf d = .ok slot) :
      Value g (.reference i name p) [⟨.loadLocal slot, some p⟩]

inductive Values (g : Context) : List Expression → List Instruction → Prop
  | nil  : Values g [] []
  | cons (he : Value g e is) (hes : Values g es js) : Values g (e :: es) (is ++ js)

end

inductive Address (g : Context) : Expression → List Instruction → Prop
  | field (hv : variableAt g i = .ok (s, d)) (hd : d.storage = .field) :
      Address g (.reference i name p) [⟨.loadArg 0, some p⟩]
  | slot (hv : variableAt g i = .ok (s, d)) (hd : d.storage ≠ .field) :
      Address g (.reference i name p) []
  | element (ha : Value g array is) (hs : Value g subscript js) :
      Address g (.index i array subscript p) (is ++ js)

inductive Store (g : Context) : Expression → Opcode → Prop
  | field (hv : variableAt g i = .ok (s, d)) (hd : d.storage = .field)
      (hf : g.environment.fieldHandle s = .ok f) : Store g (.reference i name p) (.storeField f)
  | formal (hv : variableAt g i = .ok (s, d)) (hd : d.storage = .formal)
      (hk : slotOf d = .ok slot) : Store g (.reference i name p) (.storeArg slot)
  | localSlot (hv : variableAt g i = .ok (s, d)) (hd : d.storage = .localSlot)
      (hk : slotOf d = .ok slot) : Store g (.reference i name p) (.storeLocal slot)
  | element (hk : elementKind g array = .ok k) :
      Store g (.index i array subscript p) (.storeElement k)

mutual

-- A statement has labels of its own, so its code depends on the index `n` of its first instruction
-- and on the number `l` of its first label; the labels from `l` on are bound to the indices that
-- are listed.
inductive Code (g : Context) :
    Statement → (n l : Nat) → List Instruction → (targets : List Nat) → Prop
  | declare : Code g (.declare d) n l [] []
  | print (he : Value g e is) : Code g (.print i e p) n l (is ++ [⟨.callPrintInt, some p⟩]) []
  | ret (he : Value g e is) : Code g (.ret i e p) n l (is ++ [⟨.ret, some p⟩]) []
  | assert (he : Value g e is) : Code g (.assert i e p) n l (is ++ [⟨.callAssert, some p⟩]) []
  | block (h : CodeAll g ss n l is ts) : Code g (.block i ss p) n l is ts
  | assign (ht : Address g target is) (hv : Value g value js) (hs : Store g target o) :
      Code g (.assign i target value p) n l (is ++ js ++ [⟨o, some p⟩]) []
  | ifThen (hc : Value g c is) (ht : Code g s (n + is.length + 1) (l + 1) js ts) :
      Code g (.ifThen i c s p) n l
        (is ++ [⟨.branchIfFalse ⟨l⟩, some p⟩] ++ js ++ [⟨.branch ⟨l⟩, some p⟩])
        ((n + is.length + js.length + 2) :: ts)
  | ifThenElse (hc : Value g c is) (ht : Code g s (n + is.length + 1) (l + 2) js ts)
      (hf : Code g s' (n + is.length + js.length + 2) (l + ts.length + 2) ks us) :
      Code g (.ifThenElse i c s s' p) n l
        (is ++ [⟨.branchIfFalse ⟨l + 1⟩, some p⟩] ++ js ++ [⟨.branch ⟨l⟩, some p⟩] ++ ks)
        ((n + is.length + js.length + ks.length + 2) :: (n + is.length + js.length + 2) ::
          (ts ++ us))
  | loop (hb : Code g s (n + 1) (l + 2) is ts) (hc : Value g c js) :
      Code g (.loop i c s p) n l
        ([⟨.branch ⟨l⟩, some p⟩] ++ is ++ js ++ [⟨.branchIfTrue ⟨l + 1⟩, some p⟩])
        ((n + is.length + 1) :: (n + 1) :: ts)
  | drop (hc : Value g (.call i receiver name arguments p) is)
      (ht : g.table.typeOf? i = some τ) (hτ : τ ≠ .void) :
      Code g (.call i receiver name arguments p) n l (is ++ [⟨.pop, some p⟩]) []
  | call (hc : Value g (.call i receiver name arguments p) is)
      (ht : g.table.typeOf? i = some .void) :
      Code g (.call i receiver name arguments p) n l is []

inductive CodeAll (g : Context) :
    List Statement → (n l : Nat) → List Instruction → (targets : List Nat) → Prop
  | nil  : CodeAll g [] n l [] []
  | cons (hs : Code g s n l is ts) (hss : CodeAll g ss (n + is.length) (l + ts.length) js us) :
      CodeAll g (s :: ss) n l (is ++ js) (ts ++ us)

end

-- The draft with more instructions that bind no labels.
def Draft.append (d : Draft) (is : List Instruction) : Draft :=
  { d with chunk := d.chunk.extend is [] }

@[simp]
theorem Draft.append_append {d : Draft} : (d.append is).append js = d.append (is ++ js) := by
  simp [append]

@[simp]
theorem Draft.append_nil {d : Draft} : d.append [] = d := by
  simp [append]

theorem Draft.emit_eq_append {d : Draft} : d.emit o p = d.append [⟨o, p⟩] := by
  simp [emit, append, Chunk.emit_eq_extend]

@[simp]
theorem emit_eq_ok {a : Unit} : emit o p d = .ok (a, d') ↔ d.append [⟨o, some p⟩] = d' := by
  simp [emit, Draft.emit_eq_append]

@[simp]
theorem staticType_eq_ok : staticType g i = .ok τ ↔ g.table.typeOf? i = some τ :=
  orMissing_eq_ok

@[simp]
theorem nodeOf_eq_ok : nodeOf e = .ok i ↔ e.id? = some i :=
  orMissing_eq_ok

theorem elementKind_eq_ok : elementKind g e = .ok k ↔
    ∃ i τ, e.id? = some i ∧ g.table.typeOf? i = some (.array τ) ∧
      (if τ.isIntegral then .int else .reference) = k := by
  simp only [elementKind, bind_eq_ok, nodeOf_eq_ok, staticType_eq_ok]
  constructor
  case mp =>
    rintro ⟨i, hi, τ, ht, h⟩
    cases τ with
    | array τ => exact ⟨i, τ, hi, ht, Except.ok.inj h⟩
    | _       => cases h
  case mpr =>
    rintro ⟨i, τ, hi, ht, rfl⟩
    exact ⟨i, hi, _, ht, rfl⟩

-- The generator gives the instructions of the expression, and fails if there are none.
def LaysValue (g : Context) (e : Expression) : Prop :=
  ∀ (a : Unit) d d', expression g e d = .ok (a, d') ↔ ∃ is, Value g e is ∧ d.append is = d'

section

variable {receiver size operand left right array subscript : Expression}
  {arguments : List Expression}

-- Arrays are asked for their length only, so their arguments do not matter.
theorem laysValue_call (hr : LaysValue g receiver)
    (ha : ∀ (a : Unit) d d', expressions g arguments d = .ok (a, d') ↔
      ∃ is, Values g arguments is ∧ d.append is = d') :
    LaysValue g (.call i receiver name arguments p) := by
  intro a d d'
  simp only [expression]
  simp [hr _ _ _, and_assoc]
  constructor
  case mp =>
    rintro ⟨is, hr, j, hi, τ, ht, h⟩
    split at h
    case h_1 => exact ⟨_, .length hr hi ht, by simpa using h⟩
    case h_2 hτ =>
      simp [ha, and_assoc] at h
      obtain ⟨js, ha, s, hs, m, hm, h⟩ := h
      exact ⟨_, .call hr hi ht hτ ha hs hm, by simpa using h⟩
  case mpr =>
    rintro ⟨_, h, rfl⟩
    cases h with
    | length hr hi ht => exact ⟨_, hr, _, hi, _, ht, by simp⟩
    | call hr hi ht hτ has hs hm =>
      refine ⟨_, hr, _, hi, _, ht, ?_⟩
      split
      case h_1 => exact absurd rfl (hτ _)
      case h_2 =>
        simp [ha, and_assoc]
        exact ⟨_, has, _, hs, _, hm, rfl⟩

theorem laysValue_newObject : LaysValue g (.newObject i name p) := by
  intro a d d'
  simp only [expression]
  simp [and_assoc]
  constructor
  case mp =>
    rintro ⟨t, ht, c, hc, h⟩
    exact ⟨_, .newObject ht hc, h⟩
  case mpr =>
    rintro ⟨_, h, rfl⟩
    cases h with | newObject ht hc => exact ⟨_, ht, _, hc, rfl⟩

theorem laysValue_newArray (hs : LaysValue g size) : LaysValue g (.newArray i name size p) := by
  intro a d d'
  simp only [expression]
  simp [hs _ _ _, and_assoc]
  constructor
  case mp =>
    rintro ⟨t, ht, is, hs, h⟩
    exact ⟨_, .newArray ht hs, h⟩
  case mpr =>
    rintro ⟨_, h, rfl⟩
    cases h with | newArray ht hs => exact ⟨_, ht, _, hs, rfl⟩

theorem laysValue_not (he : LaysValue g operand) : LaysValue g (.not i operand p) := by
  intro a d d'
  simp only [expression]
  simp [he _ _ _]
  constructor
  case mp =>
    rintro ⟨is, he, h⟩
    exact ⟨_, .not he, h⟩
  case mpr =>
    rintro ⟨_, h, rfl⟩
    cases h with | not he => exact ⟨_, he, rfl⟩

theorem laysValue_binary (hl : LaysValue g left) (hr : LaysValue g right) :
    LaysValue g (.binary i op left right p) := by
  intro a d d'
  simp only [expression]
  simp [hl _ _ _, hr _ _ _]
  constructor
  case mp =>
    rintro ⟨is, hl, js, hr, h⟩
    exact ⟨_, .binary hl hr, by simpa using h⟩
  case mpr =>
    rintro ⟨_, h, rfl⟩
    cases h with | binary hl hr => exact ⟨_, hl, _, hr, by simp⟩

-- An expression that is a single instruction.
theorem laysValue_of_emit (he : expression g e = emit o p)
    (hv : ∀ is, Value g e is ↔ is = [⟨o, some p⟩]) : LaysValue g e := by
  intro a d d'
  simp [he, hv]

theorem laysValue_boolean : LaysValue g (.boolean i value p) := by
  refine laysValue_of_emit (o := .pushInt (if value then 1 else 0)) (p := p) (by simp only [expression])
    fun is => ⟨fun h => ?layout, ?value⟩
  case layout => cases h with | boolean => rfl
  case value  => rintro rfl; exact .boolean

theorem laysValue_integer : LaysValue g (.integer i value p) := by
  refine laysValue_of_emit (o := .pushInt value) (p := p) (by simp only [expression])
    fun is => ⟨fun h => ?layout, ?value⟩
  case layout => cases h with | integer => rfl
  case value  => rintro rfl; exact .integer

theorem laysValue_self : LaysValue g (.self i p) := by
  refine laysValue_of_emit (o := .loadArg 0) (p := p) (by simp only [expression])
    fun is => ⟨fun h => ?layout, ?value⟩
  case layout => cases h with | self => rfl
  case value  => rintro rfl; exact .self

theorem laysValue_index (ha : LaysValue g array) (hs : LaysValue g subscript) :
    LaysValue g (.index i array subscript p) := by
  intro a d d'
  simp only [expression]
  simp [ha _ _ _, hs _ _ _, and_assoc]
  constructor
  case mp =>
    rintro ⟨is, ha, js, hs, k, hk, h⟩
    exact ⟨_, .index ha hs hk, by simpa using h⟩
  case mpr =>
    rintro ⟨_, h, rfl⟩
    cases h with | index ha hs hk => exact ⟨_, ha, _, hs, _, hk, by simp⟩

theorem laysValue_reference : LaysValue g (.reference i name p) := by
  intro a d d'
  simp only [expression]
  simp [and_assoc]
  constructor
  case mp =>
    rintro ⟨s, v, hv, h⟩
    cases hd : v.storage <;> simp [hd, and_assoc] at h <;> obtain ⟨k, hk, h⟩ := h
    case field     => exact ⟨_, .field hv hd hk, h⟩
    case formal    => exact ⟨_, .formal hv hd hk, h⟩
    case localSlot => exact ⟨_, .localSlot hv hd hk, h⟩
  case mpr =>
    rintro ⟨_, h, rfl⟩
    cases h with
    | field hv hd hk | formal hv hd hk | localSlot hv hd hk =>
      refine ⟨_, _, hv, ?_⟩
      simp [hd, hk, and_assoc]

theorem laysValue_malformed : LaysValue g (.malformed p) := by
  intro a d d'
  rw [expression_malformed]
  constructor
  case mp  => exact nofun
  case mpr => exact nofun

end

mutual

theorem laysValue_expression : LaysValue g e := by
  match e with
  | .call ..      => exact laysValue_call laysValue_expression fun _ _ _ => expressions_eq_ok
  | .newObject .. => exact laysValue_newObject
  | .newArray ..  => exact laysValue_newArray laysValue_expression
  | .not ..       => exact laysValue_not laysValue_expression
  | .binary ..    => exact laysValue_binary laysValue_expression laysValue_expression
  | .boolean ..   => exact laysValue_boolean
  | .integer ..   => exact laysValue_integer
  | .self ..      => exact laysValue_self
  | .index ..     => exact laysValue_index laysValue_expression laysValue_expression
  | .reference .. => exact laysValue_reference
  | .malformed _  => exact laysValue_malformed

theorem expressions_eq_ok {a : Unit} :
    expressions g es d = .ok (a, d') ↔ ∃ is, Values g es is ∧ d.append is = d' := by
  match es with
  | [] =>
    simp only [expressions]
    simp
    constructor
    case mp => exact fun h => ⟨_, .nil, by simpa using h⟩
    case mpr =>
      rintro ⟨_, h, rfl⟩
      cases h with | nil => simp
  | e :: es =>
    simp only [expressions]
    simp [laysValue_expression _ _ _, expressions_eq_ok]
    constructor
    case mp =>
      rintro ⟨is, he, js, hes, h⟩
      exact ⟨_, .cons he hes, h⟩
    case mpr =>
      rintro ⟨_, h, rfl⟩
      cases h with | cons he hes => exact ⟨_, he, _, hes, rfl⟩

end

theorem expression_eq_ok {a : Unit} :
    expression g e d = .ok (a, d') ↔ ∃ is, Value g e is ∧ d.append is = d' :=
  laysValue_expression a d d'

theorem address_eq_ok {a : Unit} :
    address g e d = .ok (a, d') ↔ ∃ is, Address g e is ∧ d.append is = d' := by
  cases e
  case reference i name p =>
    simp only [address]
    simp [and_assoc]
    constructor
    case mp =>
      rintro ⟨s, v, hv, h⟩
      by_cases hd : v.storage = .field <;> simp [hd] at h
      case pos => exact ⟨_, .field hv hd, h⟩
      case neg => exact ⟨_, .slot hv hd, by simpa using h⟩
    case mpr =>
      rintro ⟨_, h, rfl⟩
      cases h with
      | field hv hd | slot hv hd => exact ⟨_, _, hv, by simp [hd]⟩
  case index i array subscript p =>
    simp only [address]
    simp [expression_eq_ok]
    constructor
    case mp =>
      rintro ⟨is, ha, js, hs, h⟩
      exact ⟨_, .element ha hs, h⟩
    case mpr =>
      rintro ⟨_, h, rfl⟩
      cases h with | element ha hs => exact ⟨_, ha, _, hs, rfl⟩
  all_goals
    constructor
    case mp  => exact nofun
    case mpr => exact nofun

theorem store_eq_ok {a : Unit} :
    store g e p d = .ok (a, d') ↔ ∃ o, Store g e o ∧ d.append [⟨o, some p⟩] = d' := by
  cases e
  case reference i name p =>
    simp only [store]
    simp [and_assoc]
    constructor
    case mp =>
      rintro ⟨s, v, hv, h⟩
      cases hd : v.storage <;> simp [hd, and_assoc] at h <;> obtain ⟨k, hk, h⟩ := h
      case field     => exact ⟨_, .field hv hd hk, h⟩
      case formal    => exact ⟨_, .formal hv hd hk, h⟩
      case localSlot => exact ⟨_, .localSlot hv hd hk, h⟩
    case mpr =>
      rintro ⟨_, h, rfl⟩
      cases h with
      | field hv hd hk | formal hv hd hk | localSlot hv hd hk =>
        refine ⟨_, _, hv, ?_⟩
        simp [hd, hk, and_assoc]
  case index i array subscript p =>
    simp only [store]
    simp [and_assoc]
    constructor
    case mp =>
      rintro ⟨k, hk, h⟩
      exact ⟨_, .element hk, h⟩
    case mpr =>
      rintro ⟨_, h, rfl⟩
      cases h with | element hk => exact ⟨_, hk, rfl⟩
  all_goals
    constructor
    case mp  => exact nofun
    case mpr => exact nofun

end MiniJava.Emit
