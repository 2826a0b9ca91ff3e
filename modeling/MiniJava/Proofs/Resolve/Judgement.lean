import MiniJava.Proofs.Resolve.Expression
import MiniJava.Proofs.Typing.Names

namespace MiniJava.Resolve

open Typing

-- What the table tells at a place is what the context says.
structure Sees (t : SymbolTable) (place : Place) (Γ : Context) : Prop where
  sound     : Γ.Sound
  inMain    : place.inMain = Γ.inMain
  self      : selfType t place.scope = some (.object Γ.className)
  known     : ∀ name, (t.resolveType? name).isSome = true ↔ Known Γ.program name
  resolves  : ∀ name, Option.Rel t.HasVariable (t.resolve? place.scope .variableNames name)
    (Γ.lookup? name)
  methods   : ∀ className ∈ classNames Γ.program, ∃ scope, classScope? t className = some scope ∧
    ∀ name,
      (∃ s m, t.resolve? scope .methodNames name = some s ∧ t.HasMethod s m ∧
        ∀ m', HasMethod Γ.program className name m' ↔ m' = m) ∨
      t.resolve? scope .methodNames name = none ∧ ∀ m, ¬HasMethod Γ.program className name m

-- Notes do not change what is seen.
theorem Sees.annotate (h : Sees σ.table place Γ) (ha : Annotates ids σ σ') :
    Sees σ'.table place Γ := by
  obtain ⟨⟨scopes, symbols, _, declared, _, _⟩, _, _, _⟩ := σ
  obtain ⟨⟨scopes', symbols', _, declared', _, _⟩, _, _, _⟩ := σ'
  obtain rfl : scopes' = scopes := ha.scopes
  obtain rfl : symbols' = symbols := ha.symbols
  obtain rfl : declared' = declared := ha.declared
  exact ⟨h.sound, h.inMain, h.self, h.known, h.resolves, h.methods⟩

-- Where there is nothing to report the expression has a type, and the table has kept the notes of
-- it; otherwise there is no type and a diagnostic more.
inductive Judged (Γ : Context) (e : Expression) (σ : State) : Option StaticType × State → Prop
  | typed :
    σ'.size = σ.size → HasType σ'.table.notes Γ e τ → (∀ υ, HasType .any Γ e υ → υ = τ) →
      Judged Γ e σ (some τ, σ')
  | untyped : (∀ τ, ¬HasType .any Γ e τ) → σ.size < σ'.size → Judged Γ e σ (r, σ')

inductive JudgedAll (Γ : Context) (es : List Expression) (σ σ' : State) : Prop
  | typed   : σ'.size = σ.size → HaveTypes σ'.table.notes Γ es → JudgedAll Γ es σ σ'
  | untyped : ¬HaveTypes .any Γ es → σ.size < σ'.size → JudgedAll Γ es σ σ'

-- Later reports do not matter.
theorem Judged.untyped_of_adds {out : Option StaticType × State} (hn : ∀ τ, ¬HasType .any Γ e τ)
    (hs : σ.size < σ₁.size) (ha : Adds σ₁ out.2) : Judged Γ e σ out :=
  .untyped hn (Nat.lt_of_lt_of_le hs ha.size_le)

-- The notes with the type of one more node.
structure Sets (i : NodeId) (τ : StaticType) (N N' : Notes) : Prop where
  type     : N'.type i τ
  refersTo : ∀ d, N.refersTo i d → N'.refersTo i d
  calls    : ∀ m, N.calls i m → N'.calls i m
  keeps    : ∀ ids : List NodeId, ids.Disjoint [i] → N.Keeps ids N'

theorem sets_keepType (i : NodeId) (τ : StaticType) (σ : State) :
    Sets i τ σ.table.notes (Resolve.keepType i (some τ) σ).2.table.notes where
  type           := by
    show (σ.table.types.insert i τ)[i]? = some τ
    exact Std.TreeMap.getElem?_insert_self
  refersTo _ h   := h
  calls _ h      := h
  keeps _ hd     := (Annotates.keepType (List.mem_singleton_self i) (some τ) σ).keeps hd

-- The type of a node is noted when its parts have been resolved.
theorem Judged.keepType (hq : σ₁.size = σ.size)
    (h : ∀ N, Sets i τ σ₁.table.notes N → HasType N Γ e τ) (hu : ∀ υ, HasType .any Γ e υ → υ = τ) :
    Judged Γ e σ (Resolve.keepType i (some τ) σ₁) :=
  .typed hq (h _ (sets_keepType i τ σ₁)) hu

-- What a receiver of type `τ` answers to a call with `n` arguments.
inductive Answers (N : Notes) (p : Program) (i : NodeId) (name : String) (n : Nat) :
    StaticType → StaticType → Prop
  | length : name = "length" → Answers N p i name n (.array τ) .int
  | method :
    name ≠ "length" → HasMethod p className name m → m.parameters.length = n → N.calls i m →
      Answers N p i name n (.object className) m.returns

theorem hasType_call_iff :
    HasType N Γ (.call i receiver name arguments p) υ ↔
      ∃ τ, HasType N Γ receiver τ ∧ HaveTypes N Γ arguments ∧
        Answers N Γ.program i name arguments.length τ υ ∧ N.type i υ := by
  constructor
  case mp =>
    intro h
    cases h with
    | length hr ha ht           => exact ⟨_, hr, ha, .length rfl, ht⟩
    | call hr ha hn hm hl hc ht => exact ⟨_, hr, ha, .method hn hm hl hc, ht⟩
  case mpr =>
    rintro ⟨τ, hr, ha, hm, ht⟩
    cases hm with
    | length hn          => exact hn ▸ .length hr ha ht
    | method hn hm hl hc => exact .call hr ha hn hm hl hc ht

inductive Answered (p : Program) (i : NodeId) (name : String) (n : Nat) (τ : StaticType)
    (σ : State) : Option StaticType × State → Prop
  | found :
    σ'.size = σ.size → Answers σ'.table.notes p i name n τ υ →
      (∀ υ', Answers .any p i name n τ υ' → υ' = υ) → Answered p i name n τ σ (some υ, σ')
  | missing :
    (∀ υ, ¬Answers .any p i name n τ υ) → σ.size < σ'.size → Answered p i name n τ σ (r, σ')

theorem answered_resolveMethod (hs : Sees σ.table place Γ) (hc : className ∈ classNames Γ.program)
    (hl : name ≠ "length") :
    Answered Γ.program i name n (.object className) σ (resolveMethod className i name n p σ) := by
  obtain ⟨scope, hscope, hm⟩ := hs.methods className hc
  unfold resolveMethod
  simp only [run_bind, run_get, hscope]
  rcases hm name with ⟨s, m, hr, ⟨scope', owner, hm⟩, hu⟩ | ⟨hr, hu⟩
  case inl =>
    simp only [hr, hm, Option.bind_some, Symbol.asMethod?]
    by_cases hn : m.parameters.length = n
    case pos =>
      simp only [hn, ne_eq, not_true_eq_false, if_false]
      refine .found rfl (.method hl ((hu m).mpr rfl) hn ⟨s, ?referenced, scope', owner, hm⟩) ?unique
      case referenced => simp [SymbolTable.referenced?, SymbolTable.bindReference]
      case unique =>
        intro υ h
        cases h with | method _ hm' => rw [(hu _).mp hm']
    case neg =>
      simp only [hn, ne_eq, not_false_eq_true, if_true]
      refine .missing ?_ (Nat.lt_of_lt_of_eq (Nat.lt_succ_self _) (size_report _ _ _).symm)
      intro υ h
      cases h with | method _ hm' hn' => exact hn ((hu _).mp hm' ▸ hn')
  case inr =>
    simp only [hr]
    refine .missing ?_ (Nat.lt_of_lt_of_eq (Nat.lt_succ_self _) (size_report _ _ _).symm)
    intro υ h
    cases h with | method _ hm' => exact hu _ hm'

theorem answered_resolveCall (hs : Sees σ.table place Γ) (hτ : Denotes Γ.program τ) :
    Answered Γ.program i name n τ σ (resolveCall τ i name n p σ) := by
  have hr (e : SemanticError) (p : Position) : σ.size < (report e p σ).2.size :=
    Nat.lt_of_lt_of_eq (Nat.lt_succ_self _) (size_report _ _ _).symm
  unfold resolveCall
  by_cases hl : name = Keyword.lengthWord.spelling
  case pos =>
    rw [if_pos hl]
    cases τ with
    | array τ =>
      refine .found rfl (.length hl) ?_
      intro υ h
      cases h
      rfl
    | _ =>
      refine .missing ?_ (hr _ _)
      intro υ h
      cases h <;> contradiction
  case neg =>
    rw [if_neg hl]
    cases τ with
    | object className => exact answered_resolveMethod hs hτ hl
    | _ =>
      refine .missing ?_ (hr _ _)
      intro υ h
      cases h <;> contradiction

theorem Answers.sets (h : Answers N p i name n τ υ) (hs : Sets i υ' N N') :
    Answers N' p i name n τ υ := by
  cases h with
  | length hn          => exact .length hn
  | method hn hm hl hc => exact .method hn hm hl (hs.calls _ hc)

theorem lt_size_report (e : SemanticError) (p : Position) (σ : State) :
    σ.size < (report e p σ).2.size :=
  Nat.lt_of_lt_of_eq (Nat.lt_succ_self _) (size_report _ _ _).symm

-- The parts of a node have other numbers than the node.
theorem nodup_append_singleton {ids : List NodeId} (h : (ids ++ [i]).Nodup) :
    ids.Nodup ∧ ids.Disjoint [i] :=
  ⟨(List.nodup_append'.mp h).1, (List.nodup_append'.mp h).2.2⟩

theorem judged_not (hn : (operand.nodeIds ++ [i]).Nodup)
    (hj : Judged Γ operand σ (expression place operand σ)) :
    Judged Γ (.not i operand p) σ (expression place (.not i operand p) σ) := by
  have hd := (nodup_append_singleton hn).2
  rw [expression]
  simp only [run_bind]
  generalize expression place operand σ = out at hj ⊢
  cases hj with
  | typed hq ht _ =>
    apply Judged.keepType hq
    case h =>
      intro N hN
      exact .not (ht.keep (hN.keeps _ hd)) hN.type
    case hu =>
      intro υ h
      cases h
      rfl
  | untyped hu hlt =>
    apply Judged.untyped_of_adds _ hlt (Annotates.keepType (List.mem_singleton_self i) _ _).adds
    intro τ h
    cases h with | not ho => exact hu _ ho

theorem judged_constant (hi : ∀ N, N.type i τ → HasType N Γ e τ)
    (hu : ∀ υ, HasType .any Γ e υ → υ = τ) : Judged Γ e σ (Resolve.keepType i (some τ) σ) :=
  .keepType rfl (fun N hN => hi N hN.type) hu

theorem judged_newObject (hs : Sees σ.table place Γ) :
    Judged Γ (.newObject i name p) σ (expression place (.newObject i name p) σ) := by
  rw [expression]
  simp only [run_bind]
  have hb := Annotates.bindScope (List.mem_singleton_self i) place.scope σ
  have hk := (hs.annotate hb).known name
  have hq : (modifyTable (·.bindScope i place.scope) σ).2.size = σ.size := rfl
  generalize (modifyTable (·.bindScope i place.scope) σ).2 = σ₁ at hk hq ⊢
  unfold resolveCreation
  simp only [run_bind, run_get]
  cases hr : σ₁.table.resolveType? name with
  | none =>
    have hlt := lt_size_report (.unresolved .aType name) p σ₁
    apply Judged.untyped _ (hq ▸ hlt)
    intro τ h
    cases h with
    | newObject hk' =>
      have := hk.mpr hk'
      simp [hr] at this
  | some s =>
    show Judged _ _ _ (keepType i (some (.object name)) (modifyTable (·.bindReference i s) σ₁).2)
    apply Judged.keepType
    case hq => exact hq
    case h =>
      intro N hN
      exact .newObject (hk.mp (by simp [hr])) hN.type
    case hu =>
      intro υ h
      cases h
      rfl

theorem judged_newArray (hs : Sees σ.table place Γ) (hn : (size.nodeIds ++ [i]).Nodup)
    (hj : ∀ {σ}, Sees σ.table place Γ → Judged Γ size σ (expression place size σ)) :
    Judged Γ (.newArray i name size p) σ (expression place (.newArray i name size p) σ) := by
  have hd := (nodup_append_singleton hn).2
  have hi := List.mem_singleton_self i
  rw [expression]
  simp only [run_bind]
  have hs₁ := hs.annotate (Annotates.bindScope hi place.scope σ)
  have hq : (modifyTable (·.bindScope i place.scope) σ).2.size = σ.size := rfl
  generalize (modifyTable (·.bindScope i place.scope) σ).2 = σ₁ at hs₁ hq ⊢
  have hj := hj hs₁
  have hk := (hs₁.annotate (Annotates.expression place size σ₁)).known name
  generalize expression place size σ₁ = out at hj hk ⊢
  have ha (σ : State) := (Annotates.keepType hi (some (.ofDeclared name true)) σ).adds
  have hc (σ : State) : Annotates [i] σ (checkTypeName name p σ).2 := .checkTypeName name p σ
  cases hj with
  | typed hq₂ ht _ =>
    by_cases hr : Known Γ.program name
    case pos =>
      simp only [checkTypeName_of_some (hk.mpr hr)]
      apply Judged.keepType (hq₂.trans hq)
      case h =>
        intro N hN
        exact .newArray (ht.keep (hN.keeps _ hd)) hr hN.type
      case hu =>
        intro υ h
        cases h
        rfl
    case neg =>
      simp only [checkTypeName_of_none (mt hk.mp hr)]
      apply Judged.untyped_of_adds _ (hq₂.trans hq ▸ lt_size_report _ _ _) (ha _)
      intro τ h
      cases h with | newArray _ hk' => exact hr hk'
  | untyped hu hlt =>
    apply Judged.untyped_of_adds _ (hq ▸ hlt) ((hc _).adds.trans (ha _))
    intro τ h
    cases h with | newArray ht => exact hu _ ht

theorem judged_binary (hs : Sees σ.table place Γ)
    (hn : (left.nodeIds ++ right.nodeIds ++ [i]).Nodup)
    (hl : Judged Γ left σ (expression place left σ))
    (hr : ∀ {σ}, Sees σ.table place Γ → Judged Γ right σ (expression place right σ)) :
    Judged Γ (.binary i op left right p) σ (expression place (.binary i op left right p) σ) := by
  obtain ⟨hlr, hi⟩ := nodup_append_singleton hn
  have hd := (List.nodup_append'.mp hlr).2.2
  obtain ⟨hdl, hdr⟩ := List.disjoint_append_left.mp hi
  rw [expression]
  simp only [run_bind]
  have hs₁ := hs.annotate (Annotates.expression place left σ)
  generalize expression place left σ = out at hl hs₁ ⊢
  have hr := hr hs₁
  have ha := Annotates.expression place right out.2
  have hk (σ : State) (τ : StaticType) : Annotates [i] σ (Resolve.keepType i (some τ) σ).2 :=
    .keepType (List.mem_singleton_self i) _ σ
  cases hl with
  | untyped hu hlt =>
    apply Judged.untyped_of_adds _ hlt (ha.adds.trans (hk _ _).adds)
    intro τ h
    cases h with | arithmetic h | logical h => exact hu _ h
  | typed hql hl _ =>
    generalize expression place right _ = out₂ at hr ha ⊢
    cases hr with
    | untyped hu hlt =>
      apply Judged.untyped_of_adds _ (hql ▸ hlt) (hk _ _).adds
      intro τ h
      cases h with | arithmetic _ h | logical _ h => exact hu _ h
    | typed hqr hr _ =>
      have hl := hl.keep (ha.keeps hd)
      apply Judged.keepType (hqr.trans hql)
      case h =>
        intro N hN
        have hl := hl.keep (hN.keeps _ hdl)
        have hr := hr.keep (hN.keeps _ hdr)
        by_cases ho : op.family = .arithmetic
        case pos =>
          simp only [if_pos ho] at hN ⊢
          exact .arithmetic hl hr ho hN.type
        case neg =>
          simp only [if_neg ho] at hN ⊢
          exact .logical hl hr ho hN.type
      case hu =>
        intro υ h
        cases h with
        | arithmetic _ _ ho => rw [if_pos ho]
        | logical _ _ ho    => rw [if_neg ho]

theorem judged_self (hs : Sees σ.table place Γ) :
    Judged Γ (.self i p) σ (expression place (.self i p) σ) := by
  rw [expression]
  simp only [run_bind]
  have hs := hs.annotate (Annotates.bindScope (List.mem_singleton_self i) place.scope σ)
  have hq : (modifyTable (·.bindScope i place.scope) σ).2.size = σ.size := rfl
  generalize (modifyTable (·.bindScope i place.scope) σ).2 = σ₁ at hs hq ⊢
  have hm := hs.inMain
  by_cases hi : place.inMain = true
  case pos =>
    rw [if_pos hi]
    apply Judged.untyped_of_adds _ (hq ▸ lt_size_report .thisInMain p σ₁)
      (Annotates.keepType (List.mem_singleton_self i) _ _).adds
    intro τ h
    cases h with | self hf => simp_all
  case neg =>
    rw [if_neg hi]
    show Judged _ _ _ (keepType i (selfType σ₁.table place.scope) σ₁)
    rw [hs.self]
    apply Judged.keepType hq
    case h =>
      intro N hN
      exact .self (by simpa [hm] using hi) hN.type
    case hu =>
      intro υ h
      cases h
      rfl

-- What is left to do when the parts of an indexed expression have been resolved.
theorem judged_index (hs : Sees σ.table place Γ)
    (hn : (array.nodeIds ++ subscript.nodeIds ++ [i]).Nodup)
    (ha : Judged Γ array σ (expression place array σ))
    (hj : ∀ {σ}, Sees σ.table place Γ → Judged Γ subscript σ (expression place subscript σ)) :
    Judged Γ (.index i array subscript p) σ (expression place (.index i array subscript p) σ) := by
  obtain ⟨has, hi⟩ := nodup_append_singleton hn
  have hd := (List.nodup_append'.mp has).2.2
  obtain ⟨hda, hds⟩ := List.disjoint_append_left.mp hi
  rw [expression]
  simp only [run_bind]
  have hs₁ := hs.annotate (Annotates.expression place array σ)
  generalize expression place array σ = out at ha hs₁ ⊢
  have hj := hj hs₁
  have hk := Annotates.expression place subscript out.2
  have hw (σ : State) (τ : StaticType) : Annotates [i] σ (Resolve.keepType i (some τ) σ).2 :=
    .keepType (List.mem_singleton_self i) _ σ
  cases ha with
  | untyped hu hlt =>
    rename_i r σ₁
    have hlt := Nat.lt_of_lt_of_le hlt hk.adds.size_le
    have hu (τ : StaticType) : ¬HasType .any Γ (.index i array subscript p) τ := by
      intro h
      cases h with | index h => exact hu _ h
    cases r with
    | none   => exact .untyped hu hlt
    | some τ =>
      cases τ with
      | array τ => exact .untyped_of_adds hu hlt (hw _ τ).adds
      | int | boolean | void | object _ => exact .untyped_of_adds hu hlt (.report _ _ _)
  | typed hqa ha hua =>
    rename_i τ σ₁
    generalize expression place subscript _ = out₂ at hj hk ⊢
    cases hj with
    | untyped hu hlt =>
      replace hlt : σ.size < _ := Nat.lt_of_le_of_lt (Nat.le_of_eq hqa.symm) hlt
      have hu (τ : StaticType) : ¬HasType .any Γ (.index i array subscript p) τ := by
        intro h
        cases h with | index _ h => exact hu _ h
      cases τ with
      | array τ => exact .untyped_of_adds hu hlt (hw _ τ).adds
      | int | boolean | void | object _ => exact .untyped_of_adds hu hlt (.report _ _ _)
    | typed hqs hj _ =>
      have hq := hqs.trans hqa
      have ha := ha.keep (hk.keeps hd)
      cases τ with
      | array τ =>
        apply Judged.keepType hq
        case h =>
          intro N hN
          exact .index (ha.keep (hN.keeps _ hda)) (hj.keep (hN.keeps _ hds)) hN.type
        case hu =>
          intro υ h
          cases h with | index h => exact StaticType.array.inj (hua _ h)
      | int | boolean | void | object _ =>
        apply Judged.untyped _ (hq ▸ lt_size_report _ _ _)
        intro τ h
        cases h with | index h => cases hua _ h

theorem judged_reference (hs : Sees σ.table place Γ) :
    Judged Γ (.reference i name p) σ (expression place (.reference i name p) σ) := by
  have hi := List.mem_singleton_self i
  rw [expression]
  simp only [run_bind]
  have hv := (hs.annotate (Annotates.bindScope hi place.scope σ)).resolves name
  have hq : (modifyTable (·.bindScope i place.scope) σ).2.size = σ.size := rfl
  generalize (modifyTable (·.bindScope i place.scope) σ).2 = σ₁ at hv hq ⊢
  unfold resolveReference
  simp only [run_bind, run_get]
  generalize hr : σ₁.table.resolve? place.scope .variableNames name = r at hv ⊢
  generalize hd : Γ.lookup? name = v at hv
  cases hv with
  | none =>
    apply Judged.untyped _ (hq ▸ lt_size_report (.unresolved .aVariable name) p σ₁)
    intro τ h
    cases h with | reference hd' => simp [hd] at hd'
  | @some s d hv =>
    have ⟨slot, hsym⟩ := hv
    show Judged _ _ _ (keepType i (((σ₁.table.symbol? s).bind Symbol.asVariable?).map (·.type))
      (modifyTable (·.bindReference i s) σ₁).2)
    simp only [hsym, VariableDeclaration.symbol, Option.bind_some, Symbol.asVariable?,
      Option.map_some]
    apply Judged.keepType
    case hq => exact hq
    case h =>
      intro N hN
      exact .reference hd (hN.refersTo _ ⟨s, Std.TreeMap.getElem?_insert_self, hv⟩) hN.type
    case hu =>
      intro υ h
      cases h with | reference hd' => rw [Option.some.inj (hd.symm.trans hd')]

theorem judged_call (hs : Sees σ.table place Γ)
    (hp : (Expression.call i receiver name arguments p).Proper)
    (hn : (receiver.nodeIds ++ Expression.nodeIdsOf arguments ++ [i]).Nodup)
    (hr : ∀ {σ}, Sees σ.table place Γ → Judged Γ receiver σ (expression place receiver σ))
    (ha : ∀ {σ}, Sees σ.table place Γ → JudgedAll Γ arguments σ (expressions place arguments σ).2) :
    Judged Γ (.call i receiver name arguments p) σ
      (expression place (.call i receiver name arguments p) σ) := by
  obtain ⟨hra, hi⟩ := nodup_append_singleton hn
  have hd := (List.nodup_append'.mp hra).2.2
  obtain ⟨hdr, hda⟩ := List.disjoint_append_left.mp hi
  have hi := List.mem_singleton_self i
  rw [expression]
  simp only [run_bind]
  have hs₁ := hs.annotate (Annotates.bindScope hi place.scope σ)
  have hq : (modifyTable (·.bindScope i place.scope) σ).2.size = σ.size := rfl
  generalize (modifyTable (·.bindScope i place.scope) σ).2 = σ₁ at hs₁ hq ⊢
  have hr := hr hs₁
  have hs₂ := hs₁.annotate (Annotates.expression place receiver σ₁)
  generalize expression place receiver σ₁ = out at hr hs₂ ⊢
  have ha := ha hs₂
  have hk := Annotates.expressions place arguments out.2
  have hs₃ := hs₂.annotate hk
  have hw (τ : StaticType) (σ : State) :
      Adds σ (Resolve.keepType i (resolveCall τ i name arguments.length p σ).1
        (resolveCall τ i name arguments.length p σ).2).2 :=
    (Annotates.resolveCall hi τ name arguments.length p σ).adds.trans (Annotates.keepType hi _ _).adds
  cases hr with
  | untyped hu hlt =>
    rename_i r σ₂
    replace hlt : σ.size < _ := hq ▸ Nat.lt_of_lt_of_le hlt hk.adds.size_le
    have hu (τ : StaticType) : ¬HasType .any Γ (.call i receiver name arguments p) τ := by
      intro h
      obtain ⟨_, h, _⟩ := hasType_call_iff.mp h
      exact hu _ h
    cases r with
    | none   => exact .untyped hu hlt
    | some τ => exact .untyped_of_adds hu hlt (hw τ _)
  | typed hqr hr hur =>
    rename_i τ σ₂
    dsimp only at ha hk hs₃ ⊢
    generalize (expressions place arguments σ₂).2 = σ₃ at ha hk hs₃ ⊢
    cases ha with
    | untyped hu hlt =>
      apply Judged.untyped_of_adds _ (hqr.trans hq ▸ hlt) (hw τ _)
      intro υ h
      obtain ⟨_, _, h, _⟩ := hasType_call_iff.mp h
      exact hu h
    | typed hqa ha =>
      have hc : Answered Γ.program i name arguments.length τ σ₃
          (resolveCall τ i name arguments.length p σ₃) :=
        answered_resolveCall hs₃ (hr.denotes hs₃.sound hp.1)
      have hk' := Annotates.resolveCall hi τ name arguments.length p σ₃
      replace hr := hr.keep (hk.keeps hd)
      show Judged _ _ _ (Resolve.keepType i (resolveCall τ i name arguments.length p σ₃).1
        (resolveCall τ i name arguments.length p σ₃).2)
      generalize resolveCall τ i name arguments.length p σ₃ = out at hc hk' ⊢
      have hq := (hqa.trans hqr).trans hq
      cases hc with
      | found hqc hc huc =>
        apply Judged.keepType (hqc.trans hq)
        case h =>
          intro N hN
          have hr := (hr.keep (hk'.keeps hdr)).keep (hN.keeps _ hdr)
          have ha := (ha.keep (hk'.keeps hda)).keep (hN.keeps _ hda)
          exact hasType_call_iff.mpr ⟨τ, hr, ha, hc.sets hN, hN.type⟩
        case hu =>
          intro υ h
          obtain ⟨τ', hr', _, hc', _⟩ := hasType_call_iff.mp h
          exact huc υ (hur τ' hr' ▸ hc')
      | missing huc hlt =>
        apply Judged.untyped_of_adds _ (hq ▸ hlt) (Annotates.keepType hi _ _).adds
        intro υ h
        obtain ⟨τ', hr', _, hc', _⟩ := hasType_call_iff.mp h
        exact huc υ (hur τ' hr' ▸ hc')

mutual

-- The induction is on the expression; each step has what was seen before its parts were resolved.
theorem judged_expression (e : Expression) (hp : e.Proper) (hn : e.nodeIds.Nodup)
    (hs : Sees σ.table place Γ) : Judged Γ e σ (expression place e σ) := by
  match e with
  | .call i receiver name arguments p =>
    obtain ⟨hnr, hna, _⟩ := List.nodup_append'.mp (nodup_append_singleton hn).1
    exact judged_call hs hp hn (judged_expression receiver hp.1 hnr)
      (judged_expressions arguments hp.2.1 hna)
  | .newObject i name p => exact judged_newObject hs
  | .newArray i name size p =>
    exact judged_newArray hs hn (judged_expression size hp (nodup_append_singleton hn).1)
  | .not i operand p =>
    exact judged_not hn (judged_expression operand hp (nodup_append_singleton hn).1 hs)
  | .binary i op left right p =>
    obtain ⟨hnl, hnr, _⟩ := List.nodup_append'.mp (nodup_append_singleton hn).1
    exact judged_binary hs hn (judged_expression left hp.1 hnl hs)
      (judged_expression right hp.2 hnr)
  | .boolean i value p => exact judged_constant (fun _ => .boolean) fun | _, .boolean _ => rfl
  | .integer i value p => exact judged_constant (fun _ => .integer) fun | _, .integer _ => rfl
  | .self i p => exact judged_self hs
  | .index i array subscript p =>
    obtain ⟨hna, hns, _⟩ := List.nodup_append'.mp (nodup_append_singleton hn).1
    exact judged_index hs hn (judged_expression array hp.1 hna hs)
      (judged_expression subscript hp.2 hns)
  | .reference i name p => exact judged_reference hs
  | .malformed _ => exact hp.elim

theorem judged_expressions (es : List Expression) (hp : Expression.ProperAll es)
    (hn : (Expression.nodeIdsOf es).Nodup) (hs : Sees σ.table place Γ) :
    JudgedAll Γ es σ (expressions place es σ).2 := by
  match es with
  | [] => exact .typed rfl .nil
  | e :: es =>
    obtain ⟨hne, hnes, hd⟩ := List.nodup_append'.mp hn
    have hj := judged_expression e hp.1 hne hs
    have hs₁ := hs.annotate (Annotates.expression place e σ)
    rw [expressions]
    simp only [run_bind]
    generalize expression place e σ = out at hj hs₁ ⊢
    have hk := Annotates.expressions place es out.2
    have hjs := judged_expressions es hp.2 hnes hs₁
    cases hj with
    | untyped hu hlt =>
      apply JudgedAll.untyped _ (Nat.lt_of_lt_of_le hlt hk.adds.size_le)
      intro h
      cases h with | cons he => exact hu _ he
    | typed hq he _ =>
      cases hjs with
      | untyped hu hlt =>
        apply JudgedAll.untyped _ (Nat.lt_of_le_of_lt (Nat.le_of_eq hq.symm) hlt)
        intro h
        cases h with | cons _ hes => exact hu hes
      | typed hqs hes => exact .typed (hqs.trans hq) (.cons (he.keep (hk.keeps hd)) hes)

end

end MiniJava.Resolve
