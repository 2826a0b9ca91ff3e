import MiniJava.Proofs.Emit.Run
import MiniJava.Proofs.Resolve.ScopeTree

namespace MiniJava

def Symbol.isField (x : Symbol) : Bool :=
  x.asVariable?.any (·.storage = .field)

def Symbol.isClass (x : Symbol) : Bool :=
  x.asType?.any (!·.builtin)

namespace Environment

namespace Layout

variable {l : Layout} {x : Symbol} {s : SymbolId}

-- What the next symbol changes.
theorem methodHandle_place (s' : SymbolId) :
    (l.place s x).environment.methodHandle s' =
      if x.asMethod?.isSome = true ∧ s = s' then .ok ⟨l.methods⟩
      else l.environment.methodHandle s' := by
  obtain ⟨_, k, _⟩ := x
  match k with
  | .ofMethod μ                    => simp [place, Symbol.asMethod?, methodHandle_insertMethod]
  | .ofVariable ⟨_, .field, _⟩     => rfl
  | .ofVariable ⟨_, .formal, _⟩    => rfl
  | .ofVariable ⟨_, .localSlot, _⟩ => rfl
  | .ofType ⟨true, _, _⟩           => rfl
  | .ofType ⟨false, _, _⟩          => rfl

theorem fieldHandle_place (s' : SymbolId) :
    (l.place s x).environment.fieldHandle s' =
      if x.isField = true ∧ s = s' then .ok ⟨l.fields⟩ else l.environment.fieldHandle s' := by
  obtain ⟨_, k, _⟩ := x
  match k with
  | .ofVariable ⟨_, .field, _⟩     =>
    simp [place, Symbol.isField, Symbol.asVariable?, fieldHandle_insertField]
  | .ofVariable ⟨_, .formal, _⟩    => rfl
  | .ofVariable ⟨_, .localSlot, _⟩ => rfl
  | .ofMethod μ                    => rfl
  | .ofType ⟨true, _, _⟩           => rfl
  | .ofType ⟨false, _, _⟩          => rfl

theorem typeHandle_place (name : String) :
    (l.place s x).environment.typeHandle name =
      if x.asType?.isSome = true ∧ x.name = name then .ok ⟨l.types⟩
      else l.environment.typeHandle name := by
  obtain ⟨xname, k, _⟩ := x
  have he := typeHandle_insertType l.environment xname name ⟨l.types⟩
  match k with
  | .ofType ⟨true, _, _⟩           => exact he.trans (by simp [Symbol.asType?])
  | .ofType ⟨false, _, _⟩          => exact he.trans (by simp [Symbol.asType?])
  | .ofMethod μ                    => rfl
  | .ofVariable ⟨_, .field, _⟩     => rfl
  | .ofVariable ⟨_, .formal, _⟩    => rfl
  | .ofVariable ⟨_, .localSlot, _⟩ => rfl

theorem constructor_place (t : TypeHandle) :
    (l.place s x).environment.constructor t =
      if x.isClass = true ∧ l.types = t.number then .ok ⟨l.types⟩
      else l.environment.constructor t := by
  obtain ⟨_, k, _⟩ := x
  match k with
  | .ofType ⟨true, _, _⟩           => rfl
  | .ofType ⟨false, _, _⟩          =>
    simp only [place, Bool.false_eq_true, if_false, constructor_insertConstructor]
    simp [Symbol.isClass, Symbol.asType?, constructor, insertType]
  | .ofMethod μ                    => rfl
  | .ofVariable ⟨_, .field, _⟩     => rfl
  | .ofVariable ⟨_, .formal, _⟩    => rfl
  | .ofVariable ⟨_, .localSlot, _⟩ => rfl

theorem methods_place :
    (l.place s x).methods = if x.asMethod?.isSome = true then l.methods + 1 else l.methods := by
  obtain ⟨_, k, _⟩ := x
  match k with
  | .ofMethod μ                    => rfl
  | .ofType _                      => rfl
  | .ofVariable ⟨_, .field, _⟩     => rfl
  | .ofVariable ⟨_, .formal, _⟩    => rfl
  | .ofVariable ⟨_, .localSlot, _⟩ => rfl

theorem types_place :
    (l.place s x).types = if x.asType?.isSome = true then l.types + 1 else l.types := by
  obtain ⟨_, k, _⟩ := x
  match k with
  | .ofType _                      => rfl
  | .ofMethod μ                    => rfl
  | .ofVariable ⟨_, .field, _⟩     => rfl
  | .ofVariable ⟨_, .formal, _⟩    => rfl
  | .ofVariable ⟨_, .localSlot, _⟩ => rfl

end Layout

variable {ps : List (Symbol × SymbolId)} {l : Layout}

-- The layout of symbols under their numbers.
structure Laid (ps : List (Symbol × SymbolId)) (l : Layout) : Prop where
  methods      : ∀ x s, (x, s) ∈ ps → x.asMethod?.isSome = true →
    ∃ h, l.environment.methodHandle s = .ok h
  fields       : ∀ x s, (x, s) ∈ ps → x.isField = true →
    ∃ h, l.environment.fieldHandle s = .ok h
  types        : ∀ x s, (x, s) ∈ ps → x.asType?.isSome = true →
    ∃ h, l.environment.typeHandle x.name = .ok h
  methods_lt   : ∀ s h, l.environment.methodHandle s = .ok h → h.number < l.methods
  types_lt     : ∀ name h, l.environment.typeHandle name = .ok h → h.number < l.types
  methods_inj  : ∀ s s' h, l.environment.methodHandle s = .ok h →
    l.environment.methodHandle s' = .ok h → s = s'
  -- The handle of a name is that of the last type with the name.
  constructors : ∀ name h, l.environment.typeHandle name = .ok h →
    ∃ x s, (x, s) ∈ ps ∧ x.name = name ∧ x.asType?.isSome = true ∧
      (x.isClass = true → ∃ c, l.environment.constructor h = .ok c)

theorem laid_empty : Laid [] .empty where
  methods      := nofun
  fields       := nofun
  types        := nofun
  methods_lt   := by simp [Layout.empty, empty, methodHandle]
  types_lt     := by simp [Layout.empty, empty, typeHandle]
  methods_inj  := by simp [Layout.empty, empty, methodHandle]
  constructors := by simp [Layout.empty, empty, typeHandle]

theorem mem_concat {p q : Symbol × SymbolId} : q ∈ ps ++ [p] ↔ q ∈ ps ∨ q = p := by
  simp

section

variable {H K : Type} [DecidableEq K] {handle handle' : K → Except InternalError H}
  {test : Symbol → Bool} {x : Symbol} {s : SymbolId} {next : H}

-- The next symbol gets the next handle if it is of the kind, and those before it have theirs.
theorem exists_handle_concat (key : Symbol → SymbolId → K)
    (hp : ∀ k, handle' k = if test x = true ∧ key x s = k then .ok next else handle k)
    (h : ∀ x s, (x, s) ∈ ps → test x = true → ∃ h, handle (key x s) = .ok h) :
    ∀ x' s', (x', s') ∈ ps ++ [(x, s)] → test x' = true → ∃ h, handle' (key x' s') = .ok h := by
  intro x' s' hx' hk
  rw [hp]
  split
  case isTrue     => exact ⟨_, rfl⟩
  case isFalse hn =>
    rcases mem_concat.mp hx' with hx' | he
    case inl => exact h x' s' hx' hk
    case inr =>
      obtain ⟨rfl, rfl⟩ := Prod.mk.inj he
      exact absurd ⟨hk, rfl⟩ hn

theorem handle_lt_concat {P : Prop} [Decidable P] {number : H → Nat} {key : K}
    (h : ∀ k h, handle k = .ok h → number h < n)
    (hp : ∀ k, handle' k = if P ∧ key = k then .ok next else handle k) (hn : number next = n) :
    ∀ k h, handle' k = .ok h → number h < if P then n + 1 else n := by
  intro k m hm
  rw [hp] at hm
  split at hm
  case isTrue hx =>
    obtain rfl := Except.ok.inj hm
    rw [if_pos hx.1, hn]
    exact Nat.lt_succ_self _
  case isFalse =>
    have hlt := h k m hm
    split
    case isTrue  => exact Nat.lt_succ_of_lt hlt
    case isFalse => exact hlt

end

theorem Laid.place (h : Laid ps l) (x : Symbol) (s : SymbolId) :
    Laid (ps ++ [(x, s)]) (l.place s x) := by
  constructor
  case methods => exact exists_handle_concat (fun _ s => s) Layout.methodHandle_place h.methods
  case fields  => exact exists_handle_concat (fun _ s => s) Layout.fieldHandle_place h.fields
  case types   => exact exists_handle_concat (fun x _ => x.name) Layout.typeHandle_place h.types
  case methods_lt =>
    rw [Layout.methods_place]
    exact handle_lt_concat h.methods_lt Layout.methodHandle_place rfl
  case types_lt =>
    rw [Layout.types_place]
    exact handle_lt_concat h.types_lt Layout.typeHandle_place rfl
  case methods_inj =>
    intro s' s'' m hm hm'
    rw [Layout.methodHandle_place] at hm hm'
    -- The handle of the next symbol is greater than those so far.
    have hne {s'} (hm : l.environment.methodHandle s' = .ok m) : m ≠ ⟨l.methods⟩ := by
      rintro rfl
      exact Nat.lt_irrefl _ (h.methods_lt s' _ hm)
    split at hm <;> split at hm'
    case isTrue.isTrue hs hs' => exact hs.2.symm.trans hs'.2
    case isTrue.isFalse       => exact absurd (Except.ok.inj hm).symm (hne hm')
    case isFalse.isTrue       => exact absurd (Except.ok.inj hm').symm (hne hm)
    case isFalse.isFalse      => exact h.methods_inj s' s'' m hm hm'
  case constructors =>
    intro name t ht
    rw [Layout.typeHandle_place] at ht
    rw [Layout.constructor_place]
    split at ht
    case isTrue hx =>
      obtain rfl := Except.ok.inj ht
      exact ⟨x, s, by simp, hx.2, hx.1, fun hc => ⟨_, if_pos ⟨hc, rfl⟩⟩⟩
    case isFalse =>
      obtain ⟨x', s', hx', hn, hk, hc⟩ := h.constructors name t ht
      refine ⟨x', s', List.mem_append_left _ hx', hn, hk, fun hb => ?_⟩
      rw [if_neg fun hl => Nat.ne_of_gt (h.types_lt name t ht) hl.2]
      exact hc hb

theorem Laid.foldl (h : Laid ps l) (qs : List (Symbol × SymbolId)) :
    Laid (ps ++ qs) (qs.foldl (fun l (x, s) => l.place s x) l) := by
  induction qs generalizing ps l with
  | nil          => rwa [List.append_nil]
  | cons q qs hi => simpa using hi (h.place q.1 q.2)

section

variable {t : SymbolTable}

theorem mem_symbols_iff : (x, s) ∈ t.symbols.toList.zipIdx ↔ t.symbol? s = some x := by
  rw [List.mem_zipIdx_iff_getElem?, Array.getElem?_toList]
  rfl

theorem laid_sequential (t : SymbolTable) :
    ∃ l : Layout, l.environment = sequential t ∧ Laid t.symbols.toList.zipIdx l :=
  ⟨_, rfl, laid_empty.foldl t.symbols.toList.zipIdx⟩

theorem exists_methodHandle (h : t.symbol? s = some x) (hx : x.asMethod?.isSome = true) :
    ∃ m, (sequential t).methodHandle s = .ok m := by
  obtain ⟨l, he, hl⟩ := laid_sequential t
  exact he ▸ hl.methods x s (mem_symbols_iff.mpr h) hx

theorem exists_fieldHandle (h : t.symbol? s = some x) (hx : x.isField = true) :
    ∃ f, (sequential t).fieldHandle s = .ok f := by
  obtain ⟨l, he, hl⟩ := laid_sequential t
  exact he ▸ hl.fields x s (mem_symbols_iff.mpr h) hx

theorem exists_typeHandle (h : t.symbol? s = some x) (hx : x.asType?.isSome = true) :
    ∃ h, (sequential t).typeHandle x.name = .ok h := by
  obtain ⟨l, he, hl⟩ := laid_sequential t
  exact he ▸ hl.types x s (mem_symbols_iff.mpr h) hx

theorem methodHandle_inj (h : (sequential t).methodHandle s = .ok m)
    (h' : (sequential t).methodHandle s' = .ok m) : s = s' := by
  obtain ⟨l, he, hl⟩ := laid_sequential t
  exact hl.methods_inj s s' m (he ▸ h) (he ▸ h')

-- No class has the name of a built-in type.
theorem exists_constructor (ht : t.Tree) (h : (sequential t).typeHandle name = .ok handle)
    (hn : name ∉ builtinTypes) : ∃ c, (sequential t).constructor handle = .ok c := by
  obtain ⟨l, he, hl⟩ := laid_sequential t
  obtain ⟨x, s, hx, rfl, hk, hc⟩ := hl.constructors name handle (he ▸ h)
  refine he ▸ hc ?_
  obtain ⟨τ, hτ⟩ := Option.isSome_iff_exists.mp hk
  have hb : τ.builtin = false := Bool.eq_false_iff.mpr fun hb =>
    hn (ht.builtins s x τ (mem_symbols_iff.mp hx) hτ hb)
  simp [Symbol.isClass, hτ, hb]

end

end Environment

end MiniJava
