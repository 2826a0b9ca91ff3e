import MiniJava.Proofs.Resolve.ScopeTree

namespace MiniJava

namespace Symbol

theorem asType?_modifyType (f : TypeSymbol → TypeSymbol) (s : Symbol) :
    (s.modifyType f).asType? = s.asType?.map f := by
  obtain ⟨_, k, _⟩ := s
  cases k <;> rfl

theorem asMethod?_modifyType (f : TypeSymbol → TypeSymbol) (s : Symbol) :
    (s.modifyType f).asMethod? = s.asMethod? := by
  obtain ⟨_, k, _⟩ := s
  cases k <;> rfl

theorem name_modifyType (f : TypeSymbol → TypeSymbol) (s : Symbol) :
    (s.modifyType f).name = s.name := by
  obtain ⟨_, k, _⟩ := s
  cases k <;> rfl

theorem declaration_modifyType (f : TypeSymbol → TypeSymbol) (s : Symbol) :
    (s.modifyType f).declaration = s.declaration := by
  obtain ⟨_, k, _⟩ := s
  cases k <;> rfl

end Symbol

namespace SymbolTable

-- A resolution changes its table by these operations only, each with what holds of the table when
-- the resolution comes to it.
inductive Operation (t : SymbolTable) : SymbolTable → Prop
  -- Something is noted of a node.
  | note (hs : t'.scopes = t.scopes) (hx : t'.symbols = t.symbols) : Operation t t'
  | addSymbol (s : ScopeId)
      (hτ : ∀ τ, symbol.asType? = some τ →
        τ.scope = none ∧ τ.superclass = none ∧ (τ.builtin = true → symbol.name ∈ builtinTypes)) :
      Operation t (t.addSymbol s symbol).2
  | openClass (hx : t.type? x = some τ) : Operation t (t.addScope .ofClass globalScope (some x)).2
  | setTypeScope (hs : t.IsClassScope s x) (hx : t.type? x = some τ) (hn : τ.scope = none) :
      Operation t (t.setTypeScope x s)
  | setSuperclass (hx : t.type? x = some τ) (hn : τ.superclass = none) (hy : t.type? y = some υ)
      (hq : υ.scope = some q) (hi : t.inherits y x = false) : Operation t (t.setSuperclass x y)
  | setParent (hs : t.IsClassScope s x) (hx : t.type? x = some τ) (hy : τ.superclass = some y)
      (hυ : t.type? y = some υ) (hq : υ.scope = some q) : Operation t (t.setParent s q)
  | openMethod (hs : t.IsClassScope s x) : Operation t (t.addScope .ofMethod s none).2
  | setOwner (hb : t.scope? s = some b) (hk : b.kind = .ofMethod) (hp : b.parent = some q)
      (hq : t.IsClassScope q x) (hm : t.method? m = some μ) (hs : μ.scope = s) (hx : μ.owner = x) :
      Operation t (t.setOwner s m)
  | openBlock (hb : t.scope? s = some b) (hk : b.kind = .ofMethod ∨ b.kind = .ofBlock) :
      Operation t (t.addScope .ofBlock s none).2

-- What is never taken back.
structure Persists (t t' : SymbolTable) : Prop where
  scope  : ∀ s b, t.scope? s = some b → ∃ b', t'.scope? s = some b' ∧ b'.kind = b.kind ∧
    (b.kind ≠ .ofClass → b'.parent = b.parent) ∧ (b.kind = .ofClass → b'.owner = b.owner)
  symbol : ∀ x a, t.symbol? x = some a →
    ∃ a', t'.symbol? x = some a' ∧ a'.name = a.name ∧ a'.declaration = a.declaration
  type   : ∀ x τ, t.type? x = some τ → ∃ τ', t'.type? x = some τ' ∧
    (∀ q, τ.scope = some q → τ'.scope = some q) ∧
    (∀ y, τ.superclass = some y → τ'.superclass = some y)
  method : ∀ x μ, t.method? x = some μ → t'.method? x = some μ

namespace Persists

theorem refl (t : SymbolTable) : Persists t t where
  scope _ b hb  := ⟨b, hb, rfl, fun _ => rfl, fun _ => rfl⟩
  symbol _ a ha := ⟨a, ha, rfl, rfl⟩
  type _ τ hτ   := ⟨τ, hτ, fun _ h => h, fun _ h => h⟩
  method _ _ hμ := hμ

theorem trans (h : Persists t t') (h' : Persists t' t'') : Persists t t'' where
  scope s b hb  := by
    obtain ⟨b', hb', hk, hp, ho⟩ := h.scope s b hb
    obtain ⟨b'', hb'', hk', hp', ho'⟩ := h'.scope s b' hb'
    rw [hk] at hk' hp' ho'
    exact ⟨b'', hb'', hk', fun hn => (hp' hn).trans (hp hn), fun he => (ho' he).trans (ho he)⟩
  symbol x a ha := by
    obtain ⟨a', ha', hn, hd⟩ := h.symbol x a ha
    obtain ⟨a'', ha'', hn', hd'⟩ := h'.symbol x a' ha'
    exact ⟨a'', ha'', hn'.trans hn, hd'.trans hd⟩
  type x τ hτ   := by
    obtain ⟨τ', hτ', hq, hy⟩ := h.type x τ hτ
    obtain ⟨τ'', hτ'', hq', hy'⟩ := h'.type x τ' hτ'
    exact ⟨τ'', hτ'', fun q h => hq' q (hq q h), fun y h => hy' y (hy y h)⟩
  method x μ hμ := h'.method x μ (h.method x μ hμ)

theorem isClassScope (h : Persists t t') (hs : t.IsClassScope s x) : t'.IsClassScope s x := by
  obtain ⟨b, hb, hk, ho⟩ := hs
  obtain ⟨b', hb', hk', _, ho'⟩ := h.scope s b hb
  exact ⟨b', hb', hk'.trans hk, (ho' hk).trans ho⟩

-- A scope that is not changed itself stays where it is.
theorem placed (h : Persists t t') (hb : t.Placed s b) (hk : b'.kind = b.kind)
    (hp : b'.parent = b.parent) (ho : b'.owner = b.owner) : t'.Placed s b' := by
  cases hb with
  | global hs hk' hp'            => exact .global hs (hk.trans hk') (hp.trans hp')
  | root hk' ho' hx hp'          =>
    obtain ⟨τ', hτ', _⟩ := h.type _ _ hx
    exact .root (hk.trans hk') (ho.trans ho') hτ' (hp.trans hp')
  | derived hk' ho' hx hy hυ hq hp' =>
    obtain ⟨τ', hτ', _, hs⟩ := h.type _ _ hx
    obtain ⟨υ', hυ', hq', _⟩ := h.type _ _ hυ
    exact .derived (hk.trans hk') (ho.trans ho') hτ' (hs _ hy) hυ' (hq' _ hq) (hp.trans hp')
  | ofMethod hk' hp' hq hlt hm   =>
    refine .ofMethod (hk.trans hk') (hp.trans hp') (h.isClassScope hq) hlt fun m hm' => ?_
    obtain ⟨μ, hμ, hm⟩ := hm m (ho.symm.trans hm')
    exact ⟨μ, h.method m μ hμ, hm⟩
  | ofBlock hk' hp' hq hc hlt    =>
    obtain ⟨c', hc', hk'', _⟩ := h.scope _ _ hq
    exact .ofBlock (hk.trans hk') (hp.trans hp') hc' (hk''.symm ▸ hc) hlt

end Persists

-- What an operation has to tell so that the tree is kept.
structure Change (t t' : SymbolTable) : Prop extends Persists t t' where
  placed   : ∀ s b', t'.scope? s = some b' →
    (∃ b, t.scope? s = some b ∧ b'.kind = b.kind ∧ b'.parent = b.parent ∧ b'.owner = b.owner) ∨
      t'.Placed s b'
  scopes   : ∀ x τ' q, t'.type? x = some τ' → τ'.scope = some q →
    (∃ τ, t.type? x = some τ ∧ τ.scope = some q) ∨ t.IsClassScope q x
  supers   : ∀ x τ' y, t'.type? x = some τ' → τ'.superclass = some y →
    (∃ τ, t.type? x = some τ ∧ τ.superclass = some y) ∨
      ∃ υ q, t.type? y = some υ ∧ υ.scope = some q
  ancestry : ∀ x a, t'.symbol? x = some a → ∃ l, t'.Ancestry x l
  builtins : ∀ x a τ, t'.symbol? x = some a → a.asType? = some τ → τ.builtin = true →
    a.name ∈ builtinTypes

theorem Change.tree (h : Change t t') (ht : t.Tree) : t'.Tree where
  global            := by
    obtain ⟨g, hg, hk⟩ := ht.global
    obtain ⟨g', hg', hk', _⟩ := h.scope _ g hg
    exact ⟨g', hg', hk'.trans hk⟩
  placed s b' hb'   := by
    rcases h.placed s b' hb' with ⟨b, hb, hk, hp, ho⟩ | hb'
    case inl => exact h.toPersists.placed (ht.placed s b hb) hk hp ho
    case inr => exact hb'
  scopes x τ' q hτ' hq := by
    rcases h.scopes x τ' q hτ' hq with ⟨τ, hτ, hq⟩ | hs
    case inl => exact h.isClassScope (ht.scopes x τ q hτ hq)
    case inr => exact h.isClassScope hs
  supers x τ' y hτ' hy := by
    have hs : ∃ υ q, t.type? y = some υ ∧ υ.scope = some q := by
      rcases h.supers x τ' y hτ' hy with ⟨τ, hτ, hy⟩ | hs
      case inl => exact ht.supers x τ y hτ hy
      case inr => exact hs
    obtain ⟨υ, q, hυ, hq⟩ := hs
    obtain ⟨υ', hυ', hq', _⟩ := h.type y υ hυ
    exact ⟨υ', q, hυ', hq' q hq⟩
  ancestry          := h.ancestry
  builtins          := h.builtins

variable {t : SymbolTable}

section Scopes

-- The symbols stay as they are.
theorem Change.of_scopes (ht : t.Tree) (hx : t'.symbols = t.symbols)
    (hs : ∀ s b, t.scope? s = some b → ∃ b', t'.scope? s = some b' ∧ b'.kind = b.kind ∧
      (b.kind ≠ .ofClass → b'.parent = b.parent) ∧ (b.kind = .ofClass → b'.owner = b.owner))
    (hp : Persists t t' → ∀ s b', t'.scope? s = some b' →
      (∃ b, t.scope? s = some b ∧ b'.kind = b.kind ∧ b'.parent = b.parent ∧ b'.owner = b.owner) ∨
        t'.Placed s b') : Change t t' := by
  have hsymbol (x : SymbolId) : t'.symbol? x = t.symbol? x := by rw [symbol?, hx, symbol?]
  have htype (x : SymbolId) : t'.type? x = t.type? x := by rw [type?, hsymbol, type?]
  have hmethod (x : SymbolId) : t'.method? x = t.method? x := by rw [method?, hsymbol, method?]
  have hpersists : Persists t t' := by
    constructor
    case scope  => exact hs
    case symbol => exact fun x a ha => ⟨a, (hsymbol x).trans ha, rfl, rfl⟩
    case type   => exact fun x τ hτ => ⟨τ, (htype x).trans hτ, fun _ h => h, fun _ h => h⟩
    case method => exact fun x μ hμ => (hmethod x).trans hμ
  constructor
  case toPersists => exact hpersists
  case placed     => exact hp hpersists
  case scopes     => exact fun x τ q hτ hq => .inl ⟨τ, htype x ▸ hτ, hq⟩
  case supers     => exact fun x τ y hτ hy => .inl ⟨τ, htype x ▸ hτ, hy⟩
  case ancestry   =>
    intro x a ha
    obtain ⟨l, hl⟩ := ht.ancestry x a (hsymbol x ▸ ha)
    exact ⟨l, hl.congr fun e he => (hsymbol e.1).trans (hl.view_of_mem he)⟩
  case builtins   => exact fun x a τ ha => ht.builtins x a τ (hsymbol x ▸ ha)

theorem change_note (ht : t.Tree) (hs : t'.scopes = t.scopes) (hx : t'.symbols = t.symbols) :
    Change t t' := by
  have hscope (s : ScopeId) : t'.scope? s = t.scope? s := by rw [scope?, hs, scope?]
  refine .of_scopes ht hx (fun s b hb => ?kept) fun _ s b hb => ?found
  case kept => exact ⟨b, (hscope s).trans hb, rfl, fun _ => rfl, fun _ => rfl⟩
  case found => exact .inl ⟨b, hscope s ▸ hb, rfl, rfl, rfl⟩

-- A new scope leaves the others alone.
theorem change_addScope (ht : t.Tree)
    (hp : ∀ t', Persists t t' → t'.Placed t.scopes.size (.empty kind (some parent) owner)) :
    Change t (t.addScope kind parent owner).2 := by
  refine .of_scopes ht rfl (fun s b hb => ?kept) fun h s b' hb' => ?found
  case kept =>
    refine ⟨b, ?_, rfl, fun _ => rfl, fun _ => rfl⟩
    rw [scope?_addScope, if_neg (Nat.ne_of_lt (lt_of_scope? hb)), hb]
  case found =>
    rw [scope?_addScope] at hb'
    split at hb'
    case isTrue hs =>
      obtain rfl := Option.some.inj hb'
      exact .inr (hs ▸ hp _ h)
    case isFalse => exact .inl ⟨b', hb', rfl, rfl, rfl⟩

theorem change_setParent (ht : t.Tree) (hs : t.IsClassScope s x) (hx : t.type? x = some τ)
    (hy : τ.superclass = some y) (hυ : t.type? y = some υ) (hq : υ.scope = some q) :
    Change t (t.setParent s q) := by
  obtain ⟨b, hb, hk, ho⟩ := hs
  refine .of_scopes ht rfl (fun i c hc => ?kept) fun h i c' hc' => ?found
  case kept =>
    rw [scope?_setParent, hc]
    split
    case isTrue hi =>
      obtain rfl := Option.some.inj ((hi ▸ hb).symm.trans hc)
      exact ⟨_, rfl, rfl, fun hn => absurd hk hn, fun _ => rfl⟩
    case isFalse => exact ⟨c, rfl, rfl, fun _ => rfl, fun _ => rfl⟩
  case found =>
    rw [scope?_setParent] at hc'
    split at hc'
    case isTrue hi =>
      rw [← hi, hb] at hc'
      obtain rfl := Option.some.inj hc'
      exact .inr (.derived hk ho hx hy hυ hq rfl)
    case isFalse => exact .inl ⟨c', hc', rfl, rfl, rfl⟩

theorem change_setOwner (ht : t.Tree) (hb : t.scope? s = some b) (hk : b.kind = .ofMethod)
    (hp : b.parent = some q) (hq : t.IsClassScope q x) (hm : t.method? m = some μ)
    (hs : μ.scope = s) (hx : μ.owner = x) : Change t (t.setOwner s m) := by
  refine .of_scopes ht rfl (fun i c hc => ?kept) fun h i c' hc' => ?found
  case kept =>
    rw [scope?_setOwner, hc]
    split
    case isTrue hi =>
      obtain rfl := Option.some.inj ((hi ▸ hb).symm.trans hc)
      refine ⟨_, rfl, rfl, fun _ => rfl, fun he => ?_⟩
      cases hk.symm.trans he
    case isFalse => exact ⟨c, rfl, rfl, fun _ => rfl, fun _ => rfl⟩
  case found =>
    rw [scope?_setOwner] at hc'
    split at hc'
    case isTrue hi =>
      subst hi
      rw [hb] at hc'
      obtain rfl := Option.some.inj hc'
      right
      cases ht.placed s b hb with
      | global _ hk' | root hk' | derived hk' | ofBlock hk' => cases hk.symm.trans hk'
      | ofMethod _ hp' hq' hlt =>
        obtain rfl := Option.some.inj (hp.symm.trans hp')
        refine .ofMethod hk hp (h.isClassScope hq) hlt fun m' hm' => ?_
        obtain rfl := Option.some.inj hm'
        exact ⟨μ, h.method m μ hm, hs, hx⟩
    case isFalse => exact .inl ⟨c', hc', rfl, rfl, rfl⟩

end Scopes

section Symbols

theorem symbol?_addSymbol (t : SymbolTable) (s : ScopeId) (symbol : Symbol) (x : SymbolId) :
    (t.addSymbol s symbol).2.symbol? x =
      if x = t.symbols.size then some symbol else t.symbol? x :=
  Array.getElem?_push

theorem type?_addSymbol (t : SymbolTable) (s : ScopeId) (symbol : Symbol) (x : SymbolId) :
    (t.addSymbol s symbol).2.type? x =
      if x = t.symbols.size then symbol.asType? else t.type? x := by
  rw [type?, symbol?_addSymbol]
  split <;> rfl

theorem change_addSymbol (ht : t.Tree) (s : ScopeId)
    (hτ : ∀ τ, symbol.asType? = some τ →
      τ.scope = none ∧ τ.superclass = none ∧ (τ.builtin = true → symbol.name ∈ builtinTypes)) :
    Change t (t.addSymbol s symbol).2 := by
  have hold {x a} (ha : t.symbol? x = some a) : (t.addSymbol s symbol).2.symbol? x = some a := by
    rw [symbol?_addSymbol, if_neg (Nat.ne_of_lt (lt_of_symbol? ha)), ha]
  constructor
  case toPersists =>
    constructor
    case scope =>
      intro i b hb
      rw [scope?_addSymbol, hb]
      split
      case isTrue  => exact ⟨_, rfl, by simp, fun _ => by simp, fun _ => by simp⟩
      case isFalse => exact ⟨b, rfl, rfl, fun _ => rfl, fun _ => rfl⟩
    case symbol => exact fun x a ha => ⟨a, hold ha, rfl, rfl⟩
    case type   =>
      intro x τ hτ
      obtain ⟨a, ha, hτ⟩ := Option.bind_eq_some_iff.mp hτ
      exact ⟨τ, Option.bind_eq_some_iff.mpr ⟨a, hold ha, hτ⟩, fun _ h => h, fun _ h => h⟩
    case method =>
      intro x μ hμ
      obtain ⟨a, ha, hμ⟩ := Option.bind_eq_some_iff.mp hμ
      exact Option.bind_eq_some_iff.mpr ⟨a, hold ha, hμ⟩
  case placed =>
    intro i b' hb'
    rw [scope?_addSymbol] at hb'
    split at hb'
    case isTrue =>
      obtain ⟨b, hb, rfl⟩ := Option.map_eq_some_iff.mp hb'
      exact .inl ⟨b, hb, by simp⟩
    case isFalse => exact .inl ⟨b', hb', rfl, rfl, rfl⟩
  case scopes =>
    intro x τ q hx hq
    rw [type?_addSymbol] at hx
    split at hx
    case isTrue  => cases (hτ τ hx).1.symm.trans hq
    case isFalse => exact .inl ⟨τ, hx, hq⟩
  case supers =>
    intro x τ y hx hy
    rw [type?_addSymbol] at hx
    split at hx
    case isTrue  => cases (hτ τ hx).2.1.symm.trans hy
    case isFalse => exact .inl ⟨τ, hx, hy⟩
  case ancestry =>
    intro x a ha
    have hx := ha
    rw [symbol?_addSymbol] at hx
    split at hx
    case isTrue =>
      obtain rfl := Option.some.inj hx
      refine ⟨_, .last ha ?_⟩
      cases h : symbol.asType? with
      | none   => rfl
      | some τ => exact (hτ τ h).2.1
    case isFalse =>
      obtain ⟨l, hl⟩ := ht.ancestry x a hx
      exact ⟨l, hl.congr fun e he => hold (hl.view_of_mem he)⟩
  case builtins =>
    intro x a τ ha hx hb
    rw [symbol?_addSymbol] at ha
    split at ha
    case isTrue =>
      obtain rfl := Option.some.inj ha
      exact (hτ τ hx).2.2 hb
    case isFalse => exact ht.builtins x a τ ha hx hb

theorem type?_modify (f : TypeSymbol → TypeSymbol) (x y : SymbolId) :
    type? { t with symbols := t.symbols.modify x (·.modifyType f) } y =
      if x = y then (t.type? y).map f else t.type? y := by
  show ((t.symbols.modify x _)[y]?).bind _ = _
  rw [Array.getElem?_modify]
  split
  case isFalse => rfl
  case isTrue  =>
    show ((t.symbol? y).map _).bind _ = ((t.symbol? y).bind _).map f
    cases t.symbol? y <;> simp [Symbol.asType?_modifyType]

-- The types after a change to one of them.
theorem type?_modify_cases {f : TypeSymbol → TypeSymbol} (hx : t.type? x = some τ)
    (h : type? { t with symbols := t.symbols.modify x (·.modifyType f) } y = some υ) :
    (y = x ∧ υ = f τ) ∨ t.type? y = some υ := by
  rw [type?_modify] at h
  split at h
  case isTrue he =>
    subst he
    rw [hx] at h
    exact .inl ⟨rfl, (Option.some.inj h).symm⟩
  case isFalse => exact .inr h

-- Of one type something is set that it did not have.
theorem Change.of_types {f : TypeSymbol → TypeSymbol} (ht : t.Tree) (hx : t.type? x = some τ)
    (hscope : ∀ q, τ.scope = some q → (f τ).scope = some q)
    (hsuper : ∀ y, τ.superclass = some y → (f τ).superclass = some y)
    (hb : (f τ).builtin = τ.builtin)
    (hs : ∀ q, (f τ).scope = some q → τ.scope = some q ∨ t.IsClassScope q x)
    (hy : ∀ y, (f τ).superclass = some y → τ.superclass = some y ∨
      ∃ υ q, t.type? y = some υ ∧ υ.scope = some q)
    (ha : ∀ y a, t.symbol? y = some a → ∃ l,
      Ancestry { t with symbols := t.symbols.modify x (·.modifyType f) } y l) :
    Change t { t with symbols := t.symbols.modify x (·.modifyType f) } := by
  have hsymbol (y : SymbolId) :
      symbol? { t with symbols := t.symbols.modify x (·.modifyType f) } y =
        if x = y then (t.symbol? y).map (·.modifyType f) else t.symbol? y :=
    Array.getElem?_modify
  constructor
  case toPersists =>
    constructor
    case scope  => exact fun s b hb => ⟨b, hb, rfl, fun _ => rfl, fun _ => rfl⟩
    case symbol =>
      intro y a ha
      rw [hsymbol, ha]
      split
      case isTrue  => exact ⟨_, rfl, Symbol.name_modifyType _ _, Symbol.declaration_modifyType _ _⟩
      case isFalse => exact ⟨a, rfl, rfl, rfl⟩
    case type   =>
      intro y υ hυ
      rw [type?_modify, hυ]
      split
      case isTrue he =>
        obtain rfl := Option.some.inj ((he ▸ hx).symm.trans hυ)
        exact ⟨_, rfl, hscope, hsuper⟩
      case isFalse => exact ⟨υ, rfl, fun _ h => h, fun _ h => h⟩
    case method =>
      intro y μ hμ
      obtain ⟨a, ha, hμ⟩ := Option.bind_eq_some_iff.mp hμ
      rw [method?, hsymbol, ha]
      split
      case isTrue  => exact (Symbol.asMethod?_modifyType f a).trans hμ
      case isFalse => exact hμ
  case placed => exact fun s b hb => .inl ⟨b, hb, rfl, rfl, rfl⟩
  case scopes =>
    intro y υ q hυ hq
    rcases type?_modify_cases hx hυ with ⟨rfl, rfl⟩ | hυ
    case inl => exact (hs q hq).imp_left fun hq => ⟨τ, hx, hq⟩
    case inr => exact .inl ⟨υ, hυ, hq⟩
  case supers =>
    intro y υ z hυ hz
    rcases type?_modify_cases hx hυ with ⟨rfl, rfl⟩ | hυ
    case inl => exact (hy z hz).imp_left fun hz => ⟨τ, hx, hz⟩
    case inr => exact .inl ⟨υ, hυ, hz⟩
  case ancestry =>
    intro y a hy
    rw [hsymbol] at hy
    split at hy
    case isTrue =>
      obtain ⟨a', ha', _⟩ := Option.map_eq_some_iff.mp hy
      exact ha y a' ha'
    case isFalse => exact ha y a hy
  case builtins =>
    intro y a υ hy hυ hbu
    rw [hsymbol] at hy
    split at hy
    case isTrue he =>
      subst he
      obtain ⟨a', ha', rfl⟩ := Option.map_eq_some_iff.mp hy
      rw [type?, ha', Option.bind_some] at hx
      rw [Symbol.asType?_modifyType, hx] at hυ
      obtain rfl := Option.some.inj hυ
      rw [Symbol.name_modifyType]
      exact ht.builtins x a' τ ha' hx (hb ▸ hbu)
    case isFalse => exact ht.builtins y a υ hy hυ hbu

theorem change_setTypeScope (ht : t.Tree) (hs : t.IsClassScope s x) (hx : t.type? x = some τ)
    (hn : τ.scope = none) : Change t (t.setTypeScope x s) := by
  refine .of_types ht hx ?kept (fun _ h => h) rfl ?linked (fun _ h => .inl h) ?ancestry
  case kept => exact fun q hq => by cases hn.symm.trans hq
  case linked => exact fun q hq => .inr (Option.some.inj hq ▸ hs)
  case ancestry =>
    intro y a ha
    obtain ⟨l, hl⟩ := ht.ancestry y a ha
    refine hl.exists_of_parent_eq fun i b hb => ?_
    have he := symbol?_setTypeScope (t := t) x i s
    rw [hb] at he
    split at he
    case isTrue =>
      refine ⟨_, he, ?_⟩
      rw [Symbol.asType?_modifyType]
      cases b.asType? <;> rfl
    case isFalse => exact ⟨b, he, rfl⟩

theorem change_setSuperclass (ht : t.Tree) (hx : t.type? x = some τ) (hn : τ.superclass = none)
    (hy : t.type? y = some υ) (hq : υ.scope = some q) (hi : t.inherits y x = false) :
    Change t (t.setSuperclass x y) := by
  refine .of_types ht hx (fun _ h => h) ?kept rfl (fun _ h => .inl h) ?linked ?ancestry
  case kept => exact fun z hz => by cases hn.symm.trans hz
  case linked => exact fun z hz => .inr ⟨υ, q, Option.some.inj hz ▸ hy, hq⟩
  case ancestry =>
    intro z c hc
    obtain ⟨l, hl⟩ := ht.ancestry z c hc
    obtain ⟨b, hb, _⟩ := Option.bind_eq_some_iff.mp hy
    obtain ⟨m, hm⟩ := ht.ancestry y b hb
    obtain ⟨a, ha, hτ⟩ := Option.bind_eq_some_iff.mp hx
    -- The superclass does not extend the class, so its path does not come back.
    have hne : ∀ e ∈ m, e.1 ≠ x := by
      intro e he hex
      rw [(inherits_iff hm x).mpr ⟨e, he, hex⟩] at hi
      cases hi
    have hset : (t.setSuperclass x y).symbol? x =
        some (a.modifyType fun type => { type with superclass := y }) := by
      rw [symbol?_setSuperclass, if_pos rfl, ha]
      rfl
    refine hl.exists_of_redirect hm hne hset ?moved fun i hix => ?others
    case moved =>
      rw [Symbol.asType?_modifyType, hτ]
      rfl
    case others =>
      show (t.setSuperclass x y).symbol? i = _
      rw [symbol?_setSuperclass, if_neg (Ne.symm hix)]

end Symbols

theorem Operation.change (h : Operation t t') (ht : t.Tree) : Change t t' := by
  cases h with
  | note hs hx                       => exact change_note ht hs hx
  | addSymbol s hτ                   => exact change_addSymbol ht s hτ
  | setTypeScope hs hx hn            => exact change_setTypeScope ht hs hx hn
  | setSuperclass hx hn hy hq hi     => exact change_setSuperclass ht hx hn hy hq hi
  | setParent hs hx hy hυ hq         => exact change_setParent ht hs hx hy hυ hq
  | setOwner hb hk hp hq hm hs hx    => exact change_setOwner ht hb hk hp hq hm hs hx
  | openClass hx                     =>
    refine change_addScope ht fun t' hp => ?_
    obtain ⟨τ', hτ', _⟩ := hp.type _ _ hx
    exact .root rfl rfl hτ' rfl
  | openMethod hs                    =>
    refine change_addScope ht fun t' hp => ?_
    obtain ⟨b, hb, hs⟩ := hs
    exact .ofMethod rfl rfl (hp.isClassScope ⟨b, hb, hs⟩) (lt_of_scope? hb) nofun
  | openBlock hb hk                  =>
    refine change_addScope ht fun t' hp => ?_
    obtain ⟨b', hb', hk', _⟩ := hp.scope _ _ hb
    exact .ofBlock rfl rfl hb' (hk' ▸ hk) (lt_of_scope? hb)

theorem Operation.tree (h : Operation t t') (ht : t.Tree) : t'.Tree :=
  (h.change ht).tree ht

end SymbolTable

end MiniJava
