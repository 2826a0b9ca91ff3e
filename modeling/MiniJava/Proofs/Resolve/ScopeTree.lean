import MiniJava.Proofs.Resolve.Classes

namespace MiniJava

namespace Walk.Path

variable {view view' : Nat → Option β} {parent : β → Option Nat}

-- What is no parent does not matter.
theorem exists_of_parent_eq (h : Path view parent i l)
    (hv : ∀ i b, view i = some b → ∃ b', view' i = some b' ∧ parent b' = parent b) :
    ∃ l', Path view' parent i l' := by
  induction h with
  | last hb hp =>
    obtain ⟨b', hb', hp'⟩ := hv _ _ hb
    exact ⟨_, .last hb' (hp'.trans hp)⟩
  | step hb hp _ hi =>
    obtain ⟨b', hb', hp'⟩ := hv _ _ hb
    obtain ⟨l', hl'⟩ := hi
    exact ⟨_, .step hb' (hp'.trans hp) hl'⟩

-- An element gets a parent whose path does not lead to it.
theorem exists_of_redirect (h : Path view parent i l) (hj : Path view parent j m)
    (hx : ∀ e ∈ m, e.1 ≠ x) (hb : view' x = some b) (hp : parent b = some j)
    (hv : ∀ i ≠ x, view' i = view i) : ∃ l', Path view' parent i l' := by
  have hm : Path view' parent j m := hj.congr fun e he => by
    rw [hv e.1 (hx e he)]
    exact hj.view_of_mem he
  induction h with
  | @last i _ hi hpi =>
    by_cases hix : i = x
    case pos =>
      subst hix
      exact ⟨_, .step hb hp hm⟩
    case neg => exact ⟨_, .last ((hv i hix).trans hi) hpi⟩
  | @step i _ k _ hi hpi _ ih =>
    by_cases hix : i = x
    case pos =>
      subst hix
      exact ⟨_, .step hb hp hm⟩
    case neg =>
      obtain ⟨l', hl'⟩ := ih
      exact ⟨_, .step ((hv i hix).trans hi) hpi hl'⟩

-- A walk with as many steps as there are numbers ends.
theorem along_ends (h : Path view parent i l) (stop : Nat → β → Option α) (hs : l.length ≤ steps) :
    along view parent stop steps i = .exhausted ∨ ∃ a, along view parent stop steps i = .found a := by
  induction h generalizing steps with
  | last hv hp =>
    obtain ⟨steps, rfl⟩ := Nat.exists_eq_add_of_le' hs
    rw [List.length_singleton, along, hv]
    dsimp only
    split <;> simp_all
  | step hv hp _ hi =>
    obtain ⟨steps, rfl⟩ := Nat.exists_eq_add_of_le' (Nat.le_of_add_left_le hs)
    have hi := hi (Nat.le_of_succ_le_succ hs)
    rw [along, hv]
    dsimp only
    split <;> simp_all

end Walk.Path

namespace SymbolTable

def type? (t : SymbolTable) (x : SymbolId) : Option TypeSymbol :=
  (t.symbol? x).bind Symbol.asType?

def method? (t : SymbolTable) (x : SymbolId) : Option MethodSymbol :=
  (t.symbol? x).bind Symbol.asMethod?

def IsClassScope (t : SymbolTable) (s : ScopeId) (x : SymbolId) : Prop :=
  ∃ b, t.scope? s = some b ∧ b.kind = .ofClass ∧ b.owner = some x

-- Where a scope may stand.
inductive Placed (t : SymbolTable) (s : ScopeId) (b : Scope) : Prop
  | global (hs : s = globalScope) (hk : b.kind = .global) (hp : b.parent = none)
  | root (hk : b.kind = .ofClass) (ho : b.owner = some x) (hx : t.type? x = some τ)
      (hp : b.parent = some globalScope)
  | derived (hk : b.kind = .ofClass) (ho : b.owner = some x) (hx : t.type? x = some τ)
      (hy : τ.superclass = some y) (hυ : t.type? y = some υ) (hq : υ.scope = some q)
      (hp : b.parent = some q)
  | ofMethod (hk : b.kind = .ofMethod) (hp : b.parent = some q) (hq : t.IsClassScope q x)
      (hlt : q < s)
      (ho : ∀ m, b.owner = some m → ∃ μ, t.method? m = some μ ∧ μ.scope = s ∧ μ.owner = x)
  | ofBlock (hk : b.kind = .ofBlock) (hp : b.parent = some q) (hq : t.scope? q = some c)
      (hc : c.kind = .ofMethod ∨ c.kind = .ofBlock) (hlt : q < s)

-- What every operation keeps. The parent of a class scope may be changed, so it is told by the
-- superclass of the class; the parent of every other scope is older than the scope.
structure Tree (t : SymbolTable) : Prop where
  global   : ∃ g, t.scope? globalScope = some g ∧ g.kind = .global
  placed   : ∀ s b, t.scope? s = some b → t.Placed s b
  scopes   : ∀ x τ q, t.type? x = some τ → τ.scope = some q → t.IsClassScope q x
  supers   : ∀ x τ y, t.type? x = some τ → τ.superclass = some y →
    ∃ υ q, t.type? y = some υ ∧ υ.scope = some q
  ancestry : ∀ x symbol, t.symbol? x = some symbol → ∃ l, t.Ancestry x l
  builtins : ∀ x symbol τ, t.symbol? x = some symbol → symbol.asType? = some τ → τ.builtin = true →
    symbol.name ∈ builtinTypes

namespace Tree

variable {t : SymbolTable}

theorem type?_of_classScope (h : t.Tree) (hs : t.IsClassScope s x) : ∃ τ, t.type? x = some τ := by
  obtain ⟨b, hb, hk, ho⟩ := hs
  cases h.placed s b hb with
  | global _ hk'           => cases hk.symm.trans hk'
  | root _ ho' hx          => exact ⟨_, Option.some.inj (ho.symm.trans ho') ▸ hx⟩
  | derived _ ho' hx       => exact ⟨_, Option.some.inj (ho.symm.trans ho') ▸ hx⟩
  | ofMethod hk' | ofBlock hk' => cases hk.symm.trans hk'

theorem chain_global (h : t.Tree) : ∃ g, t.Chain globalScope [(globalScope, g)] := by
  obtain ⟨g, hg, hk⟩ := h.global
  refine ⟨g, .last hg ?_⟩
  cases h.placed _ g hg with
  | global _ _ hp => exact hp
  | root hk' | derived hk' | ofMethod hk' | ofBlock hk' => cases hk.symm.trans hk'

-- The scopes of a class are those of the classes that it extends, as far as they are linked.
theorem chain_of_ancestry (h : t.Tree) (hl : t.Ancestry x l) (hs : t.IsClassScope s x) :
    ∃ cs, t.Chain s cs := by
  obtain ⟨g, hg⟩ := h.chain_global
  induction hl generalizing s with
  | @last x symbol hv hp =>
    obtain ⟨b, hb, hk, ho⟩ := hs
    cases h.placed s b hb with
    | global _ hk'               => cases hk.symm.trans hk'
    | root _ _ _ hb'             => exact ⟨_, .step hb hb' hg⟩
    | derived _ ho' hx hy        =>
      obtain rfl := Option.some.inj (ho.symm.trans ho')
      rw [type?, hv, Option.bind_some] at hx
      rw [hx, Option.bind_some] at hp
      cases hp.symm.trans hy
    | ofMethod hk' | ofBlock hk' => cases hk.symm.trans hk'
  | @step x symbol z l hv hp _ hi =>
    obtain ⟨b, hb, hk, ho⟩ := hs
    cases h.placed s b hb with
    | global _ hk'               => cases hk.symm.trans hk'
    | root _ _ _ hb'             => exact ⟨_, .step hb hb' hg⟩
    | derived _ ho' hx hy hυ hq hb' =>
      obtain rfl := Option.some.inj (ho.symm.trans ho')
      rw [type?, hv, Option.bind_some] at hx
      rw [hx, Option.bind_some] at hp
      obtain rfl := Option.some.inj (hp.symm.trans hy)
      obtain ⟨cs, hcs⟩ := hi (h.scopes _ _ _ hυ hq)
      exact ⟨_, .step hb hb' hcs⟩
    | ofMethod hk' | ofBlock hk' => cases hk.symm.trans hk'

theorem chain_of_class (h : t.Tree) (hs : t.IsClassScope s x) : ∃ cs, t.Chain s cs := by
  obtain ⟨τ, hτ⟩ := h.type?_of_classScope hs
  obtain ⟨symbol, hx, _⟩ := Option.bind_eq_some_iff.mp hτ
  obtain ⟨l, hl⟩ := h.ancestry x symbol hx
  exact h.chain_of_ancestry hl hs

theorem chain (h : t.Tree) (hb : t.scope? s = some b) : ∃ cs, t.Chain s cs := by
  induction s using Nat.strongRecOn generalizing b with
  | ind s hi =>
    cases h.placed s b hb with
    | global hs =>
      obtain ⟨g, hg⟩ := h.chain_global
      exact ⟨_, hs ▸ hg⟩
    | root hk ho => exact h.chain_of_class ⟨b, hb, hk, ho⟩
    | derived hk ho => exact h.chain_of_class ⟨b, hb, hk, ho⟩
    | ofMethod _ hp hq =>
      obtain ⟨cs, hcs⟩ := h.chain_of_class hq
      exact ⟨_, .step hb hp hcs⟩
    | ofBlock _ hp hq _ hlt =>
      obtain ⟨cs, hcs⟩ := hi _ hlt hq
      exact ⟨_, .step hb hp hcs⟩

theorem parent_eq_none_iff (h : t.Tree) (hb : t.scope? s = some b) :
    b.parent = none ↔ s = globalScope := by
  cases h.placed s b hb with
  | global hs _ hp => simp [hs, hp]
  | root hk _ _ hp =>
    refine ⟨fun hn => by simp [hp] at hn, fun hs => ?_⟩
    obtain ⟨g, hg, hgk⟩ := h.global
    obtain rfl := Option.some.inj ((hs ▸ hb).symm.trans hg)
    cases hk.symm.trans hgk
  | derived hk _ _ _ _ _ hp =>
    refine ⟨fun hn => by simp [hp] at hn, fun hs => ?_⟩
    obtain ⟨g, hg, hgk⟩ := h.global
    obtain rfl := Option.some.inj ((hs ▸ hb).symm.trans hg)
    cases hk.symm.trans hgk
  | ofMethod _ hp _ hlt | ofBlock _ hp _ _ hlt =>
    exact ⟨fun hn => by simp [hp] at hn, fun hs => absurd (hs ▸ hlt) (Nat.not_lt_zero _)⟩

theorem enclosingClass?_of_class (h : t.Tree) (hs : t.IsClassScope s x) :
    t.enclosingClass? s = some x := by
  obtain ⟨cs, hcs⟩ := h.chain_of_class hs
  obtain ⟨b, hb, hk, ho⟩ := hs
  obtain ⟨b', l, hb', rfl⟩ := hcs.head
  obtain rfl := Option.some.inj (hb.symm.trans hb')
  rw [enclosingClass?_of_chain hcs]
  simp [hk, ho]

theorem enclosingClass?_of_parent (h : t.Tree) (hb : t.scope? s = some b) (hk : b.kind ≠ .ofClass)
    (hp : b.parent = some q) : t.enclosingClass? s = t.enclosingClass? q := by
  obtain ⟨cs, hcs⟩ := h.chain hb
  have hu := hcs
  cases hcs with
  | last hv hp'         =>
    obtain rfl := Option.some.inj (hb.symm.trans hv)
    cases hp.symm.trans hp'
  | step hv hp' hcs     =>
    obtain rfl := Option.some.inj (hb.symm.trans hv)
    obtain rfl := Option.some.inj (hp.symm.trans hp')
    rw [enclosingClass?_of_chain hu, enclosingClass?_of_chain hcs, List.findSome?_cons]
    simp [hk]

end Tree

end SymbolTable

end MiniJava
