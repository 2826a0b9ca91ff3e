import Mathlib.Data.List.Forall2
import MiniJava.Proofs.Resolve.Growth
import MiniJava.Proofs.Resolve.Judgement

namespace MiniJava

theorem exists_of_forall₂ {R : α → β → Prop} (h : List.Forall₂ R l l') (hb : b ∈ l') :
    ∃ a ∈ l, R a b := by
  induction h with
  | nil           => cases hb
  | cons hR _ hi  =>
    cases List.mem_cons.mp hb with
    | inl hb => exact ⟨_, List.mem_cons_self, hb ▸ hR⟩
    | inr hb =>
      obtain ⟨a, ha, hR⟩ := hi hb
      exact ⟨a, List.mem_cons_of_mem _ ha, hR⟩

theorem findSome?_congr {f : α → Option γ} {g : β → Option γ} {R : α → β → Prop}
    (h : List.Forall₂ R l l') (hf : ∀ a b, R a b → f a = g b) : l.findSome? f = l'.findSome? g := by
  induction h with
  | nil           => rfl
  | cons hR _ hi  => rw [List.findSome?_cons, List.findSome?_cons, hf _ _ hR, hi]

theorem rel_findSome? {f : α → Option γ} {g : β → Option δ} {R : γ → δ → Prop}
    (h : List.Forall₂ (fun a b => Option.Rel R (f a) (g b)) l l') :
    Option.Rel R (l.findSome? f) (l'.findSome? g) := by
  induction h with
  | nil          => exact .none
  | cons hR _ hi =>
    rw [List.findSome?_cons, List.findSome?_cons]
    revert hR
    generalize f _ = a
    generalize g _ = b
    intro hR
    cases hR with
    | none    => exact hi
    | some hR => exact .some hR

theorem rel_imp {R R' : α → β → Prop} (h : ∀ a b, R a b → R' a b) :
    Option.Rel R a b → Option.Rel R' a b
  | .none    => .none
  | .some hR => .some (h _ _ hR)

namespace Resolve

open Typing

-- The variables of a scope are those of a frame.
def Holds (t : SymbolTable) (b : Scope) (F : Frame) : Prop :=
  ∀ name, Option.Rel t.HasVariable (b.lookup .variableNames name) (F.find? (·.name = name))

theorem Holds.keep (h : t.Keeps t') (hb : Holds t b F) : Holds t' b F :=
  fun name => rel_imp (fun _ _ => .keep h) (hb name)

-- The last scope is the global one, which has no variables.
structure Stands (t : SymbolTable) (place : Place) (Γ : Context) : Prop where
  sees   : Sees t place Γ
  global : ∃ b, t.scope? SymbolTable.globalScope = some b
  frames : ∃ l, t.Chain place.scope l ∧
    List.Forall₂ (fun e F => Holds t e.2 F) l (Γ.frames ++ [[]])
  chains : ∀ className ∈ classNames Γ.program, ∀ scope, classScope? t className = some scope →
    ∃ l, t.Chain scope l

theorem resolves_of_frames {Γ : Context} (hc : t.Chain i l)
    (hf : List.Forall₂ (fun e F => Holds t e.2 F) l (Γ.frames ++ [[]])) (name : String) :
    Option.Rel t.HasVariable (t.resolve? i .variableNames name) (Γ.lookup? name) := by
  rw [SymbolTable.resolve?_of_chain hc]
  have hn : Γ.lookup? name = (Γ.frames ++ [[]]).findSome? fun F : Frame => F.find? (·.name = name) := by
    simp [Context.lookup?, List.findSome?_append]
  rw [hn]
  exact rel_findSome? (hf.imp fun _ _ hb => hb name)

theorem Stands.annotate (h : Stands σ.table place Γ) (ha : Annotates ids σ σ') :
    Stands σ'.table place Γ := by
  obtain ⟨⟨scopes, symbols, _, declared, _, _⟩, _, _, _⟩ := σ
  obtain ⟨⟨scopes', symbols', _, declared', _, _⟩, _, _, _⟩ := σ'
  obtain rfl : scopes' = scopes := ha.scopes
  obtain rfl : symbols' = symbols := ha.symbols
  obtain rfl : declared' = declared := ha.declared
  exact ⟨h.sees.annotate ha, h.global, h.frames, h.chains⟩

namespace Grows

variable {ids : List NodeId} {s : ScopeId} {σ σ' : State}

-- The notes of other nodes are kept.
theorem keeps (h : Grows ids s σ σ') (hd : ids'.Disjoint ids) :
    σ.table.notes.Keeps ids' σ'.table.notes where
  type i hi _ hτ := (h.types i (hd hi)).trans hτ
  refersTo i hi _ := fun ⟨x, hr, hv⟩ => ⟨x, (h.references i (hd hi)).trans hr, hv.keep h.symbols⟩
  calls i hi _ := fun ⟨x, hr, hm⟩ => ⟨x, (h.references i (hd hi)).trans hr, hm.keep h.symbols⟩

theorem scope? (h : Grows ids s σ σ') (hi : i ≠ s) (hb : σ.table.scope? i = some b) :
    σ'.table.scope? i = some b := by
  obtain ⟨names, hb', hn⟩ := h.scopes i b hb
  rw [hb', hn hi]

theorem chain (h : Grows ids s σ σ') (hc : σ.table.Chain i l) :
    ∃ l', σ'.table.Chain i l' ∧
      List.Forall₂ (fun e e' => ∃ names, e' = (e.1, { e.2 with variableNames := names })) l l' := by
  induction hc with
  | last hv hp =>
    obtain ⟨names, hb, _⟩ := h.scopes _ _ hv
    exact ⟨_, .last hb hp, .cons ⟨names, rfl⟩ .nil⟩
  | step hv hp _ hi =>
    obtain ⟨names, hb, _⟩ := h.scopes _ _ hv
    obtain ⟨l', hc, hl⟩ := hi
    exact ⟨_, .step hb hp hc, .cons ⟨names, rfl⟩ hl⟩

theorem resolveType? (h : Grows ids s σ σ')
    (hg : ∃ b, σ.table.scope? SymbolTable.globalScope = some b) (name : String) :
    σ'.table.resolveType? name = σ.table.resolveType? name := by
  obtain ⟨b, hb⟩ := hg
  obtain ⟨names, hb', _⟩ := h.scopes _ _ hb
  rw [SymbolTable.resolveType?, SymbolTable.resolveType?, hb, hb']
  rfl

theorem resolve?_methodNames (h : Grows ids s σ σ') (hc : σ.table.Chain i l) (name : String) :
    σ'.table.resolve? i .methodNames name = σ.table.resolve? i .methodNames name := by
  obtain ⟨l', hc', hl⟩ := h.chain hc
  rw [SymbolTable.resolve?_of_chain hc, SymbolTable.resolve?_of_chain hc']
  exact (findSome?_congr hl fun e e' ⟨names, he⟩ => by rw [he]; rfl).symm

theorem enclosingClass? (h : Grows ids s σ σ') (hc : σ.table.Chain i l) :
    σ'.table.enclosingClass? i = σ.table.enclosingClass? i := by
  obtain ⟨l', hc', hl⟩ := h.chain hc
  rw [SymbolTable.enclosingClass?_of_chain hc, SymbolTable.enclosingClass?_of_chain hc']
  exact congrArg _ (findSome?_congr hl fun e e' ⟨names, he⟩ => by rw [he]).symm

theorem selfType (h : Grows ids s σ σ') (hc : σ.table.Chain i l)
    (hs : Resolve.selfType σ.table i = some τ) : Resolve.selfType σ'.table i = some τ := by
  rw [Resolve.selfType, h.enclosingClass? hc]
  obtain ⟨c, hc, hτ⟩ := Option.bind_eq_some_iff.mp hs
  obtain ⟨x, hx, hτ⟩ := Option.map_eq_some_iff.mp hτ
  rw [hc, Option.bind_some, h.symbols _ _ hx, Option.map_some, hτ]

theorem classScope? (h : Grows ids s σ σ')
    (hg : ∃ b, σ.table.scope? SymbolTable.globalScope = some b)
    (hs : Resolve.classScope? σ.table name = some scope) :
    Resolve.classScope? σ'.table name = some scope := by
  rw [Resolve.classScope?, h.resolveType? hg]
  obtain ⟨type, ht, hs⟩ := Option.bind_eq_some_iff.mp hs
  obtain ⟨x, hx, ht⟩ := Option.bind_eq_some_iff.mp ht
  obtain ⟨i, hi, hx⟩ := Option.bind_eq_some_iff.mp hx
  rw [hi, Option.bind_some, h.symbols _ _ hx, Option.bind_some, ht, Option.bind_some, hs]

-- The scopes of a chain that does not have `s` are the same as before.
theorem frames (h : Grows ids s σ σ') (hc : σ.table.Chain i l) (hs : ∀ e ∈ l, e.1 ≠ s)
    (hf : List.Forall₂ (fun e F => Holds σ.table e.2 F) l Fs) :
    σ'.table.Chain i l ∧ List.Forall₂ (fun e F => Holds σ'.table e.2 F) l Fs :=
  ⟨hc.congr fun e he => h.scope? (hs e he) (hc.view_of_mem he), hf.imp fun _ _ hb => hb.keep h.symbols⟩

-- The innermost scope has other variables.
theorem frames_grow {i : ScopeId} (h : Grows ids i σ σ')
    (hf : ∃ l, σ.table.Chain i l ∧
      List.Forall₂ (fun e F => Holds σ.table e.2 F) l (F :: (Fs ++ [[]])))
    (hh : ∀ b, σ'.table.scope? i = some b → Holds σ'.table b F') :
    ∃ l, σ'.table.Chain i l ∧
      List.Forall₂ (fun e F => Holds σ'.table e.2 F) l (F' :: (Fs ++ [[]])) := by
  obtain ⟨l, hc, hf⟩ := hf
  cases hf with
  | @cons e F l Fs hb hf =>
    have hn := List.nodup_cons.mp hc.nodup
    cases hc with
    | last => simp at hf
    | @step i b j l hv hp hc =>
      have hl (e) (he : e ∈ l) : e.1 ≠ i := by
        intro hi
        have hm : e.1 ∈ l.map Prod.fst := List.mem_map_of_mem he
        exact hn.1 (hi ▸ hm)
      obtain ⟨names, hv', _⟩ := h.scopes _ _ hv
      obtain ⟨hc', hf'⟩ := h.frames hc hl hf
      exact ⟨_, .step hv' hp hc', .cons (hh _ hv') hf'⟩

end Grows

-- A new scope inside another one.
theorem frames_addScope {σ : State} {i : ScopeId}
    (hf : ∃ l, σ.table.Chain i l ∧ List.Forall₂ (fun e F => Holds σ.table e.2 F) l Fs) :
    ∃ l, (Resolve.addScope .ofBlock i none σ).2.table.Chain σ.table.scopes.size l ∧
      List.Forall₂ (fun e F => Holds (Resolve.addScope .ofBlock i none σ).2.table e.2 F) l
        ([] :: Fs) := by
  obtain ⟨l, hc, hf⟩ := hf
  have hg : Grows [] σ.table.scopes.size σ (Resolve.addScope .ofBlock i none σ).2 :=
    .of_addScope (.refl _ _ _)
  have hl (e) (he : e ∈ l) : e.1 ≠ σ.table.scopes.size :=
    Nat.ne_of_lt (SymbolTable.lt_of_scope? (hc.view_of_mem he))
  obtain ⟨hc', hf'⟩ := hg.frames hc hl hf
  have hb : (Resolve.addScope .ofBlock i none σ).2.table.scope? σ.table.scopes.size =
      some (.empty .ofBlock (some i) none) := by
    show (σ.table.addScope .ofBlock i none).2.scope? _ = _
    rw [SymbolTable.scope?_addScope, if_pos rfl]
  refine ⟨_, .step hb rfl hc', .cons (fun name => ?_) hf'⟩
  rw [Scope.lookup_empty]
  exact .none

-- A block is in the class of the scope around it.
theorem selfType_addScope {σ : State} {i : ScopeId} (hc : σ.table.Chain i l)
    (hs : selfType σ.table i = some τ) :
    selfType (Resolve.addScope .ofBlock i none σ).2.table σ.table.scopes.size = some τ := by
  have hg : Grows [] σ.table.scopes.size σ (Resolve.addScope .ofBlock i none σ).2 :=
    .of_addScope (.refl _ _ _)
  have hl (e) (he : e ∈ l) : e.1 ≠ σ.table.scopes.size :=
    Nat.ne_of_lt (SymbolTable.lt_of_scope? (hc.view_of_mem he))
  have hc' : (Resolve.addScope .ofBlock i none σ).2.table.Chain i l :=
    hc.congr fun e he => hg.scope? (hl e he) (hc.view_of_mem he)
  have hb : (Resolve.addScope .ofBlock i none σ).2.table.scope? σ.table.scopes.size =
      some (.empty .ofBlock (some i) none) := by
    show (σ.table.addScope .ofBlock i none).2.scope? _ = _
    rw [SymbolTable.scope?_addScope, if_pos rfl]
  have hs := hg.selfType hc hs
  rw [selfType, SymbolTable.enclosingClass?_of_chain hc'] at hs
  rw [selfType, SymbolTable.enclosingClass?_of_chain (.step hb rfl hc'), List.findSome?_cons]
  exact hs

namespace Stands

-- Only the frames around the place have to be looked at again.
theorem update {Γ : Context} (h : Stands σ.table place Γ) (hg : Grows ids s σ σ')
    {place' : Place} (hm : place'.inMain = place.inMain)
    (hs : selfType σ'.table place'.scope = some (.object Γ.className))
    (hk : ∀ F ∈ Fs, ∀ d ∈ F, Known Γ.program d.type.name)
    (hf : ∃ l, σ'.table.Chain place'.scope l ∧
      List.Forall₂ (fun e F => Holds σ'.table e.2 F) l (Fs ++ [[]])) :
    Stands σ'.table place' { Γ with frames := Fs } where
  sees := {
    sound    := ⟨hk, h.sees.sound.methods, h.sees.sound.className⟩
    inMain   := hm.trans h.sees.inMain
    self     := hs
    known    := fun name => by
      rw [hg.resolveType? h.global]
      exact h.sees.known name
    resolves := fun name => by
      obtain ⟨l, hc, hf⟩ := hf
      exact resolves_of_frames (Γ := { Γ with frames := Fs }) hc hf name
    methods  := fun className hc => by
      obtain ⟨scope, hscope, hm⟩ := h.sees.methods className hc
      obtain ⟨l, hl⟩ := h.chains className hc scope hscope
      refine ⟨scope, hg.classScope? h.global hscope, fun name => ?_⟩
      rw [hg.resolve?_methodNames hl]
      exact (hm name).imp_left fun ⟨x, m, hr, hm, hu⟩ => ⟨x, m, hr, hm.keep hg.symbols, hu⟩ }
  global := by
    obtain ⟨b, hb⟩ := h.global
    obtain ⟨_, hb', _⟩ := hg.scopes _ b hb
    exact ⟨_, hb'⟩
  frames := hf
  chains className hc scope hscope := by
    obtain ⟨scope', hscope', _⟩ := h.sees.methods className hc
    obtain ⟨l, hl⟩ := h.chains className hc scope' hscope'
    obtain rfl := Option.some.inj (hscope.symm.trans (hg.classScope? h.global hscope'))
    obtain ⟨l', hl', _⟩ := hg.chain hl
    exact ⟨l', hl'⟩

-- What happens in scopes elsewhere does not matter.
theorem keep_of_chain (h : Stands σ.table place Γ) (hg : Grows ids s σ σ')
    (hs : ∀ l, σ.table.Chain place.scope l → ∀ e ∈ l, e.1 ≠ s) : Stands σ'.table place Γ := by
  obtain ⟨l, hc, hf⟩ := h.frames
  exact h.update hg rfl (hg.selfType hc h.sees.self) h.sees.sound.declared
    ⟨l, hg.frames hc (hs l hc) hf⟩

theorem keep (h : Stands σ.table place Γ) (hg : Grows ids s σ σ') (hs : σ.table.scopes.size ≤ s) :
    Stands σ'.table place Γ :=
  h.keep_of_chain hg fun _ hc _ he =>
    Nat.ne_of_lt (Nat.lt_of_lt_of_le (SymbolTable.lt_of_scope? (hc.view_of_mem he)) hs)

-- The innermost scope has new variables.
theorem grow {Γ : Context} (h : Stands σ.table place (Γ.push F)) (hg : Grows ids place.scope σ σ')
    (hk : ∀ d ∈ F', Known Γ.program d.type.name)
    (hh : ∀ b, σ'.table.scope? place.scope = some b → Holds σ'.table b F') :
    Stands σ'.table place (Γ.push F') := by
  obtain ⟨l, hc, _⟩ := h.frames
  have hs := hg.selfType hc h.sees.self
  have hks := List.forall_mem_cons.mp h.sees.sound.declared
  exact h.update hg rfl hs (List.forall_mem_cons.mpr ⟨hk, hks.2⟩) (hg.frames_grow h.frames hh)

theorem scope {Γ : Context} (h : Stands t place (Γ.push F)) :
    ∃ b, t.scope? place.scope = some b ∧ Holds t b F := by
  obtain ⟨l, hc, hf⟩ := h.frames
  obtain ⟨b, l', hb, hl⟩ := hc.head
  subst hl
  cases hf with | cons hh => exact ⟨b, hb, hh⟩

-- A block starts with a scope of its own.
theorem addScope {Γ : Context} (h : Stands σ.table place Γ) :
    Stands (Resolve.addScope .ofBlock place.scope none σ).2.table
      ⟨σ.table.scopes.size, place.inMain⟩ (Γ.push []) := by
  obtain ⟨l, hc, _⟩ := h.frames
  have hg : Grows [] σ.table.scopes.size σ (Resolve.addScope .ofBlock place.scope none σ).2 :=
    .of_addScope (.refl _ _ _)
  refine h.update hg (by rfl) (selfType_addScope hc h.sees.self) ?_ (frames_addScope h.frames)
  exact List.forall_mem_cons.mpr ⟨nofun, h.sees.sound.declared⟩

end Stands

end Resolve

end MiniJava
