import Mathlib.Data.List.Basic
import Mathlib.Data.List.Nodup
import Mathlib.Data.List.Perm.Subperm
import MiniJava.Symbol.Table

namespace MiniJava

namespace Walk

variable {view : Nat → Option β} {parent : β → Option Nat} {stop : Nat → β → Option α}

-- The elements from a number on, up to one without a parent.
inductive Path (view : Nat → Option β) (parent : β → Option Nat) : Nat → List (Nat × β) → Prop
  | last : view i = some b → parent b = none → Path view parent i [(i, b)]
  | step :
    view i = some b → parent b = some j → Path view parent j l → Path view parent i ((i, b) :: l)

namespace Path

theorem head (h : Path view parent i l) : ∃ b l', view i = some b ∧ l = (i, b) :: l' := by
  cases h with | last hv | step hv => exact ⟨_, _, hv, rfl⟩

theorem view_of_mem (h : Path view parent i l) (he : e ∈ l) : view e.1 = some e.2 := by
  induction h with
  | last hv =>
    rw [List.mem_singleton.mp he]
    exact hv
  | step hv _ _ hi =>
    cases List.mem_cons.mp he with
    | inl he => rw [he]; exact hv
    | inr he => exact hi he

theorem unique (h : Path view parent i l) (h' : Path view parent i l') : l = l' := by
  induction h generalizing l' with
  | last hv hp =>
    cases h' with
    | last hv'     => simp_all
    | step hv' hp' => simp_all
  | step hv hp _ hi =>
    cases h' with
    | last hv' hp'    => simp_all
    | step hv' hp' h' =>
      obtain rfl := Option.some.inj (hv.symm.trans hv')
      obtain rfl := Option.some.inj (hp.symm.trans hp')
      rw [hi h']

-- From every element on, the rest of the path.
theorem of_mem (h : Path view parent i l) (he : e ∈ l) :
    ∃ l', Path view parent e.1 (e :: l') ∧ (e :: l') <:+ l := by
  induction h with
  | last hv hp =>
    obtain rfl := List.mem_singleton.mp he
    exact ⟨[], .last hv hp, List.suffix_refl _⟩
  | step hv hp h hi =>
    cases List.mem_cons.mp he with
    | inl he =>
      subst he
      exact ⟨_, .step hv hp h, List.suffix_refl _⟩
    | inr he =>
      have ⟨l', hl', hs⟩ := hi he
      exact ⟨l', hl', hs.trans (List.suffix_cons _ _)⟩

-- A path that came back to an element would be longer than itself.
theorem nodup (h : Path view parent i l) : (l.map Prod.fst).Nodup := by
  induction h with
  | last => exact List.nodup_singleton _
  | @step i b j l hv hp h hi =>
    refine List.nodup_cons.mpr ⟨fun hm => ?_, hi⟩
    obtain ⟨e, he, rfl⟩ := List.mem_map.mp hm
    have ⟨l', hl', hs⟩ := h.of_mem he
    have hu := hl'.unique (.step hv hp h)
    have hlen := hs.length_le
    rw [hu, List.length_cons] at hlen
    omega

theorem length_le (h : Path view parent i l) (hn : ∀ i b, view i = some b → i < n) :
    l.length ≤ n := by
  have hs : l.map Prod.fst ⊆ List.range n := by
    intro i hi
    obtain ⟨e, he, rfl⟩ := List.mem_map.mp hi
    exact List.mem_range.mpr (hn _ _ (h.view_of_mem he))
  have hl := (h.nodup.subperm hs).length_le
  rwa [List.length_map, List.length_range] at hl

theorem found?_along (h : Path view parent i l) (hs : l.length ≤ steps) :
    (along view parent stop steps i).found? = l.findSome? fun e => stop e.1 e.2 := by
  induction h generalizing steps with
  | last hv hp =>
    obtain ⟨steps, rfl⟩ := Nat.exists_eq_add_of_le' hs
    rw [List.length_singleton, along, hv]
    dsimp only
    split <;> simp_all [found?]
  | step hv hp _ hi =>
    obtain ⟨steps, rfl⟩ := Nat.exists_eq_add_of_le' (Nat.le_of_add_left_le hs)
    have hi := hi (Nat.le_of_succ_le_succ hs)
    rw [along, hv]
    dsimp only
    split <;> simp_all [found?]

-- What is changed elsewhere does not matter.
theorem congr (h : Path view parent i l) (hv : ∀ e ∈ l, view' e.1 = some e.2) :
    Path view' parent i l := by
  induction h with
  | last _ hp       => exact .last (hv _ List.mem_cons_self) hp
  | step _ hp _ hi  =>
    exact .step (hv _ List.mem_cons_self) hp (hi fun e he => hv e (List.mem_cons_of_mem _ he))

end Path

end Walk

namespace SymbolTable

variable {t : SymbolTable}

-- The scopes from a scope outward. Where a walk comes to an end the bound on its steps never
-- matters: no element is met twice, so there are at most as many as there are numbers.
abbrev Chain (t : SymbolTable) : ScopeId → List (ScopeId × Scope) → Prop :=
  Walk.Path t.scope? Scope.parent

theorem lt_of_scope? (h : t.scope? i = some s) : i < t.scopes.size :=
  (Array.getElem?_eq_some_iff.mp h).1

theorem lt_of_symbol? (h : t.symbol? i = some s) : i < t.symbols.size :=
  (Array.getElem?_eq_some_iff.mp h).1

theorem found?_walkScopes (h : t.Chain i l) (stop : Scope → Option α) :
    (t.walkScopes stop i).found? = l.findSome? fun e => stop e.2 :=
  h.found?_along (Nat.le_succ_of_le (h.length_le fun _ _ => lt_of_scope?))

theorem resolve?_of_chain (h : t.Chain i l) (space : Namespace) (name : String) :
    t.resolve? i space name = l.findSome? fun e => e.2.lookup space name :=
  found?_walkScopes h _

theorem enclosingClass?_of_chain (h : t.Chain i l) :
    t.enclosingClass? i =
      (l.findSome? fun e => if e.2.kind = .ofClass then some e.2.owner else none).join :=
  congrArg Option.join (found?_walkScopes h _)

-- A symbol with the classes that it extends.
abbrev Ancestry (t : SymbolTable) : SymbolId → List (SymbolId × Symbol) → Prop :=
  Walk.Path t.symbol? fun symbol => symbol.asType?.bind (·.superclass)

theorem inherits_iff (h : t.Ancestry i l) (ancestor : SymbolId) :
    t.inherits i ancestor = true ↔ ∃ e ∈ l, e.1 = ancestor := by
  have hl := Nat.le_succ_of_le (h.length_le fun _ _ => lt_of_symbol?)
  rw [inherits, h.found?_along hl, List.findSome?_isSome_iff]
  simp

end SymbolTable

end MiniJava
