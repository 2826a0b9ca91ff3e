import Mathlib.Data.List.Nodup
import MiniJava.Proofs.Typing.Basic

namespace MiniJava.Typing

open Resolve (AnyClass allClasses)

theorem Lineage.mem (h : Lineage p c l) : c ∈ allClasses p := by
  cases h with | root hc | extend hc => exact hc

theorem Lineage.subset (h : Lineage p c l) : ∀ c' ∈ l, c' ∈ allClasses p := by
  induction h with
  | root hc _        => simpa using hc
  | extend hc _ _ hi => exact List.forall_mem_cons.mpr ⟨hc, hi⟩

theorem mem_allClasses : c ∈ allClasses p ↔
    (∃ m, p.mainClass = some m ∧ c = .main m) ∨ ∃ r ∈ p.classes, c = .regular r := by
  simp [allClasses, eq_comm]

theorem extends_iff :
    Extends p name superclass ↔
      ∃ c ∈ allClasses p, c.name = name ∧ c.superclass = some superclass := by
  constructor
  case mp =>
    intro ⟨c, hc, hn, hs⟩
    exact ⟨.regular c, mem_allClasses.mpr (.inr ⟨c, hc, rfl⟩), hn, hs⟩
  case mpr =>
    intro ⟨c, hc, hn, hs⟩
    cases mem_allClasses.mp hc with
    | inl h =>
      obtain ⟨m, _, rfl⟩ := h
      cases hs
    | inr h =>
      obtain ⟨r, hr, rfl⟩ := h
      exact ⟨r, hr, hn, hs⟩

variable {p : Program}

theorem eq_of_name (hn : (classNames p).Nodup) (hc : c ∈ allClasses p) (hc' : c' ∈ allClasses p)
    (h : c.name = c'.name) : c = c' :=
  List.inj_on_of_nodup_map hn hc hc' h

theorem Lineage.unique (hn : (classNames p).Nodup) (h : Lineage p c l) (h' : Lineage p c l') :
    l = l' := by
  induction h generalizing l' with
  | root _ hs =>
    cases h' with
    | root         => rfl
    | extend _ hs' => cases hs.symm.trans hs'
  | extend _ hs h hi =>
    cases h' with
    | root _ hs'      => cases hs'.symm.trans hs
    | extend _ hs' h' =>
      obtain rfl := eq_of_name hn h.mem h'.mem (Option.some.inj (hs.symm.trans hs'))
      rw [hi h']

-- Along the extensions lineages get shorter.
theorem length_lt_of_extends (hn : (classNames p).Nodup)
    (h : Relation.TransGen (Extends p) c.name c'.name) (hc : Lineage p c l)
    (hc' : Lineage p c' l') (hl : ∀ c ∈ allClasses p, ∃ l, Lineage p c l) :
    l'.length < l.length := by
  generalize ha : c.name = a at h
  generalize hb : c'.name = b at h
  have hstep {a b : String} (h : Extends p a b) {c c' : AnyClass} {l l' : List AnyClass}
      (ha : c.name = a) (hb : c'.name = b) (hc : Lineage p c l) (hc' : Lineage p c' l') :
      l'.length < l.length := by
    obtain ⟨d, hd, hdn, hs⟩ := extends_iff.mp h
    obtain rfl := eq_of_name hn hc.mem hd (ha.trans hdn.symm)
    cases hc with
    | root _ hs'      => cases hs'.symm.trans hs
    | extend _ hs' hc =>
      have he := (Option.some.inj (hs'.symm.trans hs)).trans hb.symm
      obtain rfl := eq_of_name hn hc.mem hc'.mem he
      rw [hc.unique hn hc', List.length_cons]
      exact Nat.lt_succ_self _
  induction h generalizing c' l' with
  | single h => exact hstep h ha hb hc hc'
  | tail _ h hi =>
    obtain ⟨d, hd, hdn, _⟩ := extends_iff.mp h
    have ⟨m, hm⟩ := hl d hd
    exact Nat.lt_trans (hstep h hdn hb hm hc') (hi hm hdn)

theorem acyclic_of_lineage (hn : (classNames p).Nodup)
    (hl : ∀ c ∈ allClasses p, ∃ l, Lineage p c l) (name : String) :
    ¬Relation.TransGen (Extends p) name name := by
  intro h
  have ⟨superclass, he, _⟩ := Relation.TransGen.head'_iff.mp h
  obtain ⟨c, hc, rfl, _⟩ := extends_iff.mp he
  have ⟨l, hl'⟩ := hl c hc
  exact Nat.lt_irrefl _ (length_lt_of_extends hn h hl' hl' hl)

theorem hasMethod_iff (hn : (classNames p).Nodup) (hc : Lineage p c l) :
    HasMethod p c.name name m ↔ method? l name = some m := by
  constructor
  case mp =>
    intro h
    generalize hname : c.name = className at h
    cases h with
    | intro hc' hm =>
      obtain rfl := eq_of_name hn hc.mem hc'.mem hname
      rwa [hc.unique hn hc']
  case mpr => exact .intro hc

end MiniJava.Typing
