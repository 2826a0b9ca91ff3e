import Mathlib.Logic.Basic
import MiniJava.Proofs.Grammar.Unnumbered
import MiniJava.Proofs.Recasting.Basic

namespace MiniJava

variable {ρ : Recasting}

theorem VariableDeclaration.recast_eq_self {d : VariableDeclaration}
    (h : (d.recast ρ).unnumbered = d.unnumbered) : d.recast ρ = d := by
  obtain ⟨i, name, type, storage, p⟩ := d
  simpa [recast, unnumbered] using h

mutual

theorem Expression.recast_eq_self (e : Expression)
    (h : (e.recast ρ).unnumbered = e.unnumbered) : e.recast ρ = e := by
  cases e with
  | call i receiver name arguments p =>
    simp only [recast, unnumbered, call.injEq, true_and] at h ⊢
    exact ⟨recast_eq_self receiver h.1, h.2.1, recastAll_eq_self arguments h.2.2.1, h.2.2.2⟩
  | newArray i name size p           =>
    simp only [recast, unnumbered, newArray.injEq, true_and] at h ⊢
    exact ⟨h.1, recast_eq_self size h.2.1, h.2.2⟩
  | not i operand p                  =>
    simp only [recast, unnumbered, not.injEq, true_and] at h ⊢
    exact ⟨recast_eq_self operand h.1, h.2⟩
  | binary i op left right p         =>
    simp only [recast, unnumbered, binary.injEq, true_and] at h ⊢
    exact ⟨recast_eq_self left h.1, recast_eq_self right h.2.1, h.2.2⟩
  | index i array subscript p        =>
    simp only [recast, unnumbered, index.injEq, true_and] at h ⊢
    exact ⟨recast_eq_self array h.1, recast_eq_self subscript h.2.1, h.2.2⟩
  | newObject | boolean | integer | self | reference | malformed =>
    simpa [recast, unnumbered] using h

theorem Expression.recastAll_eq_self (es : List Expression)
    (h : unnumberedOf (recastAll ρ es) = unnumberedOf es) : recastAll ρ es = es := by
  cases es with
  | nil       => rfl
  | cons e es =>
    obtain ⟨he, hes⟩ := List.cons.inj h
    exact congrArg₂ List.cons (recast_eq_self e he) (recastAll_eq_self es hes)

end

mutual

theorem Statement.recast_eq_self (s : Statement)
    (h : (s.recast ρ).unnumbered = s.unnumbered) : s.recast ρ = s := by
  have he (e : Expression) : (e.recast ρ).unnumbered = e.unnumbered → e.recast ρ = e :=
    e.recast_eq_self
  cases s with
  | declare d                        => exact congrArg declare (d.recast_eq_self (declare.inj h))
  | print i e p                      =>
    simp only [recast, unnumbered, print.injEq, true_and] at h ⊢
    exact ⟨he e h.1, h.2⟩
  | ret i e p                        =>
    simp only [recast, unnumbered, ret.injEq, true_and] at h ⊢
    exact ⟨he e h.1, h.2⟩
  | assert i e p                     =>
    simp only [recast, unnumbered, assert.injEq, true_and] at h ⊢
    exact ⟨he e h.1, h.2⟩
  | block i body p                   =>
    simp only [recast, unnumbered, block.injEq, true_and] at h ⊢
    exact ⟨recastAll_eq_self body h.1, h.2⟩
  | assign i target value p          =>
    simp only [recast, unnumbered, assign.injEq, true_and] at h ⊢
    exact ⟨he target h.1, he value h.2.1, h.2.2⟩
  | ifThen i e s p                   =>
    simp only [recast, unnumbered, ifThen.injEq, true_and] at h ⊢
    exact ⟨he e h.1, recast_eq_self s h.2.1, h.2.2⟩
  | ifThenElse i e s s' p            =>
    simp only [recast, unnumbered, ifThenElse.injEq, true_and] at h ⊢
    exact ⟨he e h.1, recast_eq_self s h.2.1, recast_eq_self s' h.2.2.1, h.2.2.2⟩
  | loop i e s p                     =>
    simp only [recast, unnumbered, loop.injEq, true_and] at h ⊢
    exact ⟨he e h.1, recast_eq_self s h.2.1, h.2.2⟩
  | call i receiver name arguments p =>
    simp only [recast, unnumbered, call.injEq, true_and] at h ⊢
    exact ⟨he receiver h.1, h.2.1, Expression.recastAll_eq_self arguments h.2.2.1, h.2.2.2⟩
  | malformed p                      => exact congrArg malformed (malformed.inj h)

theorem Statement.recastAll_eq_self (ss : List Statement)
    (h : unnumberedOf (recastAll ρ ss) = unnumberedOf ss) : recastAll ρ ss = ss := by
  cases ss with
  | nil       => rfl
  | cons s ss =>
    obtain ⟨hs, hss⟩ := List.cons.inj h
    exact congrArg₂ List.cons (recast_eq_self s hs) (recastAll_eq_self ss hss)

end

theorem map_eq_self {f : α → α} {g : α → β} (hf : ∀ a, g (f a) = g a → f a = a) {l : List α}
    (h : (l.map f).map g = l.map g) : l.map f = l := by
  rw [List.map_map, List.map_inj_left] at h
  exact (List.map_congr_left fun a ha => hf a (h a ha)).trans (List.map_id' l)

theorem MethodDeclaration.recast_eq_self {m : MethodDeclaration}
    (h : (m.recast ρ).unnumbered = m.unnumbered) : m.recast ρ = m := by
  obtain ⟨i, name, returns, parameters, body, p⟩ := m
  simp only [recast, unnumbered, mk.injEq, true_and] at h ⊢
  exact ⟨h.1, h.2.1, map_eq_self (fun _ => VariableDeclaration.recast_eq_self) h.2.2.1,
    Statement.recastAll_eq_self body h.2.2.2.1, h.2.2.2.2⟩

theorem Member.recast_eq_self (d : Member) (h : (d.recast ρ).unnumbered = d.unnumbered) :
    d.recast ρ = d := by
  cases d with
  | field d     => exact congrArg field (VariableDeclaration.recast_eq_self (field.inj h))
  | method m    => exact congrArg method (MethodDeclaration.recast_eq_self (method.inj h))
  | malformed p => exact congrArg malformed (malformed.inj h)

theorem ClassDeclaration.recast_eq_self (c : ClassDeclaration)
    (h : (c.recast ρ).unnumbered = c.unnumbered) : c.recast ρ = c := by
  obtain ⟨i, name, superclass, members, p⟩ := c
  simp only [recast, unnumbered, mk.injEq, true_and] at h ⊢
  exact ⟨h.1, h.2.1, map_eq_self Member.recast_eq_self h.2.2.1, h.2.2.2⟩

theorem MainClass.recast_eq_self (c : MainClass)
    (h : (c.recast ρ).unnumbered = c.unnumbered) : c.recast ρ = c := by
  obtain ⟨i, name, body, p⟩ := c
  simp only [recast, unnumbered, mk.injEq, true_and] at h ⊢
  exact ⟨h.1, Statement.recastAll_eq_self body h.2.1, h.2.2⟩

theorem Program.recast_eq_self {p : Program} (h : (p.recast ρ).unnumbered = p.unnumbered) :
    p.recast ρ = p := by
  obtain ⟨main, classes⟩ := p
  obtain ⟨hm, hc⟩ := Program.mk.inj h
  refine congrArg₂ Program.mk ?_ (map_eq_self ClassDeclaration.recast_eq_self hc)
  cases main with
  | none   => rfl
  | some c => exact congrArg some (c.recast_eq_self (Option.some.inj hm))

end MiniJava
