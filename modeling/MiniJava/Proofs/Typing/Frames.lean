import MiniJava.Proofs.Typing.Basic
import MiniJava.Tree.Nodes

namespace MiniJava

namespace Typing

theorem Context.mem_of_lookup? {Γ : Context} (h : Γ.lookup? name = some d) :
    d.name = name ∧ ∃ F ∈ Γ.frames, d ∈ F := by
  have ⟨F, hF, hd⟩ := List.exists_of_findSome?_eq_some h
  have hn := List.find?_some hd
  exact ⟨of_decide_eq_true hn, F, hF, List.mem_of_find?_eq_some hd⟩

mutual

theorem Checks.unique : Checks N Γ F s F' → Checks N' Γ F s F'' → F' = F''
  | .declare .., .declare .. | .print _, .print _ | .ret _, .ret _ | .assert _, .assert _
  | .block _, .block _ | .assign .., .assign .. | .call _, .call _ => rfl
  | .ifThen _ h, .ifThen _ h' | .loop _ h, .loop _ h' => h.unique h'
  | .ifThenElse _ ht hf, .ifThenElse _ ht' hf' => by
    obtain rfl := ht.unique ht'
    exact hf.unique hf'

theorem ChecksAll.unique : ChecksAll N Γ F ss F' → ChecksAll N' Γ F ss F'' → F' = F''
  | .nil, .nil => rfl
  | .cons hs hss, .cons hs' hss' => by
    obtain rfl := hs.unique hs'
    exact hss.unique hss'

end

-- What a statement adds to a frame are locals of it.
theorem Checks.mem : Checks N Γ F s F' → d ∈ F' → d ∈ s.locals ∨ d ∈ F
  | .declare .., hd => by simpa [Statement.locals] using hd
  | .print _, hd | .ret _, hd | .assert _, hd | .assign .., hd | .call _, hd | .block _, hd =>
    .inr hd
  | .ifThen _ h, hd | .loop _ h, hd => h.mem hd
  | .ifThenElse _ ht hf, hd => by
    rw [Statement.locals, List.mem_append]
    cases hf.mem hd with
    | inl hd => exact .inl (.inr hd)
    | inr hd => exact (ht.mem hd).imp_left .inl

end Typing

mutual

theorem Statement.locals_sublist (s : Statement) : (s.locals.map (·.id)).Sublist s.nodeIds := by
  match s with
  | .declare d => exact .refl _
  | .print .. | .ret .. | .assert .. | .assign .. | .call .. | .malformed _ =>
    exact List.nil_sublist _
  | .block i body p =>
    rw [locals, nodeIds]
    exact (Statement.localsOf_sublist body).trans (List.sublist_append_left _ _)
  | .ifThen i e onTrue p =>
    rw [locals, nodeIds]
    have h := (locals_sublist onTrue).trans (List.sublist_append_right e.nodeIds _)
    exact h.trans (List.sublist_append_left _ _)
  | .ifThenElse i e onTrue onFalse p =>
    rw [locals, nodeIds, List.map_append]
    have ht := (locals_sublist onTrue).trans (List.sublist_append_right e.nodeIds _)
    have h := ht.append (locals_sublist onFalse)
    exact h.trans (List.sublist_append_left _ _)
  | .loop i e body p =>
    rw [locals, nodeIds]
    have h := (locals_sublist body).trans (List.sublist_append_right e.nodeIds _)
    exact h.trans (List.sublist_append_left _ _)

theorem Statement.localsOf_sublist (ss : List Statement) :
    ((Statement.localsOf ss).map (·.id)).Sublist (Statement.nodeIdsOf ss) := by
  match ss with
  | []      => exact List.nil_sublist _
  | s :: ss =>
    rw [localsOf, nodeIdsOf, List.map_append]
    exact (Statement.locals_sublist s).append (Statement.localsOf_sublist ss)

end

end MiniJava
