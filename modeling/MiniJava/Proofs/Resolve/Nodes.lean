import Mathlib.Data.List.Perm.Basic
import MiniJava.Proofs.Resolve.Declarations

namespace MiniJava

def Body.nodeIds (b : Body) : List NodeId :=
  b.parameters.map (·.id) ++ Statement.nodeIdsOf b.statements

namespace Resolve

open Typing

def AnyClass.nodeIds : AnyClass → List NodeId
  | main c    => c.nodeIds
  | regular c => c.nodeIds

theorem members_perm (ms : List Member) :
    (ms.flatMap Member.nodeIds).Perm
      (ms.flatMap Member.ownIds ++ ((methodsOf ms).map (·.toBody)).flatMap Body.nodeIds) := by
  induction ms with
  | nil          => exact .refl _
  | cons m ms hi =>
    cases m with
    | field d     => exact hi.cons d.id
    | malformed _ => exact hi
    | method m    =>
      show (m.toBody.nodeIds ++ [m.id] ++ ms.flatMap Member.nodeIds).Perm
        ([m.id] ++ ms.flatMap Member.ownIds ++
          (m.toBody.nodeIds ++ ((methodsOf ms).map (·.toBody)).flatMap Body.nodeIds))
      rw [List.perm_iff_count] at hi ⊢
      intro i
      have hi := hi i
      simp only [List.count_append] at hi ⊢
      omega

theorem AnyClass.nodeIds_perm (c : AnyClass) :
    c.nodeIds.Perm ([c.id] ++ (c.memberIds ++ c.bodies.flatMap Body.nodeIds)) := by
  cases c with
  | main c    =>
    show (Statement.nodeIdsOf c.body ++ [c.id]).Perm _
    refine List.perm_append_comm.trans ?_
    simp [AnyClass.id, memberIds, bodies, Body.nodeIds]
  | regular c =>
    exact List.perm_append_comm.trans ((members_perm c.members).append_left _)

theorem nodeIds_perm (p : Program) :
    p.nodeIds.Perm ((allClasses p).map (·.id) ++ ((allClasses p).flatMap AnyClass.memberIds ++
      ((allClasses p).flatMap AnyClass.bodies).flatMap Body.nodeIds)) := by
  have he : p.nodeIds = (allClasses p).flatMap AnyClass.nodeIds := by
    rw [Program.nodeIds, allClasses, List.flatMap_append, List.flatMap_map, List.flatMap_map]
    cases p.mainClass <;> simp [AnyClass.nodeIds]
  rw [he]
  generalize allClasses p = cs
  induction cs with
  | nil          => exact .refl _
  | cons c cs hi =>
    have hc := c.nodeIds_perm
    show (c.nodeIds ++ cs.flatMap AnyClass.nodeIds).Perm
      ([c.id] ++ cs.map (·.id) ++ (c.memberIds ++ cs.flatMap AnyClass.memberIds ++
        (c.bodies ++ cs.flatMap AnyClass.bodies).flatMap Body.nodeIds))
    rw [List.perm_iff_count] at hc hi ⊢
    intro i
    have hi := hi i
    have hc := hc i
    simp only [List.flatMap_append, List.count_append] at hi hc ⊢
    omega

end Resolve

end MiniJava
