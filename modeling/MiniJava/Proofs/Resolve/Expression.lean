import MiniJava.Proofs.Grammar.Proper
import MiniJava.Proofs.Resolve.Annotation
import MiniJava.Proofs.Symbol.Path

namespace MiniJava.Resolve

open Typing

theorem run_bind (a : Action α) (f : α → Action β) (σ : State) :
    (a >>= f) σ = f (a σ).1 (a σ).2 :=
  rfl

theorem run_get (σ : State) : (get : Action State) σ = (σ, σ) :=
  rfl

theorem checkTypeName_of_some {σ : State} (h : (σ.table.resolveType? name).isSome = true)
    (p : Position) : checkTypeName name p σ = ((), σ) := by
  unfold checkTypeName
  rw [run_bind, run_get]
  split
  case isTrue hn => simp_all
  case isFalse   => rfl

theorem checkTypeName_of_none {σ : State} (h : ¬(σ.table.resolveType? name).isSome = true)
    (p : Position) : checkTypeName name p σ = report (.unresolved .aType name) p σ := by
  unfold checkTypeName
  rw [run_bind, run_get]
  split
  case isTrue     => rfl
  case isFalse hn => simp_all

theorem table_checkTypeName (name : String) (p : Position) (σ : State) :
    (checkTypeName name p σ).2.table = σ.table := by
  by_cases h : (σ.table.resolveType? name).isSome = true
  case pos => rw [checkTypeName_of_some h]
  case neg =>
    rw [checkTypeName_of_none h]
    rfl

namespace Annotates

variable {ids : List NodeId} {i : NodeId}

theorem checkTypeName (name : String) (p : Position) (σ : State) :
    Annotates ids σ (Resolve.checkTypeName name p σ).2 := by
  by_cases h : (σ.table.resolveType? name).isSome = true
  case pos =>
    rw [checkTypeName_of_some h p]
    exact .refl _ _
  case neg =>
    rw [checkTypeName_of_none h p]
    exact .report _ _ _

theorem resolveReference (hi : i ∈ ids) (place : Place) (name : String) (p : Position) (σ : State) :
    Annotates ids σ (Resolve.resolveReference place i name p σ).2 := by
  unfold Resolve.resolveReference
  rw [run_bind, run_get]
  cases σ.table.resolve? place.scope .variableNames name with
  | none   => exact .report _ _ _
  | some s => exact .bindReference hi s _

theorem resolveCreation (hi : i ∈ ids) (name : String) (p : Position) (σ : State) :
    Annotates ids σ (Resolve.resolveCreation i name p σ).2 := by
  unfold Resolve.resolveCreation
  rw [run_bind, run_get]
  cases σ.table.resolveType? name with
  | none   => exact .report _ _ _
  | some s => exact .bindReference hi s _

theorem resolveMethod (hi : i ∈ ids) (className name : String) (n : Nat) (p : Position)
    (σ : State) : Annotates ids σ (Resolve.resolveMethod className i name n p σ).2 := by
  unfold Resolve.resolveMethod
  rw [run_bind, run_get]
  dsimp only
  cases classScope? σ.table className with
  | none => exact .refl _ _
  | some scope =>
    dsimp only
    cases σ.table.resolve? scope .methodNames name with
    | none => exact .report _ _ _
    | some s =>
      dsimp only
      cases (σ.table.symbol? s).bind Symbol.asMethod? with
      | none => exact .refl _ _
      | some found =>
        dsimp only
        split
        case isTrue  => exact .trans (.report _ _ _) (.bindReference hi s _)
        case isFalse => exact .bindReference hi s _

theorem resolveCall (hi : i ∈ ids) (τ : StaticType) (name : String) (n : Nat) (p : Position)
    (σ : State) : Annotates ids σ (Resolve.resolveCall τ i name n p σ).2 := by
  unfold Resolve.resolveCall
  split
  case isTrue  => split <;> first | exact .refl _ _ | exact .report _ _ _
  case isFalse => split <;> first | exact resolveMethod hi _ _ _ _ _ | exact .report _ _ _

mutual

theorem expression (place : Place) (e : Expression) (σ : State) :
    Annotates e.nodeIds σ (Resolve.expression place e σ).2 := by
  match e with
  | .call i receiver name arguments p =>
    rw [Resolve.expression]
    refine .trans (.bindScope (i := i) (by simp [Expression.nodeIds]) place.scope σ) ?_
    have hr := expression place receiver (modifyTable (·.bindScope i place.scope) σ).2
    refine .trans (hr.mono (by simp [Expression.nodeIds])) ?_
    refine .trans ((expressions place arguments _).mono (by simp [Expression.nodeIds])) ?_
    simp only [run_bind]
    cases (Resolve.expression place receiver (modifyTable (·.bindScope i place.scope) σ).2).1 with
    | none   => exact .refl _ _
    | some τ =>
      refine .trans (resolveCall (i := i) ?_ τ name arguments.length p _) (keepType ?_ _ _)
      all_goals simp [Expression.nodeIds]
  | .newObject i name p =>
    rw [Resolve.expression, Expression.nodeIds]
    have hi : i ∈ [i] := List.mem_singleton_self i
    exact .trans (bindScope hi place.scope σ) (.trans (resolveCreation hi name p _) (keepType hi _ _))
  | .newArray i name size p =>
    rw [Resolve.expression, Expression.nodeIds]
    have hi : i ∈ size.nodeIds ++ [i] := by simp
    refine .trans (bindScope hi place.scope σ) ?_
    refine .trans ((expression place size _).mono (List.subset_append_left _ _)) ?_
    exact .trans (checkTypeName name p _) (keepType hi (some _) _)
  | .not i operand p =>
    rw [Resolve.expression, Expression.nodeIds]
    have hi : i ∈ operand.nodeIds ++ [i] := by simp
    refine .trans ((expression place operand σ).mono (List.subset_append_left _ _)) ?_
    exact keepType hi (some .boolean) _
  | .binary i op left right p =>
    rw [Resolve.expression, Expression.nodeIds]
    have hi : i ∈ left.nodeIds ++ right.nodeIds ++ [i] := by simp
    refine .trans ((expression place left σ).mono (by simp)) ?_
    refine .trans ((expression place right _).mono (by simp)) ?_
    exact keepType hi (some _) _
  | .boolean i _ _ | .integer i _ _ =>
    rw [Resolve.expression, Expression.nodeIds]
    exact keepType (List.mem_singleton_self i) _ σ
  | .self i p =>
    rw [Resolve.expression, Expression.nodeIds]
    have hi : i ∈ [i] := List.mem_singleton_self i
    refine .trans (bindScope hi place.scope σ) ?_
    simp only [run_bind]
    split
    case isTrue  => exact .trans (.report _ _ _) (keepType hi _ _)
    case isFalse => exact keepType hi _ _
  | .index i array subscript p =>
    rw [Resolve.expression, Expression.nodeIds]
    have hi : i ∈ array.nodeIds ++ subscript.nodeIds ++ [i] := by simp
    refine .trans ((expression place array σ).mono (by simp)) ?_
    refine .trans ((expression place subscript _).mono (by simp)) ?_
    simp only [run_bind]
    match (Resolve.expression place array σ).1 with
    | none            => exact .refl _ _
    | some (.array τ) => exact keepType hi _ _
    | some .int | some .boolean | some .void | some (.object _) => exact .report _ _ _
  | .reference i name p =>
    rw [Resolve.expression, Expression.nodeIds]
    have hi : i ∈ [i] := List.mem_singleton_self i
    refine .trans (bindScope hi place.scope σ) ?_
    exact .trans (resolveReference hi place name p _) (keepType hi _ _)
  | .malformed _ => exact .refl _ _

theorem expressions (place : Place) (es : List Expression) (σ : State) :
    Annotates (Expression.nodeIdsOf es) σ (Resolve.expressions place es σ).2 := by
  match es with
  | []      => exact .refl _ _
  | e :: es =>
    have he := expression place e σ
    have hes := expressions place es (Resolve.expression place e σ).2
    exact (he.mono (by simp [Expression.nodeIdsOf])).trans
      (hes.mono (by simp [Expression.nodeIdsOf]))

end

end Annotates

end MiniJava.Resolve
