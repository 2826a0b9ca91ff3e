import Mathlib.Control.Basic
import MiniJava.Proofs.Emit.Effect

namespace MiniJava

-- A transformer of a world that may fail.
abbrev Primitive (W X α : Type) := StateT W (Except X) α

-- A transformer of a world that may fail, and that may have no meaning at all.
abbrev Computation (W X α : Type) := StateT W (ExceptT X Option) α

namespace Emit.Context

-- The method that a handle stands for.
def callee? (g : Context) (handle : MethodHandle) : Option MethodSymbol :=
  g.table.symbols.toList.zipIdx.findSome? fun (x, s) =>
    if (g.environment.methodHandle s).toOption = some handle then x.asMethod? else none

theorem toOption_eq_some {a : Except ε α} : a.toOption = some b ↔ a = .ok b := by
  cases a <;> simp [Except.toOption]

theorem callee?_sequential (hh : (Environment.sequential t).methodHandle s = .ok h)
    (hm : t.method? s = some m) : (sequential t).callee? h = some m := by
  obtain ⟨x, hx, hxm⟩ := Option.bind_eq_some_iff.mp hm
  have hmem : (x, s) ∈ t.symbols.toList.zipIdx := Environment.mem_symbols_iff.mpr hx
  have hsome : (callee? (sequential t) h).isSome := by
    rw [callee?, List.findSome?_isSome_iff]
    exact ⟨(x, s), hmem, by simp [sequential, hh, hxm, Except.toOption]⟩
  obtain ⟨m', hm'⟩ := Option.isSome_iff_exists.mp hsome
  obtain ⟨⟨x', s'⟩, hmem', hf⟩ := List.exists_of_findSome?_eq_some hm'
  obtain ⟨hh', hxm'⟩ := Option.ite_none_right_eq_some.mp hf
  obtain rfl := Environment.methodHandle_inj hh (toOption_eq_some.mp hh')
  obtain rfl := Option.some.inj (hx.symm.trans (Environment.mem_symbols_iff.mp hmem'))
  exact hm'.trans (hxm'.symm.trans hxm)

end Emit.Context

-- What the instructions of a body and the phrases of a body have in common. Nothing is assumed of a
-- runtime but that a call gives a value if and only if the method is to give one.
structure Runtime (g : Emit.Context) (V W X : Type) where
  integer      : Int → V
  isZero       : V → Bool
  binary       : BinaryOperator → V → V → Primitive W X V
  loadField    : FieldHandle → V → Primitive W X V
  storeField   : FieldHandle → V → V → Primitive W X Unit
  loadElement  : ElementKind → V → V → Primitive W X V
  storeElement : ElementKind → V → V → V → Primitive W X Unit
  arrayLength  : V → Primitive W X V
  newArray     : TypeHandle → V → Primitive W X V
  newObject    : ConstructorHandle → Primitive W X V
  call         : MethodHandle → V → List V → Primitive W X (Option V)
  print        : V → Primitive W X Unit
  assert       : V → Primitive W X Unit
  isSome_call  : g.callee? h = some m → call h x xs w = .ok (v, w') → (v.isSome ↔ m.returns ≠ .void)

-- How a run of a body ends.
inductive Ending (V W X : Type)
  | returned (value : Option V) (world : W)
  | failed (failure : X)

namespace Computation

variable {W X α β : Type}

def stuck : Computation W X α :=
  fun _ => none

def perform (a : Primitive W X α) : Computation W X α :=
  fun w => some (a w)

def required : Option α → Computation W X α
  | some a => pure a
  | none   => stuck

theorem bind_apply (m : Computation W X α) (k : α → Computation W X β) (w : W) :
    (m >>= k) w = match m w with
      | some (.ok (a, w')) => k a w'
      | some (.error x)    => some (.error x)
      | none               => none := by
  show ExceptT.bind (m w) _ = _
  unfold ExceptT.bind ExceptT.mk
  rcases m w with _ | _ | ⟨a, w'⟩ <;> rfl

-- What follows a call only has to do with what the method gives.
theorem call_bind_congr {g : Emit.Context} (r : Runtime g V W X) (hm : g.callee? h = some m)
    {k k' : Option V → Computation W X β}
    (hk : ∀ v, (v.isSome ↔ m.returns ≠ .void) → k v = k' v) :
    perform (r.call h x xs) >>= k = perform (r.call h x xs) >>= k' := by
  funext w
  simp only [bind_apply, perform]
  rcases hc : r.call h x xs w with _ | ⟨v, w'⟩
  case error => rfl
  case ok    => exact congrFun (hk v (r.isSome_call hm hc)) w'

end Computation

end MiniJava
