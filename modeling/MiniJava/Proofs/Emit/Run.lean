import MiniJava.Code.Emit

namespace MiniJava

namespace Chunk

-- More instructions, and more labels that are bound to the given indices.
def extend (c : Chunk) (is : List Instruction) (targets : List Nat) : Chunk where
  instructions := c.instructions ++ is.toArray
  labels       := c.labels ++ (targets.map some).toArray

variable {c : Chunk}

@[simp]
theorem size_extend : (c.extend is ts).instructions.size = c.instructions.size + is.length := by
  simp [extend]

@[simp]
theorem size_labels_extend : (c.extend is ts).labels.size = c.labels.size + ts.length := by
  simp [extend]

@[simp]
theorem extend_extend : (c.extend is ts).extend js us = c.extend (is ++ js) (ts ++ us) := by
  simp [extend]

@[simp]
theorem extend_nil : c.extend [] [] = c := by
  simp [extend]

@[simp]
theorem instructions_extend_empty : (empty.extend is ts).instructions = is.toArray := by
  simp [extend, empty]

theorem emit_eq_extend : c.emit opcode position = c.extend [⟨opcode, position⟩] [] := by
  simp [emit, extend]

theorem modify_append_cons {a : α} : (l ++ a :: m).modify l.length f = l ++ f a :: m := by
  induction l <;> simp_all

@[simp]
theorem defineLabel_fst : c.defineLabel.1 = ⟨c.labels.size⟩ := rfl

@[simp]
theorem instructions_defineLabel : c.defineLabel.2.instructions = c.instructions := rfl

@[simp]
theorem size_labels_defineLabel : c.defineLabel.2.labels.size = c.labels.size + 1 := by
  simp [defineLabel]

-- A label is defined before or after instructions that have none.
@[simp]
theorem defineLabel_extend : (c.extend is []).defineLabel.2 = c.defineLabel.2.extend is [] := by
  simp [defineLabel, extend]

-- The label that was defined before the rest of the chunk is bound.
@[simp]
theorem mark_extend (hl : l = c.labels.size) :
    (c.defineLabel.2.extend is ts).mark ⟨l⟩ =
      c.extend is ((c.instructions.size + is.length) :: ts) := by
  subst hl
  simp only [defineLabel, extend, mark, mk.injEq, true_and]
  apply Array.ext'
  simp [← Array.length_toList, modify_append_cons]

end Chunk

namespace Emit

@[simp]
theorem orMissing_eq_ok {o : Option α} : Environment.orMissing e o = .ok a ↔ o = some a := by
  cases o <;> simp [Environment.orMissing]

theorem bind_eq_ok {x : Except ε α} {f : α → Except ε β} :
    (x >>= f) = .ok b ↔ ∃ a, x = .ok a ∧ f a = .ok b := by
  cases x <;> simp [bind, Except.bind]

namespace Action

-- Actions that end well, told from the first one on.
@[simp]
theorem bind_eq_ok {x : Action α} {f : α → Action β} :
    (x >>= f) d = .ok (b, d') ↔ ∃ a d₁, x d = .ok (a, d₁) ∧ f a d₁ = .ok (b, d') := by
  show (x d >>= fun r => f r.1 r.2) = _ ↔ _
  simp [Emit.bind_eq_ok]

@[simp]
theorem pure_eq_ok : (pure a : Action α) d = .ok (b, d') ↔ a = b ∧ d = d' := by
  show Except.ok (a, d) = _ ↔ _
  simp

@[simp]
theorem lift_eq_ok {x : Except InternalError α} :
    (liftM x : Action α) d = .ok (a, d') ↔ x = .ok a ∧ d = d' := by
  show (x >>= fun a => Except.ok (a, d)) = _ ↔ _
  simp only [Emit.bind_eq_ok, Except.ok.injEq, Prod.mk.injEq]
  grind

@[simp]
theorem map_eq_ok {x : Action α} {f : α → β} :
    (f <$> x) d = .ok (b, d') ↔ ∃ a, x d = .ok (a, d') ∧ f a = b := by
  simp only [← bind_pure_comp, bind_eq_ok, pure_eq_ok]
  grind

@[simp]
theorem modify_eq_ok {f : Draft → Draft} {a : PUnit} :
    (modify f : Action PUnit) d = .ok (a, d') ↔ f d = d' := by
  show Except.ok (PUnit.unit, f d) = _ ↔ _
  simp

end Action

end Emit

end MiniJava
