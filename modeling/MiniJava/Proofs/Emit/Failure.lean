import MiniJava.Proofs.Emit.Method

namespace MiniJava.Emit

theorem bind_eq_error {x : Except ε α} {f : α → Except ε β} :
    (x >>= f) = .error e ↔ x = .error e ∨ ∃ a, x = .ok a ∧ f a = .error e := by
  cases x <;> simp [bind, Except.bind]

@[simp]
theorem orMissing_eq_error {o : Option α} :
    Environment.orMissing e o = .error e' ↔ o = none ∧ e = e' := by
  cases o <;> simp [Environment.orMissing]

namespace Action

-- Actions that fail, told from the first one on.
@[simp]
theorem bind_eq_error {x : Action α} {f : α → Action β} :
    (x >>= f) d = .error e ↔ x d = .error e ∨ ∃ a d₁, x d = .ok (a, d₁) ∧ f a d₁ = .error e := by
  show (x d >>= fun r => f r.1 r.2) = _ ↔ _
  simp [Emit.bind_eq_error]

@[simp]
theorem pure_ne_error : (pure a : Action α) d ≠ .error e := nofun

@[simp]
theorem lift_eq_error {x : Except InternalError α} :
    (liftM x : Action α) d = .error e ↔ x = .error e := by
  show (x >>= fun a => Except.ok (a, d)) = _ ↔ _
  simp [Emit.bind_eq_error]

@[simp]
theorem throw_eq_error : (throw e : Action α) d = .error e' ↔ e = e' := by
  show Except.error e = _ ↔ _
  simp

@[simp]
theorem map_eq_error {x : Action α} {f : α → β} : (f <$> x) d = .error e ↔ x d = .error e := by
  simp [← bind_pure_comp]

@[simp]
theorem modify_ne_error {f : Draft → Draft} : (modify f : Action PUnit) d ≠ .error e := nofun

end Action

@[simp]
theorem emit_ne_error : emit o p d ≠ .error e := nofun

@[simp]
theorem mark_ne_error : mark l d ≠ .error e := nofun

@[simp]
theorem reach_ne_error : reach s d ≠ .error e := nofun

@[simp]
theorem defineLabel_ne_error : defineLabel d ≠ .error e := nofun

section

variable {labels : List Nat}

@[simp]
theorem labelFor_ne_labelsUnbound : labelFor s d ≠ .error (.labelsUnbound labels) := by
  simp [labelFor]

theorem elementKind_ne_labelsUnbound : elementKind g array ≠ .error (.labelsUnbound labels) := by
  intro h
  simp [elementKind, bind_eq_error, nodeOf, staticType] at h
  obtain ⟨j, _, τ, _, h⟩ := h
  split at h <;> cases h

mutual

theorem expression_ne_labelsUnbound : expression g e d ≠ .error (.labelsUnbound labels) := by
  match e with
  | .call i receiver name arguments p =>
    simp only [expression]
    simp [expression_ne_labelsUnbound, nodeOf, staticType]
    intro _ _ _ j _ τ _ h
    split at h <;>
      simp [expressions_ne_labelsUnbound, Environment.methodHandle] at h
  | .newObject .. | .newArray .. | .not .. | .binary .. | .boolean .. | .integer .. | .self ..
  | .index .. | .malformed _ =>
    simp only [expression]
    simp [expression_ne_labelsUnbound, elementKind_ne_labelsUnbound, Environment.typeHandle,
      Environment.constructor]
  | .reference i name p =>
    simp only [expression]
    simp [variableAt]
    intro s v _ h
    cases hd : v.storage <;> simp [hd, slotOf, Environment.fieldHandle] at h

theorem expressions_ne_labelsUnbound : expressions g es d ≠ .error (.labelsUnbound labels) := by
  match es with
  | []      => simp [expressions]
  | e :: es => simp [expressions, expression_ne_labelsUnbound, expressions_ne_labelsUnbound]

end

theorem address_ne_labelsUnbound : address g e d ≠ .error (.labelsUnbound labels) := by
  cases e <;> simp only [address] <;> simp [variableAt, expression_ne_labelsUnbound]
  case reference =>
    intro s v _ h
    split at h <;> simp at h

theorem store_ne_labelsUnbound : store g e p d ≠ .error (.labelsUnbound labels) := by
  cases e <;> simp only [store] <;> simp [variableAt, elementKind_ne_labelsUnbound]
  case reference =>
    intro s v _ h
    cases hd : v.storage <;> simp [hd, slotOf, Environment.fieldHandle] at h

mutual

theorem statement_ne_labelsUnbound : statement g s d ≠ .error (.labelsUnbound labels) := by
  match s with
  | .declare _ | .print .. | .ret .. | .assert .. | .assign .. | .malformed _ =>
    simp only [statement]
    simp [expression_ne_labelsUnbound, address_ne_labelsUnbound, store_ne_labelsUnbound]
  | .block i ss p =>
    have hi {d} : statements g ss d ≠ .error (.labelsUnbound labels) := statements_ne_labelsUnbound
    simp only [statement]
    simp [hi]
  | .ifThen i cond onTrue p =>
    simp only [statement]
    simp [expression_ne_labelsUnbound, statement_ne_labelsUnbound (s := onTrue)]
  | .ifThenElse i cond onTrue onFalse p =>
    simp only [statement]
    simp [expression_ne_labelsUnbound, statement_ne_labelsUnbound (s := onTrue),
      statement_ne_labelsUnbound (s := onFalse)]
  | .loop i cond body p =>
    simp only [statement]
    simp [expression_ne_labelsUnbound, statement_ne_labelsUnbound (s := body)]
  | .call i receiver name arguments p =>
    simp only [statement]
    simp [expression_ne_labelsUnbound, staticType]
    intro _ _ _ τ _ h
    split at h <;> simp at h

theorem statements_ne_labelsUnbound : statements g ss d ≠ .error (.labelsUnbound labels) := by
  match ss with
  | []      => simp [statements]
  | s :: ss =>
    have hi {d} : statements g ss d ≠ .error (.labelsUnbound labels) := statements_ne_labelsUnbound
    simp [statements, statement_ne_labelsUnbound (s := s), hi]

end

theorem body_ne_labelsUnbound : body g ss d ≠ .error (.labelsUnbound labels) := by
  simp only [body]
  cases endsInReturn ss <;> simp [statements_ne_labelsUnbound]

-- The only check of the labels comes when all of them are bound.
theorem chunk_ne_labelsUnbound (hn : (Statement.nodeIdsOf ss).Nodup) :
    chunk g ss ≠ .error (.labelsUnbound labels) := by
  intro h
  have h : (body g ss .empty >>= fun r => finish r.2) = .error (.labelsUnbound labels) := h
  rcases bind_eq_error.mp h with h | ⟨⟨_, d⟩, hb, hf⟩
  case inl => exact body_ne_labelsUnbound h
  case inr =>
    obtain ⟨is, ts, _, rfl⟩ := (body_eq_ok hn).mp hb
    cases finish_extend.symm.trans hf

end

end MiniJava.Emit
