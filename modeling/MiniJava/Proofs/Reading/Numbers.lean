import MiniJava.Proofs.Recovery.Tread

namespace MiniJava

namespace Reading

-- The numbers so far, and as many again as there are tokens to come. A reader takes a token for
-- every number that it gives, also for those of nodes that it gives up again. So there are no more
-- numbers than tokens.
def Input.weight (s : Input) : Nat :=
  s.nextId + s.tokens.length

namespace Cursor

variable {s : Cursor n}

theorem weight_next (h : s.tokens ≠ []) : s.next.2.toInput.weight + 1 = s.toInput.weight := by
  obtain ⟨⟨_ | ⟨t, l⟩, stop, nextId, diagnostics⟩, fits⟩ := s
  case nil  => exact absurd rfl h
  case cons => rfl

theorem exists_weight_next (h : s.toInput.weight < w) (hn : s.tokens ≠ []) :
    ∃ v, w = v + 1 ∧ s.next.2.toInput.weight < v := by
  have := weight_next hn
  exact ⟨w - 1, by omega, by omega⟩

theorem weight_next_le : s.next.2.toInput.weight ≤ s.toInput.weight := by
  simp [Input.weight, next]

theorem weight_skipUntil : (s.skipUntil stop).toInput.weight ≤ s.toInput.weight :=
  Nat.add_le_add_left (List.dropWhile_sublist _).length_le _

theorem weight_skipThrough : (s.skipThrough last).toInput.weight ≤ s.toInput.weight :=
  weight_next_le.trans weight_skipUntil

end Cursor

-- An attempt that fails below `w` and gives a value below `v`.
def Attempt.Stays (e : Attempt n α) (s : Cursor n) (w v : Nat) : Prop :=
  e.Ends s (·.weight < w) fun _ s' => s'.weight < v

namespace Attempt

variable {e : Attempt n α} {s : Cursor n}

theorem Stays.pure (h : s.toInput.weight < v) : Stays (pure a : Attempt n α) s w v :=
  Ends.pure h

theorem Stays.mono (h : e.Stays s v v) (hv : v ≤ w) : e.Stays s w v :=
  Ends.imp h (fun _ h => h.trans_le hv) fun _ _ => id

theorem Stays.bind {f : α → Attempt n β} (h : e.Stays s w u)
    (hf : ∀ a s', s'.toInput.weight < u → (f a).Stays s' w v) : Stays (e >>= f) s w v :=
  Ends.bind h hf

theorem Stays.giveUp (h : s.toInput.weight < w) :
    Stays (giveUp error position : Attempt n α) s w v :=
  Ends.giveUp h

theorem Stays.reported (h : s.toInput.weight < w) :
    Stays (throw .reported : Attempt n α) s w v :=
  Ends.reported h

@[simp]
theorem stays_head_bind {f : Token → Attempt n β} :
    Stays (head >>= f) s w v ↔ (f s.head).Stays s w v :=
  Iff.rfl

@[simp]
theorem stays_isAt_bind {f : Bool → Attempt n β} :
    Stays (isAt kind >>= f) s w v ↔ (f (s.head.kind = kind)).Stays s w v :=
  Iff.rfl

theorem stays_take_bind {f : Token → Attempt n β} :
    Stays (take >>= f) s w v ↔ (f s.head).Stays s.next.2.lift w v :=
  Iff.rfl

theorem stays_attemptAfter {s : Cursor (n + 1)} {rest : Token → Attempt n α} :
    Stays (attemptAfter rest) s w v ↔ (rest s.head).Stays s.next.2 w v :=
  Iff.rfl

theorem Stays.below {step : Cursor n → α × Cursor (n - 1)} (h : (step s).2.toInput.weight < v) :
    Stays (below step) s w v :=
  Ends.below h

theorem Stays.lift {e : Step n α} (h : (e s).2.toInput.weight < v) :
    Stays (liftM e : Attempt n α) s w v :=
  Ends.lift h

theorem stays_freshId (h : s.toInput.weight < v) : freshId.Stays s w (v + 1) :=
  Ended.value ((Nat.add_right_comm s.nextId 1 s.tokens.length).trans_lt (Nat.succ_lt_succ h))

theorem stays_acceptToken {extract : TokenKind → Option α} (hw : s.toInput.weight < w)
    (hv : (extract t.kind).isSome → s.toInput.weight < v) :
    (acceptToken expected extract t).Stays s w v := by
  unfold acceptToken
  split
  case h_1 a ha => exact .pure (hv (by simp [ha]))
  case h_2 =>
    split
    case isTrue  => exact .reported hw
    case isFalse => exact .giveUp hw

-- A token that is expected and there pays for a number.
theorem stays_expect {extract : TokenKind → Option α} (he : extract .endOfInput = none)
    (hw : s.toInput.weight < w) (hv : s.toInput.weight < v + 1) :
    (expect expected extract).Stays s w v := by
  refine stays_take_bind.mpr <| .bind (u := v) ?_ fun a s' h => .pure h
  refine stays_acceptToken (Cursor.weight_next_le.trans_lt hw) fun ha => ?_
  have hk : s.head.kind ≠ .endOfInput := fun hk => by simp [hk, he] at ha
  have := Cursor.weight_next (Cursor.tokens_ne_nil hk)
  exact Nat.lt_of_succ_lt_succ (this.trans_lt hv)

theorem pays_expectKind (hw : s.toInput.weight < w) (hv : s.toInput.weight < v + 1)
    (hk : kind ≠ .endOfInput := by simp) : (expectKind kind).Stays s w v :=
  (stays_expect (by simp [ofKind, hk.symm]) hw hv).bind fun _ _ h => .pure h

theorem stays_expectKind (h : s.toInput.weight < v) (hv : v ≤ w := by omega)
    (hk : kind ≠ .endOfInput := by simp) : (expectKind kind).Stays s w v :=
  pays_expectKind (h.trans_le hv) (Nat.lt_succ_of_lt h) hk

theorem stays_expectIdentifier (h : s.toInput.weight < v) (hv : v ≤ w := by omega) :
    expectIdentifier.Stays s w v :=
  stays_expect rfl (h.trans_le hv) (Nat.lt_succ_of_lt h)

theorem stays_expectType (h : s.toInput.weight < v) (hv : v ≤ w := by omega) :
    expectType.Stays s w v :=
  stays_expect rfl (h.trans_le hv) (Nat.lt_succ_of_lt h)

theorem stays_noTerm (h : s.toInput.weight < w) : (noTerm t : Attempt n α).Stays s w v := by
  unfold noTerm
  split
  case h_1 => exact .giveUp h
  case h_2 => exact .giveUp h

end Attempt

open Attempt

mutual

theorem weight_expression (n : Nat) (s : Cursor n) (h : s.toInput.weight < w) :
    (expression n s).2.toInput.weight < w := by
  rw [expression]
  exact (stays_chain n BinaryOperator.levels s h).recover
    fun s' h => Cursor.weight_skipUntil.trans_lt h
termination_by 16 * n + 11
decreasing_by simp only [BinaryOperator.levels]; omega

theorem stays_chain (n k : Nat) (s : Cursor n) (h : s.toInput.weight < w) :
    (chain n k).Stays s w w := by
  match k with
  | 0     =>
    rw [chain]
    exact stays_unary n s h
  | k + 1 =>
    rw [chain]
    exact (stays_chain n k s h).bind fun left s₁ h₁ => stays_chainRest n k left s₁ h₁
termination_by 16 * n + 4 + k

theorem stays_chainRest (n k : Nat) (left : Expression) (s : Cursor n) (h : s.toInput.weight < w) :
    (chainRest n k left).Stays s w w := by
  match n with
  | 0     =>
    rw [chainRest]
    exact .pure h
  | n + 1 =>
    rw [chainRest, stays_head_bind]
    split
    case h_1 => exact .pure h
    case h_2 op ho =>
      have hk : s.head.kind ≠ .endOfInput := fun hk => by simp [hk, operatorAbove?] at ho
      obtain ⟨v, rfl, hn⟩ := Cursor.exists_weight_next h (Cursor.tokens_ne_nil hk)
      refine stays_attemptAfter.mpr ?_
      refine ((stays_chain n k _ hn).mono (by omega)).bind fun right s₁ h₁ => ?_
      exact (stays_freshId h₁).bind fun i s₂ h₂ => stays_chainRest n k _ s₂ h₂
termination_by 16 * n + k

theorem stays_unary (n : Nat) (s : Cursor n) (h : s.toInput.weight < w) :
    (unary n).Stays s w w := by
  match n with
  | 0     =>
    rw [unary]
    exact .lift (weight_term 0 s h)
  | n + 1 =>
    rw [unary, stays_isAt_bind]
    split
    case isTrue hk =>
      have hk : s.head.kind ≠ .endOfInput := fun he => by simp [he] at hk
      obtain ⟨v, rfl, hn⟩ := Cursor.exists_weight_next h (Cursor.tokens_ne_nil hk)
      refine stays_attemptAfter.mpr <| .bind (.lift (weight_term n _ hn)) fun _ s₁ h₁ => ?_
      exact (stays_freshId h₁).bind fun i s₂ h₂ => .pure h₂
    case isFalse => exact .lift (weight_term (n + 1) s h)
termination_by 16 * n + 3

theorem weight_term (n : Nat) (s : Cursor n) (h : s.toInput.weight < w) :
    (term n s).2.toInput.weight < w := by
  rw [term]
  exact (stays_termBody n s h).recover fun s' h => Cursor.weight_skipUntil.trans_lt h
termination_by 16 * n + 2

theorem stays_termBody (n : Nat) (s : Cursor n) (h : s.toInput.weight < w) :
    (termBody n).Stays s w w := by
  match n with
  | 0     =>
    rw [termBody, stays_head_bind]
    exact stays_noTerm h
  | n + 1 =>
    rw [termBody, stays_head_bind]
    have ht (hk : s.head.kind ≠ .endOfInput) := Cursor.exists_weight_next h (Cursor.tokens_ne_nil hk)
    split <;> rename_i hk
    case h_1 =>
      obtain ⟨v, rfl, hn⟩ := ht (by simp [hk])
      refine stays_attemptAfter.mpr ?_
      exact (stays_creation n _ hn).bind fun e s₁ h₁ => stays_termTail n e s₁ h₁
    case h_7 =>
      obtain ⟨v, rfl, hn⟩ := ht (by simp [hk])
      have hn : s.next.2.toInput.weight < v + 1 := by omega
      refine stays_attemptAfter.mpr ?_
      refine .bind (.lift (weight_expression n _ hn)) fun e s₁ h₁ => ?_
      exact (stays_expectKind h₁).bind fun _ s₂ h₂ => stays_termTail n e s₂ h₂
    case h_8 => exact stays_attemptAfter.mpr <| .reported <| Cursor.weight_next_le.trans_lt h
    case h_9 => exact stays_noTerm h
    all_goals
      obtain ⟨v, rfl, hn⟩ := ht (by simp [hk])
      refine stays_attemptAfter.mpr <| (stays_freshId hn).bind fun i s₁ h₁ => ?_
      exact stays_termTail n _ s₁ h₁
termination_by 16 * n + 1

theorem stays_termTail (n : Nat) (inner : Expression) (s : Cursor n) (h : s.toInput.weight < w) :
    (termTail n inner).Stays s w w := by
  match n with
  | 0     =>
    rw [termTail]
    exact .pure h
  | n + 1 =>
    rw [termTail, stays_head_bind]
    split <;> rename_i hk
    case h_1 =>
      obtain ⟨v, rfl, hn⟩ :=
        Cursor.exists_weight_next h (Cursor.tokens_ne_nil (by simp [hk]))
      refine stays_attemptAfter.mpr ?_
      refine .bind (.lift (weight_expression n _ hn)) fun index s₁ h₁ => ?_
      refine (stays_expectKind h₁).bind fun _ s₂ h₂ => ?_
      exact (stays_freshId h₂).bind fun i s₃ h₃ => stays_termTail n _ s₃ h₃
    case h_2 =>
      obtain ⟨v, rfl, hn⟩ :=
        Cursor.exists_weight_next h (Cursor.tokens_ne_nil (by simp [hk]))
      refine stays_attemptAfter.mpr ?_
      exact (stays_invocation n inner _ hn).bind fun e s₁ h₁ => stays_termTail n e s₁ h₁
    case h_3 => exact .pure h
termination_by 16 * n

-- The dot before the method pays for the number of the call.
theorem stays_invocation (n : Nat) (receiver : Expression) (s : Cursor n)
    (h : s.toInput.weight < v) : (invocation n receiver).Stays s (v + 1) (v + 1) := by
  rw [invocation, stays_head_bind]
  split
  case h_1 =>
    exact (stays_expectKind h).bind fun p s₁ h₁ => (stays_freshId h₁).bind fun i s₂ h₂ => .pure h₂
  case h_2 =>
    refine (stays_expectIdentifier h).bind fun ⟨name, p⟩ s₁ h₁ => ?_
    refine (stays_expectKind h₁).bind fun _ s₂ h₂ => ?_
    have hc (arguments : List Expression) (s₃ : Cursor n) (h₃ : s₃.toInput.weight < v) :
        Stays (do
          let _ ← expectKind .rightParen
          return .call (← freshId) receiver name arguments p : Attempt n Expression) s₃
          (v + 1) (v + 1) :=
      (stays_expectKind h₃).bind fun _ s₄ h₄ => (stays_freshId h₄).bind fun i s₅ h₅ => .pure h₅
    rw [stays_isAt_bind]
    split
    case isTrue  => exact hc [] s₂ h₂
    case isFalse =>
      exact ((stays_argumentList n s₂ h₂).mono (by omega)).bind fun arguments s₃ h₃ =>
        hc arguments s₃ h₃
termination_by 16 * n + 13

theorem stays_argumentList (n : Nat) (s : Cursor n) (h : s.toInput.weight < w) :
    (argumentList n).Stays s w w := by
  match n with
  | 0     =>
    rw [argumentList]
    refine .bind (.lift (weight_expression 0 s h)) fun e s₁ h₁ => ?_
    exact (stays_expectKind h₁).bind fun _ s₂ h₂ => .pure h₂
  | n + 1 =>
    rw [argumentList]
    refine .bind (.lift (weight_expression (n + 1) s h)) fun e s₁ h₁ => ?_
    rw [stays_isAt_bind]
    split
    case isTrue  => exact .pure h₁
    case isFalse =>
      have h₁ := Cursor.weight_next_le.trans_lt h₁
      refine stays_attemptAfter.mpr <| (stays_acceptToken h₁ fun _ => h₁).bind fun _ s₂ h₂ => ?_
      exact (stays_argumentList n s₂ h₂).bind fun es s₃ h₃ => .pure h₃
termination_by 16 * n + 12

theorem stays_creation (n : Nat) (s : Cursor n) (h : s.toInput.weight < v) :
    (creation n position).Stays s (v + 1) (v + 1) := by
  rw [creation]
  refine (stays_expectType h).bind fun ⟨⟨name, builtin⟩, p⟩ s₁ h₁ => ?_
  rw [stays_isAt_bind]
  split
  case isTrue  =>
    refine (stays_expectKind h₁).bind fun _ s₂ h₂ => ?_
    refine .bind (.lift (weight_expression n s₂ h₂)) fun size s₃ h₃ => ?_
    refine (stays_expectKind h₃).bind fun _ s₄ h₄ => ?_
    exact (stays_freshId h₄).bind fun i s₅ h₅ => .pure h₅
  case isFalse =>
    refine (stays_expectKind h₁).bind fun _ s₂ h₂ => (stays_expectKind h₂).bind fun _ s₃ h₃ => ?_
    exact (stays_freshId h₃).bind fun i s₄ h₄ => .pure h₄
termination_by 16 * n + 12

end

section

variable {s : Cursor n}

theorem Attempt.stays_typeAfter (h : s.toInput.weight < v) (hv : v ≤ w := by omega) :
    (typeAfter name).Stays s w v := by
  rw [typeAfter, stays_isAt_bind]
  split
  case isTrue  =>
    have hn : s.next.2.lift.toInput.weight < v := Cursor.weight_next_le.trans_lt h
    exact stays_take_bind.mpr <| (stays_expectKind hn).bind fun _ s₁ h₁ => .pure h₁
  case isFalse => exact .pure h

theorem Attempt.stays_variableAfter (h : s.toInput.weight < v) :
    (variableAfter storage type position).Stays s (v + 1) (v + 1) :=
  (stays_expectIdentifier h).bind fun _ s₁ h₁ => (stays_freshId h₁).bind fun i s₂ h₂ => .pure h₂

theorem Attempt.stays_declarationAfter (h : s.toInput.weight < v) :
    (declarationAfter storage name position).Stays s (v + 1) (v + 1) := by
  have hd : Stays (do variableAfter (n := n) storage (← typeAfter name) position) s
      (v + 1) (v + 1) :=
    (stays_typeAfter h).bind fun _ s₁ h₁ => stays_variableAfter h₁
  refine .bind (.lift (hd.recover fun s' h => Cursor.weight_skipUntil.trans_lt h)) fun o s₁ h₁ => ?_
  exact (stays_expectKind h₁).bind fun _ s₂ h₂ => .pure h₂

theorem stays_declarationStatement (h : s.toInput.weight < v) :
    (declarationStatement name position).Stays s (v + 1) (v + 1) :=
  (stays_declarationAfter h).bind fun o s₁ h₁ => by cases o <;> exact .pure h₁

theorem stays_namedDeclaration (h : s.toInput.weight < v) :
    (namedDeclaration type position).Stays s (v + 1) (v + 1) := by
  have hc (s₁ : Cursor n) (h₁ : s₁.toInput.weight < v) :
      Attempt.Stays (do
        let name ← expectIdentifier
        let _ ← expectKind .semicolon
        return .declare ⟨← freshId, name.1, type, .localSlot, position⟩ : Attempt n Statement) s₁
        (v + 1) (v + 1) :=
    (stays_expectIdentifier h₁).bind fun _ s₂ h₂ => (stays_expectKind h₂).bind fun _ s₃ h₃ =>
      (stays_freshId h₃).bind fun i s₄ h₄ => .pure h₄
  unfold namedDeclaration
  split
  case isTrue  =>
    refine stays_take_bind.mpr <| stays_take_bind.mpr <| hc _ ?_
    exact Cursor.weight_next_le.trans_lt (Cursor.weight_next_le.trans_lt h)
  case isFalse => exact hc s h

theorem stays_condition (h : s.toInput.weight < v) (hv : v ≤ w := by omega) :
    (condition n).Stays s w v :=
  (stays_expectKind h).bind fun _ s₁ h₁ => .bind (.lift (weight_expression n s₁ h₁)) fun e s₂ h₂ =>
    (stays_expectKind h₂).bind fun _ s₃ h₃ => .pure h₃

-- An assignment has its `=`, and a call is numbered already.
theorem stays_statementAfter {s₁ : Cursor m} (h : s₁.toInput.weight < w)
    (hs : s.toInput = s₁.next.2.toInput) : (statementAfter first s₁.head).Stays s w w := by
  unfold statementAfter
  split
  case h_1 hk =>
    obtain ⟨v, rfl, hn⟩ :=
        Cursor.exists_weight_next h (Cursor.tokens_ne_nil (by simp [hk]))
    refine .bind (.lift (weight_expression _ s (hs ▸ hn))) fun value s₂ h₂ => ?_
    refine (stays_expectKind h₂).bind fun _ s₃ h₃ => ?_
    exact (stays_freshId h₃).bind fun i s₄ h₄ => .pure h₄
  case h_2 =>
    have hn : s.toInput.weight < w := hs ▸ Cursor.weight_next_le.trans_lt h
    refine (stays_acceptToken hn fun _ => hn).bind fun _ s₂ h₂ => ?_
    split
    case h_1 => exact .pure h₂
    case h_2 => exact .pure h₂
    case h_3 => exact Ended.value h₂

theorem weight_closeStatement (h : body.Stays s w w) :
    (closeStatement start body s).2.toInput.weight < w :=
  h.recover fun _ h => Cursor.weight_skipThrough.trans_lt h

theorem weight_expressionStatement (s : Cursor n) (h : s.toInput.weight < w) :
    (expressionStatement s).2.toInput.weight < w :=
  weight_closeStatement (stays_statementAfter (weight_expression n s h) rfl)

end

mutual

theorem weight_statement (n : Nat) (s : Cursor n) (h : s.toInput.weight < w) :
    (statement n s).2.toInput.weight < w := by
  match n with
  | 0     =>
    rw [statement]
    exact weight_expressionStatement s h
  | n + 1 =>
    rw [statement]
    have ht (hs : StatementStart.ofTokens s.tokens ≠ .expression) :=
      Cursor.exists_weight_next h fun hl => hs (by rw [hl]; rfl)
    split <;> rename_i hs
    case h_5 => exact weight_expressionStatement s h
    all_goals
      obtain ⟨v, rfl, hn⟩ := ht (by simp [hs])
      refine weight_closeStatement ?_
    case h_1 => exact stays_declarationStatement hn
    case h_2 => exact stays_wordStatement n _ hn
    case h_3 => exact stays_block n _ hn
    case h_4 => exact stays_namedDeclaration hn
termination_by 4 * n

-- The keyword pays for the number of the statement.
theorem stays_wordStatement (n : Nat) (s : Cursor n) (h : s.toInput.weight < v) :
    (wordStatement n word position).Stays s (v + 1) (v + 1) := by
  have hi {make : NodeId → Statement} {s₁ : Cursor n} (h₁ : s₁.toInput.weight < v) :
      Attempt.Stays (do return make (← freshId) : Attempt n Statement) s₁ (v + 1) (v + 1) :=
    (stays_freshId h₁).bind fun _ s₂ h₂ => .pure h₂
  rw [wordStatement.eq_def]
  split
  case h_1 =>
    refine (stays_condition h).bind fun value s₁ h₁ => ?_
    exact (stays_expectKind h₁).bind fun _ s₂ h₂ => hi h₂
  case h_2 =>
    refine (stays_condition h).bind fun value s₁ h₁ => ?_
    refine .bind (.below (weight_statement n s₁ h₁)) fun onTrue s₂ h₂ => ?_
    rw [stays_isAt_bind]
    split
    case isTrue  =>
      refine stays_take_bind.mpr ?_
      refine .bind (.below (weight_statement n _ (Cursor.weight_next_le.trans_lt h₂))) ?_
      exact fun onFalse s₃ h₃ => hi h₃
    case isFalse => exact hi h₂
  case h_3 =>
    refine (stays_condition h).bind fun value s₁ h₁ => ?_
    exact .bind (.below (weight_statement n s₁ h₁)) fun body s₂ h₂ => hi h₂
  case h_4 =>
    refine (stays_expectKind h).bind fun _ s₁ h₁ => (stays_expectKind h₁).bind fun _ s₂ h₂ => ?_
    refine (stays_expectKind h₂).bind fun _ s₃ h₃ => (stays_expectKind h₃).bind fun _ s₄ h₄ => ?_
    refine (stays_condition h₄).bind fun value s₅ h₅ => ?_
    exact (stays_expectKind h₅).bind fun _ s₆ h₆ => hi h₆
  case h_5 =>
    refine .bind (.lift (weight_expression n s h)) fun value s₁ h₁ => ?_
    exact (stays_expectKind h₁).bind fun _ s₂ h₂ => hi h₂
  case h_6 => exact .giveUp (by omega)
termination_by 4 * n + 2

theorem stays_block (n : Nat) (s : Cursor n) (h : s.toInput.weight < v) :
    (block n position).Stays s (v + 1) (v + 1) := by
  rw [block]
  refine .bind (.lift (weight_statementList n s h)) fun body s₁ h₁ => ?_
  refine (stays_expectKind h₁).bind fun _ s₂ h₂ => ?_
  exact (stays_freshId h₂).bind fun i s₃ h₃ => .pure h₃
termination_by 4 * n + 2

theorem weight_statementList (n : Nat) (s : Cursor n) (h : s.toInput.weight < w) :
    (statementList n s).2.toInput.weight < w := by
  match n with
  | 0     =>
    rw [statementList]
    exact h
  | n + 1 =>
    rw [statementList]
    dsimp only
    split
    case isTrue  => exact h
    case isFalse => exact weight_statementList n _ (weight_statement (n + 1) s h)
termination_by 4 * n + 1

end

theorem Attempt.pays_typeRef {s : Cursor n} (hw : s.toInput.weight < w)
    (hv : s.toInput.weight < v + 1) (hvw : v ≤ w := by omega) : typeRef.Stays s w v :=
  (stays_expect rfl hw hv).bind fun _ _ h₁ => (stays_typeAfter h₁).bind fun _ _ h₂ => .pure h₂

-- The type pays for the number of the parameter.
theorem weight_parameter (s : Cursor n) (h : s.toInput.weight < w) :
    (parameter n s).2.toInput.weight < w := by
  obtain ⟨v, rfl⟩ : ∃ v, w = v + 1 := ⟨w - 1, by omega⟩
  have hd : Attempt.Stays (do
      let type ← typeRef
      variableAfter .formal type.1 type.2) s (v + 1) (v + 1) :=
    (pays_typeRef h h).bind fun _ s₁ h₁ => stays_variableAfter h₁
  exact hd.recover fun _ h => Cursor.weight_skipUntil.trans_lt h

theorem stays_parameterList (n : Nat) (s : Cursor n) (h : s.toInput.weight < w) :
    (parameterList n).Stays s w w := by
  induction n with
  | zero      =>
    rw [parameterList]
    refine .bind (.lift (weight_parameter s h)) fun o s₁ h₁ => ?_
    exact (stays_expectKind h₁).bind fun _ s₂ h₂ => .pure h₂
  | succ n hi =>
    rw [parameterList]
    refine .bind (.lift (weight_parameter s h)) fun o s₁ h₁ => ?_
    rw [stays_isAt_bind]
    split
    case isTrue  => exact .pure h₁
    case isFalse =>
      have h₁ := Cursor.weight_next_le.trans_lt h₁
      refine stays_attemptAfter.mpr <| (stays_acceptToken h₁ fun _ => h₁).bind fun _ s₂ h₂ => ?_
      exact (hi s₂ h₂).bind fun ds s₃ h₃ => .pure h₃

theorem stays_method {s : Cursor n} (h : s.toInput.weight < v) :
    (method t).Stays s (v + 1) (v + 1) := by
  refine (stays_acceptToken (by omega) fun _ => h).bind fun _ s₁ h₁ => ?_
  refine (pays_typeRef (v := v) (by omega) (by omega)).bind fun ⟨type, _⟩ s₂ h₂ => ?_
  refine (stays_expectIdentifier h₂).bind fun ⟨name, _⟩ s₃ h₃ => ?_
  refine (stays_expectKind h₃).bind fun _ s₄ h₄ => ?_
  have hc (parameters : List VariableDeclaration) (s₅ : Cursor n) (h₅ : s₅.toInput.weight < v) :
      Attempt.Stays (do
        let _ ← expectKind .rightParen
        let _ ← expectKind .leftBrace
        let body ← statementList n
        let _ ← expectKind .rightBrace
        return .method ⟨← freshId, name, type, parameters, body, t.position⟩ : Attempt n Member) s₅
        (v + 1) (v + 1) := by
    refine (stays_expectKind h₅).bind fun _ s₆ h₆ => (stays_expectKind h₆).bind fun _ s₇ h₇ => ?_
    refine .bind (.lift (weight_statementList n s₇ h₇)) fun body s₈ h₈ => ?_
    refine (stays_expectKind h₈).bind fun _ s₉ h₉ => ?_
    exact (stays_freshId h₉).bind fun i s₁₀ h₁₀ => .pure h₁₀
  rw [stays_isAt_bind]
  split
  case isTrue  => exact hc [] s₄ h₄
  case isFalse =>
    exact ((stays_parameterList n s₄ h₄).mono (by omega)).bind fun parameters s₅ h₅ =>
      hc parameters s₅ h₅

theorem stays_field {s : Cursor n} (h : s.toInput.weight < v) :
    (field name position).Stays s (v + 1) (v + 1) :=
  (stays_declarationAfter h).bind fun o s₁ h₁ => by cases o <;> exact .pure h₁

theorem weight_closeMember {s : Cursor n} (h : body.Stays s w w) :
    (closeMember start body s).2.toInput.weight < w :=
  h.recover fun _ h => Cursor.weight_skipThrough.trans_lt h

theorem weight_member (s : Cursor (n + 1)) (h : s.toInput.weight < w) :
    (member s).2.toInput.weight < w := by
  have ht (hk : s.head.kind ≠ .endOfInput) :=
    Cursor.exists_weight_next h (Cursor.tokens_ne_nil hk)
  unfold member
  dsimp only
  split <;> rename_i hk
  case h_1 | h_2 =>
    obtain ⟨v, rfl, hn⟩ := ht (by simp [hk])
    exact weight_closeMember (stays_field hn)
  case h_3 =>
    obtain ⟨v, rfl, hn⟩ := ht (by simp [hk])
    exact weight_closeMember (stays_method hn)
  case h_4 => exact weight_closeMember (.reported (Cursor.weight_next_le.trans_lt h))
  case h_5 => exact Cursor.weight_skipThrough.trans_lt h

theorem weight_memberList (n : Nat) (s : Cursor n) (h : s.toInput.weight < w) :
    (memberList n s).2.toInput.weight < w := by
  induction n with
  | zero      => exact h
  | succ n hi =>
    rw [memberList]
    dsimp only
    split
    case isTrue  => exact h
    case isFalse => exact hi _ (weight_member s h)

theorem stays_superclass {s : Cursor n} (h : s.toInput.weight < v) (hv : v ≤ w := by omega) :
    superclass.Stays s w v := by
  rw [superclass, stays_isAt_bind]
  split
  case isTrue  => exact .pure h
  case isFalse =>
    refine (stays_expectKind h).bind fun _ s₁ h₁ => ?_
    exact (stays_expectIdentifier h₁).bind fun _ s₂ h₂ => .pure h₂

theorem stays_classDeclaration {s : Cursor n} (h : s.toInput.weight < v) :
    (classDeclaration t).Stays s (v + 1) (v + 1) := by
  refine (stays_acceptToken (by omega) fun _ => h).bind fun _ s₁ h₁ => ?_
  refine (stays_expectIdentifier h₁).bind fun _ s₂ h₂ => ?_
  refine (stays_superclass h₂).bind fun _ s₃ h₃ => (stays_expectKind h₃).bind fun _ s₄ h₄ => ?_
  refine .bind (.lift (weight_memberList n s₄ h₄)) fun members s₅ h₅ => ?_
  refine (stays_expectKind h₅).bind fun _ s₆ h₆ => ?_
  exact (stays_freshId h₆).bind fun i s₇ h₇ => .pure h₇

theorem weight_classList (n : Nat) (s : Cursor n) (h : s.toInput.weight < w) :
    (classList n s).2.toInput.weight < w := by
  induction n with
  | zero      => exact h
  | succ n hi =>
    rw [classList]
    dsimp only
    split
    case isTrue     => exact h
    case isFalse hl =>
      obtain ⟨v, rfl, hn⟩ := Cursor.exists_weight_next h (by simpa using hl)
      exact hi _ <| (stays_classDeclaration hn).recover fun _ h => Cursor.weight_skipUntil.trans_lt h

theorem stays_mainClass (n : Nat) (s : Cursor n) (h : s.toInput.weight < w) :
    (mainClass n).Stays s w w := by
  obtain ⟨v, rfl⟩ : ∃ v, w = v + 1 := ⟨w - 1, by omega⟩
  refine (pays_expectKind (v := v) h h).bind fun _ s₁ h₁ => ?_
  refine (stays_expectIdentifier h₁).bind fun _ s₂ h₂ => ?_
  refine (stays_expectKind h₂).bind fun _ s₃ h₃ => (stays_expectKind h₃).bind fun _ s₄ h₄ => ?_
  refine (stays_expectKind h₄).bind fun _ s₅ h₅ => ?_
  refine .bind (u := v) ?parameters fun _ s₆ h₆ => ?_
  case parameters =>
    exact (stays_expect rfl (by omega) (by omega)).bind fun _ s₆ h₆ => .pure h₆
  refine (stays_expectKind h₆).bind fun _ s₇ h₇ => (stays_expectKind h₇).bind fun _ s₈ h₈ => ?_
  refine (stays_expectKind h₈).bind fun _ s₉ h₉ => (stays_expectKind h₉).bind fun _ s₁₀ h₁₀ => ?_
  refine .bind (.lift (weight_statementList n s₁₀ h₁₀)) fun body s₁₁ h₁₁ => ?_
  refine (stays_expectKind h₁₁).bind fun _ s₁₂ h₁₂ => ?_
  refine (stays_expectKind h₁₂).bind fun _ s₁₃ h₁₃ => ?_
  exact (stays_freshId h₁₃).bind fun i s₁₄ h₁₄ => .pure h₁₄

theorem weight_program (n : Nat) (s : Cursor n) (h : s.toInput.weight < w) :
    (program n s).2.toInput.weight < w := by
  rw [run_program]
  refine weight_classList n _ ?_
  exact (stays_mainClass n s h).recover fun _ h => Cursor.weight_skipUntil.trans_lt h

end Reading

namespace ParsedProgram

open Reading

-- Each node has a number that is greater than those of the nodes before it. The numbers that have
-- been given are no more than the tokens, and if nothing is wrong the tree has them all.
theorem numbered (tokens : List Token) :
    let parsed := (Cursor.ofStream (.ofTokens tokens)).readProgram.1
    let rest := (Cursor.ofStream (.ofTokens tokens)).readProgram.2
    parsed.program.nodeIds.Pairwise (· < ·) ∧
      (∀ i ∈ parsed.program.nodeIds, i < rest.nextId) ∧
      rest.nextId ≤ tokens.length ∧
      (parsed.diagnostics = [] →
        parsed.program.nodeIds = List.range parsed.program.nodeIds.length) := by
  intro parsed rest
  let s := Cursor.ofStream (.ofTokens tokens)
  have hb : Built parsed.program.nodeIds parsed.program.gaps _ s.toInput _ :=
    (meets_program _ s).holds
  have ho : parsed.program.nodeIds.Sublist (List.range rest.nextId) :=
    List.range_eq_range' ▸ hb.ordered
  refine ⟨List.pairwise_lt_range.sublist ho, fun i hi => ?below, ?count, fun hd => ?range⟩
  case below => exact List.mem_range.mp (ho.subset hi)
  case count =>
    have hl : (TokenStream.ofTokens tokens).tokens.length ≤ tokens.length :=
      (List.takeWhile_sublist _).length_le
    have hs : s.toInput.weight < tokens.length + 1 :=
      Nat.lt_succ_of_le ((Nat.zero_add _).trans_le hl)
    have hw : rest.toInput.weight < tokens.length + 1 := weight_program _ s hs
    exact Nat.le_of_lt_succ ((Nat.le_add_right _ _).trans_lt hw)
  case range =>
    have hn : rest.nextId = parsed.program.nodeIds.length := by
      have hd : (Reading.program _ s).2.diagnostics = #[] := Array.toList_eq_nil_iff.mp hd
      exact (hb.derives (by rw [hd]; rfl)).2.trans (Nat.zero_add _)
    rw [hn] at ho
    exact ho.eq_of_length (List.length_range).symm

end ParsedProgram

end MiniJava
