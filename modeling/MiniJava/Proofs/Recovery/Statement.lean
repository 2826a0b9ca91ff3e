import MiniJava.Proofs.Recovery.Stride

namespace MiniJava.Reading

open Attempt Grammar

theorem treads_skipVariable (s : Cursor n) : Treads s.toInput (skipVariable s).toInput :=
  s.treads_skipUntil rfl

namespace Attempt

variable {s : Cursor n} {s₀ : Input} {R : Input → Prop}

-- The `;` of a statement.
theorem ends_expectSemicolon (h : Treads s₀ s.toInput) :
    (expectKind .semicolon).Ends s (Treads s₀) fun _ => Strides s₀ := by
  unfold expectKind expect
  simp only [bind_assoc]
  rw [ends_take_bind]
  have hs : s.next.2.lift.toInput = s.next.2.toInput := rfl
  refine .bind (P := fun _ => Strides s₀)
    (ends_acceptToken (kept_treads _) hs h fun a ha => ?_) fun _ _ h => .pure h
  have ha : s.head.kind = .semicolon := by simpa [ofKind] using ha
  exact .finish h ha

theorem ends_freshId (h : Strides s₀ s.toInput) : freshId.Ends s R fun _ => Strides s₀ :=
  Ended.value h.number

-- The node of a statement is numbered behind its `;`.
theorem ends_expectSemicolon_bind {f : NodeId → Statement} (h : Treads s₀ s.toInput) :
    Ends (do
      let _ ← expectKind .semicolon
      return f (← freshId)) s (Treads s₀) fun _ => Strides s₀ :=
  (ends_expectSemicolon h).bind fun _ _ h => (ends_freshId h).bind fun _ _ h => .pure h

theorem goes_typeAfter : (typeAfter name).Goes s fun _ _ => True := by
  rw [typeAfter, goes_isAt_bind]
  split
  case isTrue hk =>
    have hk : s.head.kind = .leftBracket := by simpa using hk
    refine .take (by simp [hk]) ?_
    exact (goes_expectKind (by simp) (by simp)).bind fun _ _ _ _ => .pure trivial
  case isFalse => exact .pure trivial

theorem goes_typeRef : typeRef.Goes s fun _ _ => True :=
  (goes_expect rfl rfl).bind fun _ _ _ _ => goes_typeAfter.bind fun _ _ _ _ => .pure trivial

theorem goes_variableAfter : (variableAfter storage type position).Goes s fun _ _ => True :=
  (goes_expect rfl rfl).bind fun _ _ _ _ => goes_freshId.bind fun _ _ _ _ => .pure trivial

theorem goes_recover {body : Attempt n α} {sync : Cursor n → Cursor n}
    (h : body.Goes s fun _ _ => True) (hs : ∀ s, Treads s.toInput (sync s).toInput) :
    (Reading.recover sync body).Goes s fun _ _ => True :=
  ⟨(Ends.imp h (fun _ => id) fun _ _ h => h.1).recover fun s' h => h.trans (hs s'), trivial⟩

theorem ends_declarationAfter (h : Treads s₀ s.toInput) :
    (declarationAfter storage name position).Ends s (Treads s₀) fun _ => Strides s₀ := by
  have hd : Goes (do variableAfter (n := n) storage (← typeAfter name) position) s
      fun _ _ => True :=
    goes_typeAfter.bind fun _ _ _ _ => goes_variableAfter
  refine (goes_recover hd treads_skipVariable).lift.then (kept_treads _) h fun _ _ ht _ => ?_
  exact (ends_expectSemicolon (h.trans ht)).bind fun _ _ h => .pure h

theorem ends_declarationStatement (h : Treads s₀ s.toInput) :
    (declarationStatement name position).Ends s (Treads s₀) fun _ => Strides s₀ :=
  (ends_declarationAfter h).bind fun o _ h => by cases o <;> exact .pure h

theorem ends_namedDeclaration (h : Treads s₀ s.toInput)
    (hs : StatementStart.Of (t :: s.tokens) (.named type)) :
    (namedDeclaration type position).Ends s (Treads s₀) fun _ => Strides s₀ := by
  have hc (s₁ : Cursor n) (h : Treads s₀ s₁.toInput) :
      Ends (do
        let name ← expectIdentifier
        let _ ← expectKind .semicolon
        return .declare ⟨← freshId, name.1, type, .localSlot, position⟩ : Attempt n Statement) s₁
        (Treads s₀) fun _ => Strides s₀ :=
    (goes_expect rfl rfl).then (kept_treads _) h fun _ _ ht _ => ends_expectSemicolon_bind (h.trans ht)
  unfold namedDeclaration
  generalize hm : t :: s.tokens = m at hs
  cases hs with
  | array _ hu hv =>
    have hm := (List.cons.inj hm).2
    have hm' : s.next.2.lift.tokens = _ := congrArg List.tail hm
    have hb : s.head.kind = .leftBracket := Cursor.head_eq hm ▸ hu
    have hb' : s.next.2.lift.head.kind = .rightBracket := Cursor.head_eq hm' ▸ hv
    have ht : Tread s.toInput s.next.2.lift.toInput := .pass (by simp [hb])
    have ht' : Tread s.next.2.lift.toInput s.next.2.lift.next.2.lift.toInput :=
      .pass (hb' ▸ by simp : s.next.2.lift.head.kind ≠ _)
    rw [if_pos rfl, ends_take_bind, ends_take_bind]
    exact hc _ ((h.tail ht).tail ht')
  | plain _ _     => exact hc s h

theorem goes_condition :
    (condition n).Goes s fun e s' =>
      Built e.nodeIds e.gaps (IsCondition s.tokens e s'.tokens) s.toInput s' := by
  have h : (condition n).Goes s fun _ _ => True :=
    (goes_expectKind (by simp) (by simp)).bind fun _ s₁ _ _ =>
      (goes_expression n s₁).lift.bind fun _ _ _ _ =>
        (goes_expectKind (by simp) (by simp)).bind fun _ _ _ _ => .pure trivial
  exact (Ends.and_meets h meets_condition).imp (fun _ => id) fun _ _ h => ⟨h.1.1, h.2⟩

-- Behind the token `t` after a whole expression.
theorem ends_statementAfter {s₁ : Cursor m} (hs : s.toInput = s₁.next.2.toInput)
    (h : Treads s₀ s₁.toInput) (hp : Placed s₀ first s₁.toInput)
    (he : Expresses first s₀ s₁.toInput) :
    (statementAfter first s₁.head).Ends s (Treads s₀) fun _ => Strides s₀ := by
  unfold statementAfter
  split
  case h_1 ha =>
    have ht : Treads s₀ s.toInput := hs ▸ h.tail (.pass (by simp [ha]))
    refine (goes_expression _ s).lift.then (kept_treads _) ht fun value s₂ h₂ _ => ?_
    exact ends_expectSemicolon_bind (ht.trans h₂)
  case h_2 =>
    refine .bind (P := fun _ s' => s₁.head.kind = .semicolon ∧ s' = s₁.next.2.toInput)
      (ends_acceptToken (kept_treads _) hs h fun a ha => ?semicolon) fun _ s₂ h₂ => ?rest
    case semicolon => exact ⟨by simpa [ofKind] using ha, hs⟩
    case rest =>
      obtain ⟨hk, h₂⟩ := h₂
      split
      case h_1 => exact .pure (h₂ ▸ .finish h hk)
      case h_2 => exact .pure (h₂ ▸ .finish h hk)
      case h_3 hn =>
        refine .bind (P := fun _ => Strides s₀) (Ended.value ?_) fun _ _ h => .pure h
        show Strides s₀ (s₂.toInput.report _ _)
        rw [h₂]
        exact .complain .refl h hk (hp.placed hn) he

end Attempt

theorem strides_closeStatement {s : Cursor n} {s₀ : Input}
    (h : body.Ends s (Treads s₀) fun _ => Strides s₀) :
    Strides s₀ (closeStatement start body s).2.toInput :=
  h.recover fun _ => Strides.skip

theorem strides_expressionStatement (s : Cursor n) :
    Strides s.toInput (expressionStatement s).2.toInput := by
  have he := goes_expression n s
  exact strides_closeStatement (ends_statementAfter rfl he.1 he.2 ⟨n, s, rfl, rfl, rfl⟩)

theorem walks_closeStatement {s : Cursor n} {s₀ : Input}
    (h : body.Ends s (Walks s₀) fun _ => Walks s₀) :
    Walks s₀ (closeStatement start body s).2.toInput :=
  h.recover fun _ h => h.trans (Strides.skip .refl).walks

mutual

theorem strides_statement (n : Nat) (s : Cursor n) :
    Strides s.toInput (statement n s).2.toInput := by
  match n with
  | 0     =>
    rw [statement]
    exact strides_expressionStatement s
  | n + 1 =>
    rw [statement]
    have hs := StatementStart.of_ofTokens s.tokens
    split <;> rename_i h
    case h_5 => exact strides_expressionStatement s
    all_goals
      rw [h] at hs
      generalize hl : s.tokens = l at hs
    case h_1 =>
      cases hs with | typed hk =>
      rw [← Cursor.head_eq hl] at hk
      have ht : Treads s.toInput s.next.2.toInput := .single (.pass (by simp [hk]))
      exact strides_closeStatement (ends_declarationStatement ht)
    case h_2 =>
      cases hs with | word hk =>
      exact strides_closeStatement (ends_wordStatement n _ (Cursor.head_eq hl ▸ hk) rfl)
    case h_3 =>
      cases hs with | brace hk =>
      rw [← Cursor.head_eq hl] at hk
      exact .block .refl hk (walks_closeStatement (ends_block n _))
    case h_4 =>
      have hk : ∃ name, s.head.kind = .identifier name := by
        cases hs with | array hk | plain hk => exact ⟨_, Cursor.head_eq hl ▸ hk⟩
      obtain ⟨name, hk⟩ := hk
      have ht : Treads s.toInput s.next.2.toInput := .single (.pass (by simp [hk]))
      have hm : s.tokens = s.head :: s.next.2.tokens := Cursor.tokens_eq_cons (by simp [hk])
      exact strides_closeStatement (ends_namedDeclaration ht (hm ▸ hl ▸ hs))
termination_by 4 * n

theorem ends_wordStatement (n : Nat) (s : Cursor n) {s₁ : Cursor m}
    (hk : s₁.head.kind = .keyword word) (hs : s.toInput = s₁.next.2.toInput) :
    (wordStatement n word s₁.head.position).Ends s (Treads s₁.toInput)
      fun _ => Strides s₁.toInput := by
  have ht : Takes s₁.toInput s₁.head s.toInput := hs ▸ Cursor.takes_next (by simp [hk])
  have hp : Treads s₁.toInput s.toInput := hs ▸ .single (.pass (by simp [hk]))
  rw [wordStatement.eq_def]
  split
  case h_1 =>
    refine goes_condition.then (kept_treads _) hp fun value s₂ h₂ _ => ?_
    exact ends_expectSemicolon_bind (hp.trans h₂)
  case h_2 =>
    refine goes_condition.then (kept_treads _) hp fun value s₂ h₂ he => ?_
    have hw : Wraps s₁.toInput s₂.toInput := fun hq st r hst => by
      obtain ⟨⟨hl, he⟩, -⟩ := (ht.trans he).derives hq
      exact ⟨.ifThen 0 value st s₁.head.position, hl ▸ .ifThen hk he hst⟩
    refine .bind (P := fun st s₃ => Strides s₂.toInput s₃ ∧ BuildsStatement s₂.toInput st s₃)
      (.below ⟨strides_statement n s₂, (meets_statement n s₂).holds⟩) fun onTrue s₃ ⟨h₃, hb⟩ => ?_
    have h := h₃.before (hp.trans h₂) hw
    rw [ends_isAt_bind]
    split
    case isTrue hu  =>
      have hu : s₃.head.kind = .keyword .elseWord := by simpa using hu
      have hi : Holds (.keyword .ifWord) s₁.toInput s.toInput :=
        ⟨[s₁.head], hs ▸ Cursor.tokens_eq_cons (by simp [hk]), s₁.head, by simp, hk⟩
      have hi := hi.through ((Treads.passes h₂).trans h₃.passes)
      have hb : Begins s₂.toInput s₃.toInput := fun hq => ⟨_, (hb.derives hq).1 false (by simp)⟩
      have hb := hb.before (Treads.passes (hp.trans h₂)) hw h₃.passes
      rw [ends_take_bind]
      refine .bind (P := fun _ => Strides s₁.toInput)
        (.below (h.resume hu hi hb (strides_statement n s₃.next.2.lift))) fun onFalse s₄ h₄ => ?_
      exact (ends_freshId h₄).bind fun _ _ h => .pure h
    case isFalse => exact (ends_freshId h).bind fun _ _ h => .pure h
  case h_3 =>
    refine goes_condition.then (kept_treads _) hp fun value s₂ h₂ he => ?_
    have hw : Wraps s₁.toInput s₂.toInput := fun hq st r hst => by
      obtain ⟨⟨hl, he⟩, -⟩ := (ht.trans he).derives hq
      exact ⟨.loop 0 value st s₁.head.position, hl ▸ .loop hk he hst⟩
    refine .bind (P := fun _ => Strides s₁.toInput)
      (.below ((strides_statement n s₂).before (hp.trans h₂) hw)) fun body s₃ h₃ => ?_
    exact (ends_freshId h₃).bind fun _ _ h => .pure h
  case h_4 =>
    refine (goes_expectKind (by simp) (by simp)).then (kept_treads _) hp fun _ s₂ h₂ _ => ?_
    have hp := hp.trans h₂
    refine (goes_expectKind (by simp) (by simp)).then (kept_treads _) hp fun _ s₃ h₃ _ => ?_
    have hp := hp.trans h₃
    refine (goes_expectKind (by simp) (by simp)).then (kept_treads _) hp fun _ s₄ h₄ _ => ?_
    have hp := hp.trans h₄
    refine (goes_expectKind (by simp) (by simp)).then (kept_treads _) hp fun _ s₅ h₅ _ => ?_
    have hp := hp.trans h₅
    refine goes_condition.then (kept_treads _) hp fun value s₆ h₆ _ => ?_
    exact ends_expectSemicolon_bind (hp.trans h₆)
  case h_5 =>
    refine (goes_expression n s).lift.then (kept_treads _) hp fun value s₂ h₂ _ => ?_
    exact ends_expectSemicolon_bind (hp.trans h₂)
  case h_6 other =>
    -- The keyword has been taken already.
    refine .giveUp ?_
    have hr : Tread s₁.toInput (s₁.next.2.toInput.report (.statementKeyword word) s₁.head.position) :=
      .reject rfl fun h => by simp [hk] at h
    exact .single (hs ▸ hr)
termination_by 4 * n + 2

theorem ends_block (n : Nat) (s : Cursor n) :
    (block n position).Ends s (Walks s.toInput) fun _ => Walks s.toInput := by
  rw [block]
  refine .bind (P := fun _ => Walks s.toInput) (.lift (walks_statementList n s)) fun _ s₁ h₁ => ?_
  refine (goes_expectKind (by simp) (by simp)).then (kept_walks _) h₁ fun _ s₂ h₂ _ => ?_
  exact goes_freshId.then (kept_walks _) (h₁.trans (Treads.walks h₂)) fun _ s₃ h₃ _ =>
    .pure ((h₁.trans (Treads.walks h₂)).trans (Treads.walks h₃))
termination_by 4 * n + 2

theorem walks_statementList (n : Nat) (s : Cursor n) :
    Walks s.toInput (statementList n s).2.toInput := by
  match n with
  | 0     =>
    rw [statementList]
    exact .refl
  | n + 1 =>
    rw [statementList]
    dsimp only
    split
    case isTrue  => exact .refl
    case isFalse =>
      exact (strides_statement (n + 1) s).walks.trans (walks_statementList n _)
termination_by 4 * n + 1

end

end MiniJava.Reading
