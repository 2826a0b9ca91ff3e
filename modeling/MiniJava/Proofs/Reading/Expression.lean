import MiniJava.Proofs.Grammar.Basic
import MiniJava.Proofs.Reading.Built
import MiniJava.Tree.ReadExpression

namespace MiniJava.Reading

open Grammar

theorem passes_skipExpression (s : Cursor n) : Passes s.toInput (skipExpression s).toInput :=
  s.passes_skipUntil _

theorem passes_skipTerm (s : Cursor n) : Passes s.toInput (skipTerm s).toInput :=
  s.passes_skipUntil _

theorem namesType_of_typeName? {t : Token} (h : typeName? t.kind = some (name, builtin)) :
    NamesType t name := by
  unfold typeName? at h
  split at h <;> cases h
  case h_1 hk => exact .typeName hk
  case h_2 hk => exact .identifier hk

theorem namesClass_of_typeName? {t : Token} (h : typeName? t.kind = some (name, false)) :
    NamesClass t name := by
  unfold typeName? at h
  split at h <;> cases h
  case h_1 hk => exact .typeName hk
  case h_2 hk => exact .identifier hk

theorem operatorAbove?_eq_some_iff :
    operatorAbove? k kind = some op ↔ kind = .operator op ∧ op ∈ tier k := by
  rw [mem_tier]
  cases kind <;> simp [operatorAbove?]
  case operator op' => grind

theorem Attempt.Meets.noTerm {s : Cursor n} {Q : α → Input → Prop} :
    Meets base (noTerm t : Attempt n α) s Q := by
  unfold Reading.noTerm
  split <;> exact .giveUp

-- An expression between `s` and `s'`, of a kind `P` of the grammar.
abbrev BuildsExpression (P : List Token → Expression → List Token → Prop) (s : Input)
    (e : Expression) (s' : Input) : Prop :=
  Built e.nodeIds e.gaps (P s.tokens e s'.tokens) s s'

open Attempt

mutual

theorem meets_expression (n : Nat) (s : Cursor n) :
    (expression n).Meets s (BuildsExpression IsExpression s.toInput) := by
  rw [expression]
  exact (meets_chain n BinaryOperator.levels s).close passes_skipExpression (Nat.le_refl _)
    fun s' hp hs => .gap hp hs
termination_by 16 * n + 11
decreasing_by simp only [BinaryOperator.levels]; omega

theorem meets_chain (n k : Nat) (s : Cursor n) :
    (chain n k).Meets base s (BuildsExpression (IsLevel k) s.toInput) := by
  match k with
  | 0 =>
    rw [chain]
    exact meets_unary n s
  | k + 1 =>
    rw [chain]
    refine (meets_chain n k s).bind fun left s₁ _ hl => ?_
    exact meets_chainRest n k left s₁ (hl.node rfl rfl .tighter)
termination_by 16 * n + 4 + k

theorem meets_chainRest (n k : Nat) (left : Expression) (s : Cursor n)
    (hl : BuildsExpression (IsLevel (k + 1)) s₀ left s.toInput) :
    (chainRest n k left).Meets base s (BuildsExpression (IsLevel (k + 1)) s₀) := by
  match n with
  | 0 =>
    rw [chainRest]
    exact .pure hl
  | n + 1 =>
    rw [chainRest, meets_head_bind]
    split
    case h_1 => exact .pure hl
    case h_2 op ho =>
      have ⟨hk, hm⟩ := operatorAbove?_eq_some_iff.mp ho
      have ht := Cursor.takes_next (s := s) (by simp [hk])
      refine .attemptAfter fun _ => ?_
      refine (meets_chain n k _).bind fun right s₁ _ hr => ?_
      refine meets_freshId.bind fun i s₂ _ ⟨hi, hs₂⟩ => ?_
      refine meets_chainRest n k _ s₂ (((hl.trans ht).trans hr).trans hi
        |>.node (by simp [Expression.nodeIds]) (by simp [Expression.gaps]) ?_)
      rintro ⟨⟨⟨hl, ht⟩, hr⟩, -⟩
      exact .binary (ht ▸ hl) hk hm (hs₂ ▸ hr)
termination_by 16 * n + k

theorem meets_unary (n : Nat) (s : Cursor n) :
    (unary n).Meets base s (BuildsExpression (IsLevel 0) s.toInput) := by
  match n with
  | 0 =>
    rw [unary]
    exact (meets_term 0 s).lift.imp fun e s' he => he.node rfl rfl .term
  | n + 1 =>
    rw [unary, meets_isAt_bind]
    split
    case isTrue hk =>
      have hk : s.head.kind = .not := by simpa using hk
      have ht := Cursor.takes_next (s := s) (by simp [hk])
      refine .attemptAfter fun _ => ?_
      refine (meets_term n _).lift.bind fun operand s₁ _ ho => ?_
      refine meets_freshId.bind fun i s₂ _ ⟨hi, hs₂⟩ => .pure ?_
      refine (ht.trans ho).trans hi
        |>.node (by simp [Expression.nodeIds]) (by simp [Expression.gaps]) ?_
      rintro ⟨⟨ht, ho⟩, -⟩
      exact ht ▸ hs₂ ▸ .not hk ho
    case isFalse => exact (meets_term (n + 1) s).lift.imp fun e s' he => he.node rfl rfl .term
termination_by 16 * n + 3

theorem meets_term (n : Nat) (s : Cursor n) :
    (term n).Meets s (BuildsExpression IsTerm s.toInput) := by
  rw [term]
  exact (meets_termBody n s).close passes_skipTerm (Nat.le_refl _) fun s' hp hs => .gap hp hs
termination_by 16 * n + 2

theorem meets_termBody (n : Nat) (s : Cursor n) :
    (termBody n).Meets base s (BuildsExpression IsTerm s.toInput) := by
  match n with
  | 0 =>
    rw [termBody, meets_head_bind]
    exact .noTerm
  | n + 1 =>
    rw [termBody, meets_head_bind]
    have ht (hk : s.head.kind ≠ .endOfInput) := Cursor.takes_next hk
    split <;> rename_i hk
    case h_1 =>
      refine .attemptAfter fun _ => ?_
      refine (meets_creation n _ (ht (by simp [hk])) hk).bind fun e s₁ _ he => ?_
      exact meets_termTail n e s₁ he
    case h_2 =>
      refine .attemptAfter fun _ => meets_freshId.bind fun i s₁ _ ⟨hi, hs₁⟩ => ?_
      exact meets_termTail n _ s₁ <|
        (ht (by simp [hk])).trans hi |>.node rfl rfl fun ⟨ht, _⟩ => ht ▸ hs₁ ▸ .self hk
    case h_3 =>
      refine .attemptAfter fun _ => meets_freshId.bind fun i s₁ _ ⟨hi, hs₁⟩ => ?_
      exact meets_termTail n _ s₁ <|
        (ht (by simp [hk])).trans hi |>.node rfl rfl fun ⟨ht, _⟩ => ht ▸ hs₁ ▸ .yes hk
    case h_4 =>
      refine .attemptAfter fun _ => meets_freshId.bind fun i s₁ _ ⟨hi, hs₁⟩ => ?_
      exact meets_termTail n _ s₁ <|
        (ht (by simp [hk])).trans hi |>.node rfl rfl fun ⟨ht, _⟩ => ht ▸ hs₁ ▸ .no hk
    case h_5 =>
      refine .attemptAfter fun _ => meets_freshId.bind fun i s₁ _ ⟨hi, hs₁⟩ => ?_
      exact meets_termTail n _ s₁ <|
        (ht (by simp [hk])).trans hi |>.node rfl rfl fun ⟨ht, _⟩ => ht ▸ hs₁ ▸ .reference hk
    case h_6 =>
      refine .attemptAfter fun _ => meets_freshId.bind fun i s₁ _ ⟨hi, hs₁⟩ => ?_
      exact meets_termTail n _ s₁ <|
        (ht (by simp [hk])).trans hi |>.node rfl rfl fun ⟨ht, _⟩ => ht ▸ hs₁ ▸ .integer hk
    case h_7 =>
      refine .attemptAfter fun _ => (meets_expression n _).lift.bind fun e s₁ _ he => ?_
      refine (meets_expectKind).bind fun p s₂ _ ⟨u, hu, _, hu'⟩ => ?_
      refine meets_termTail n e s₂ <|
        ((ht (by simp [hk])).trans he).trans hu' |>.node (by simp) (by simp) ?_
      rintro ⟨⟨ht, he⟩, hu'⟩
      exact ht ▸ .parentheses hk (hu' ▸ he) hu
    case h_8 => exact .attemptAfter fun hd => .reported (hd (by simp [hk, TokenKind.defect?]))
    case h_9 => exact .noTerm
termination_by 16 * n + 1

theorem meets_termTail (n : Nat) (inner : Expression) (s : Cursor n)
    (hi : BuildsExpression IsTerm s₀ inner s.toInput) :
    (termTail n inner).Meets base s (BuildsExpression IsTerm s₀) := by
  match n with
  | 0 =>
    rw [termTail]
    exact .pure hi
  | n + 1 =>
    rw [termTail, meets_head_bind]
    have ht (hk : s.head.kind ≠ .endOfInput) := Cursor.takes_next hk
    split <;> rename_i hk
    case h_1 =>
      refine .attemptAfter fun _ => (meets_expression n _).lift.bind fun index s₁ _ hx => ?_
      refine (meets_expectKind).bind fun p s₂ _ ⟨u, hu, _, hu'⟩ => ?_
      refine meets_freshId.bind fun i s₃ _ ⟨hn, hs₃⟩ => ?_
      refine meets_termTail n _ s₃ <|
        (((hi.trans (ht (by simp [hk]))).trans hx).trans hu').trans hn
        |>.node (by simp [Expression.nodeIds]) (by simp [Expression.gaps]) ?_
      rintro ⟨⟨⟨⟨hi, ht⟩, hx⟩, hu'⟩, -⟩
      exact .index (ht ▸ hi) hk (hs₃ ▸ hu' ▸ hx) hu
    case h_2 =>
      refine .attemptAfter fun _ => ?_
      refine (meets_invocation n inner _ ?_).bind fun e s₁ _ he => meets_termTail n e s₁ he
      exact hi.trans (ht (by simp [hk])) |>.node (by simp) (by simp) fun ⟨hi, ht⟩ =>
        ⟨s.head, hk, ht ▸ hi⟩
    case h_3 => exact .pure hi
termination_by 16 * n

theorem meets_invocation (n : Nat) (receiver : Expression) (s : Cursor n)
    (hr : Built receiver.nodeIds receiver.gaps
      (∃ t, t.kind = .dot ∧ IsTerm s₀.tokens receiver (t :: s.tokens)) s₀ s.toInput) :
    (invocation n receiver).Meets base s (BuildsExpression IsTerm s₀) := by
  rw [invocation, meets_head_bind]
  split
  case h_1 =>
    refine (meets_expectKind).bind fun p s₁ _ ⟨u, hu, hp, hu'⟩ => ?_
    refine meets_freshId.bind fun i s₂ _ ⟨hi, hs₂⟩ => .pure ?_
    refine (hr.trans hu').trans hi
      |>.node (by simp [Expression.nodeIds, Expression.nodeIdsOf])
        (by simp [Expression.gaps, Expression.gapsOf]) ?_
    rintro ⟨⟨⟨t, ht, hr⟩, hu'⟩, -⟩
    exact hp ▸ .length (hs₂ ▸ hu' ▸ hr) ht hu
  case h_2 =>
    refine meets_expectIdentifier.bind fun ⟨name, p⟩ s₁ _ ⟨u, hu, hp, hu'⟩ => ?_
    obtain rfl : p = u.position := hp
    refine (meets_expectKind).bind fun _ s₂ _ ⟨v, hv, _, hv'⟩ => ?_
    have hc (arguments : List Expression) (s₃ : Cursor n)
        (ha : Built (Expression.nodeIdsOf arguments) (Expression.gapsOf arguments)
          (IsArguments s₂.tokens arguments s₃.tokens) s₂.toInput s₃.toInput) :
        Meets base (do
          let _ ← expectKind .rightParen
          return .call (← freshId) receiver name arguments u.position) s₃ (BuildsExpression IsTerm s₀) := by
      refine (meets_expectKind).bind fun _ s₄ _ ⟨w, hw, _, hw'⟩ => ?_
      refine meets_freshId.bind fun i s₅ _ ⟨hi, hs₅⟩ => .pure ?_
      refine ((((hr.trans hu').trans hv').trans ha).trans hw').trans hi
        |>.node (by simp [Expression.nodeIds]) (by simp [Expression.gaps]) ?_
      rintro ⟨⟨⟨⟨⟨⟨t, ht, hr⟩, hu'⟩, hv'⟩, ha⟩, hw'⟩, -⟩
      exact .call (hv' ▸ hu' ▸ hr) ht hu hv (hs₅ ▸ hw' ▸ ha) hw
    rw [meets_isAt_bind]
    split
    case isTrue  => exact hc [] s₂ <| .node (.refl _) rfl rfl fun _ => .none
    case isFalse =>
      refine (meets_argumentList n s₂).bind fun arguments s₃ _ ha => hc arguments s₃ ?_
      exact ha.node rfl rfl .some
termination_by 16 * n + 13

theorem meets_argumentList (n : Nat) (s : Cursor n) :
    (argumentList n).Meets base s fun es s' =>
      Built (Expression.nodeIdsOf es) (Expression.gapsOf es)
        (IsArgumentList s.tokens es s'.tokens) s.toInput s' := by
  match n with
  | 0 =>
    rw [argumentList]
    refine (meets_expression 0 s).lift.bind fun e s₁ _ he => ?_
    refine (meets_expectKind).bind fun _ s₂ _ ⟨t, _, _, ht⟩ => .pure ?_
    refine he.trans ht |>.node (by simp [Expression.nodeIdsOf]) (by simp [Expression.gapsOf]) ?_
    rintro ⟨-, ht⟩
    exact absurd s₁.fits (by simp [ht])
  | n + 1 =>
    rw [argumentList]
    refine (meets_expression (n + 1) s).lift.bind fun e s₁ _ he => ?_
    rw [meets_isAt_bind]
    split
    case isTrue =>
      exact .pure <| he.node (by simp [Expression.nodeIdsOf]) (by simp [Expression.gapsOf]) .one
    case isFalse =>
      refine .attemptAfter fun hd => ?_
      refine (meets_acceptKind rfl hd).bind fun _ s₂ _ ⟨hk, ht⟩ => ?_
      refine (meets_argumentList n s₂).bind fun es s₃ _ hes => .pure ?_
      refine (he.trans ht).trans hes
        |>.node (by simp [Expression.nodeIdsOf]) (by simp [Expression.gapsOf]) ?_
      exact fun ⟨⟨he, ht⟩, hes⟩ => .more (ht ▸ he) hk hes
termination_by 16 * n + 12

theorem meets_creation (n : Nat) (s : Cursor n) (ht : Takes s₀ t s.toInput)
    (hk : t.kind = .keyword .newWord) :
    (creation n t.position).Meets base s (BuildsExpression IsTerm s₀) := by
  rw [creation]
  refine meets_expectType.bind fun ⟨⟨name, builtin⟩, p⟩ s₁ _ ⟨u, hu, _, hu'⟩ => ?_
  rw [meets_isAt_bind]
  split
  case isTrue =>
    refine (meets_expectKind).bind fun _ s₂ _ ⟨v, hv, _, hv'⟩ => ?_
    refine (meets_expression n s₂).lift.bind fun size s₃ _ he => ?_
    refine (meets_expectKind).bind fun _ s₄ _ ⟨w, hw, _, hw'⟩ => ?_
    refine meets_freshId.bind fun i s₅ _ ⟨hi, hs₅⟩ => .pure ?_
    refine ((((ht.trans hu').trans hv').trans he).trans hw').trans hi
      |>.node (by simp [Expression.nodeIds]) (by simp [Expression.gaps]) ?_
    rintro ⟨⟨⟨⟨⟨ht, hu'⟩, hv'⟩, he⟩, hw'⟩, -⟩
    rw [ht, hu', hv', hs₅]
    exact .newArray hk (namesType_of_typeName? hu) hv (hw' ▸ he) hw
  case isFalse hb =>
    refine (meets_expectKind).bind fun _ s₂ _ ⟨v, hv, _, hv'⟩ => ?_
    refine (meets_expectKind).bind fun _ s₃ _ ⟨w, hw, _, hw'⟩ => ?_
    refine meets_freshId.bind fun i s₄ _ ⟨hi, hs₄⟩ => .pure ?_
    refine (((ht.trans hu').trans hv').trans hw').trans hi |>.node rfl rfl ?_
    rintro ⟨⟨⟨⟨ht, hu'⟩, hv'⟩, hw'⟩, -⟩
    obtain rfl : builtin = false := by simp_all
    rw [ht, hu', hv', hw', hs₄]
    exact .newObject hk (namesClass_of_typeName? hu) hv hw
termination_by 16 * n + 12

end

end MiniJava.Reading
