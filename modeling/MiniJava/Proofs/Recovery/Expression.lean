import MiniJava.Proofs.Recovery.Tread

namespace MiniJava.Reading

theorem treads_skipExpression (s : Cursor n) : Treads s.toInput (skipExpression s).toInput :=
  s.treads_skipUntil rfl

theorem treads_skipTerm (s : Cursor n) : Treads s.toInput (skipTerm s).toInput :=
  s.treads_skipUntil rfl

-- Unless an expression is missing, it stands at a token between `s` and `s'`.
structure Placed (s : Input) (e : Expression) (s' : Input) : Prop where
  passes : Passes s s'
  placed : (∀ p, e ≠ .malformed p) → Spans [e.position] s s'

namespace Placed

variable {s s₁ s' : Input}

theorem before (h : Passes s s₁) (hp : Placed s₁ e s') : Placed s e s' :=
  ⟨h.trans hp.passes, fun he => .before h (hp.placed he)⟩

theorem through (hp : Placed s e s₁) (h : Passes s₁ s') : Placed s e s' :=
  ⟨hp.passes.trans h, fun he => (hp.placed he).through h⟩

theorem missing (h : Passes s s') : Placed s (.malformed p) s' :=
  ⟨h, fun he => absurd rfl (he p)⟩

theorem next {s : Cursor n} (hk : s.head.kind ≠ .endOfInput) (he : e.position = s.head.position) :
    Placed s.toInput e s.next.2.toInput :=
  ⟨s.passes_next, fun _ => he ▸ Cursor.spans_next (Cursor.tokens_ne_nil hk)⟩

end Placed

open Attempt

theorem Attempt.goes_noTerm {s : Cursor n} {Q : α → Input → Prop} :
    (noTerm s.head : Attempt n α).Goes s Q := by
  unfold noTerm
  split
  case h_1 => exact Ends.giveUp (.single (.refuse rfl))
  case h_2 => exact Ends.giveUp (.single (.refuse rfl))

mutual

theorem goes_expression (n : Nat) (s : Cursor n) :
    (expression n).Goes s (Placed s.toInput) := by
  rw [expression]
  exact (goes_chain n BinaryOperator.levels s).close fun s' h =>
    have ht := h.trans (treads_skipExpression s')
    ⟨ht, .missing (Treads.passes ht)⟩
termination_by 16 * n + 11
decreasing_by simp only [BinaryOperator.levels]; omega

theorem goes_chain (n k : Nat) (s : Cursor n) :
    (chain n k).Goes s (Placed s.toInput) := by
  match n, k with
  | n, 0     =>
    rw [chain]
    exact goes_unary n s
  | n, k + 1 =>
    rw [chain]
    exact (goes_chain n k s).bind fun left s₁ _ hl => goes_chainRest n k left s₁ hl
termination_by 16 * n + 4 + k

theorem goes_chainRest (n k : Nat) (left : Expression) (s : Cursor n)
    (hl : Placed s₀ left s.toInput) : (chainRest n k left).Goes s (Placed s₀) := by
  match n with
  | 0     =>
    rw [chainRest]
    exact .pure hl
  | n + 1 =>
    rw [chainRest, goes_head_bind]
    split
    case h_1 => exact .pure hl
    case h_2 op ho =>
      have hk : s.head.kind = .operator op := (operatorAbove?_eq_some_iff.mp ho).1
      refine .attemptAfter (by simp [hk]) ((goes_chain n k _).bind fun right s₁ h₁ _ => ?_)
      refine goes_freshId.bind fun i s₂ h₂ _ => goes_chainRest n k _ s₂ ?_
      exact .before hl.passes ((Placed.next (by simp [hk]) rfl).through (h₁.trans h₂))
termination_by 16 * n + k

theorem goes_unary (n : Nat) (s : Cursor n) :
    (unary n).Goes s (Placed s.toInput) := by
  match n with
  | 0     =>
    rw [unary]
    exact (goes_term 0 s).lift
  | n + 1 =>
    rw [unary, goes_isAt_bind]
    split
    case isTrue hk =>
      have hk : s.head.kind = .not := by simpa using hk
      refine .attemptAfter (by simp [hk]) ((goes_term n _).lift.bind fun operand s₁ h₁ _ => ?_)
      refine goes_freshId.bind fun i s₂ h₂ _ => .pure ?_
      exact (Placed.next (by simp [hk]) rfl).through (h₁.trans h₂)
    case isFalse => exact (goes_term (n + 1) s).lift
termination_by 16 * n + 3

theorem goes_term (n : Nat) (s : Cursor n) :
    (term n).Goes s (Placed s.toInput) := by
  rw [term]
  exact (goes_termBody n s).close fun s' h =>
    have ht := h.trans (treads_skipTerm s')
    ⟨ht, .missing (Treads.passes ht)⟩
termination_by 16 * n + 2

theorem goes_termBody (n : Nat) (s : Cursor n) :
    (termBody n).Goes s (Placed s.toInput) := by
  match n with
  | 0     =>
    rw [termBody, goes_head_bind]
    exact goes_noTerm
  | n + 1 =>
    rw [termBody, goes_head_bind]
    split <;> rename_i hk
    case h_1 =>
      refine .attemptAfter (by simp [hk]) ?_
      refine (goes_creation n _ s.passes_next ?spans).bind fun e s₁ _ he => ?termTail
      case spans => exact Cursor.spans_next (Cursor.tokens_ne_nil (by simp [hk]))
      case termTail => exact goes_termTail n e s₁ he
    case h_7 =>
      refine .attemptAfter (by simp [hk]) ((goes_expression n _).lift.bind fun e s₁ _ he => ?_)
      refine (goes_expectKind (by simp) (by simp)).bind fun _ s₂ h₂ _ => ?_
      exact goes_termTail n e s₂ ((he.before s.passes_next).through h₂)
    case h_8 => exact .attemptAfter (by simp [hk]) (Ends.reported .refl)
    case h_9 => exact goes_noTerm
    all_goals
      refine .attemptAfter (by simp [hk]) (goes_freshId.bind fun i s₁ h₁ _ => ?_)
      exact goes_termTail n _ s₁ ((Placed.next (by simp [hk]) rfl).through h₁)
termination_by 16 * n + 1

theorem goes_termTail (n : Nat) (inner : Expression) (s : Cursor n)
    (hi : Placed s₀ inner s.toInput) : (termTail n inner).Goes s (Placed s₀) := by
  match n with
  | 0     =>
    rw [termTail]
    exact .pure hi
  | n + 1 =>
    rw [termTail, goes_head_bind]
    split <;> rename_i hk
    case h_1 =>
      refine .attemptAfter (by simp [hk]) ((goes_expression n _).lift.bind fun index s₁ h₁ _ => ?_)
      refine (goes_expectKind (by simp) (by simp)).bind fun _ s₂ h₂ _ => ?_
      refine goes_freshId.bind fun i s₃ h₃ _ => goes_termTail n _ s₃ ?_
      exact .before hi.passes ((Placed.next (by simp [hk]) rfl).through ((h₁.trans h₂).trans h₃))
    case h_2 =>
      refine .attemptAfter (by simp [hk]) ((goes_invocation n inner _).bind fun e s₁ _ he => ?_)
      exact goes_termTail n e s₁ (.before (hi.passes.trans s.passes_next) he)
    case h_3 => exact .pure hi
termination_by 16 * n

theorem goes_invocation (n : Nat) (receiver : Expression) (s : Cursor n) :
    (invocation n receiver).Goes s (Placed s.toInput) := by
  rw [invocation, goes_head_bind]
  split
  case h_1 =>
    refine (goes_expectKind (by simp) (by simp)).bind fun p s₁ h₁ hp => ?_
    exact goes_freshId.bind fun i s₂ h₂ _ => .pure ⟨h₁.trans h₂, fun _ => hp.through h₂⟩
  case h_2 =>
    refine (goes_expect rfl rfl).bind fun ⟨name, p⟩ s₁ h₁ hp => ?_
    refine (goes_expectKind (by simp) (by simp)).bind fun _ s₂ h₂ _ => ?_
    have hc (arguments : List Expression) (s₃ : Cursor n) (h₃ : Passes s₂.toInput s₃.toInput) :
        Goes (do
          let _ ← expectKind .rightParen
          return .call (← freshId) receiver name arguments p) s₃ (Placed s.toInput) := by
      refine (goes_expectKind (by simp) (by simp)).bind fun _ s₄ h₄ _ => ?_
      refine goes_freshId.bind fun i s₅ h₅ _ => .pure ?_
      have h := (h₂.trans h₃).trans (h₄.trans h₅)
      exact ⟨h₁.trans h, fun _ => hp.through h⟩
    rw [goes_isAt_bind]
    split
    case isTrue  => exact hc [] s₂ .refl
    case isFalse =>
      exact (goes_argumentList n s₂).bind fun arguments s₃ h₃ _ => hc arguments s₃ h₃
termination_by 16 * n + 13

theorem goes_argumentList (n : Nat) (s : Cursor n) :
    (argumentList n).Goes s fun _ _ => True := by
  match n with
  | 0     =>
    rw [argumentList]
    refine (goes_expression 0 s).lift.bind fun e s₁ _ _ => ?_
    exact (goes_expectKind (by simp) (by simp)).bind fun _ s₂ _ _ => .pure trivial
  | n + 1 =>
    rw [argumentList]
    refine (goes_expression (n + 1) s).lift.bind fun e s₁ _ _ => ?_
    rw [goes_isAt_bind]
    split
    case isTrue  => exact .pure trivial
    case isFalse =>
      exact .attemptAfterKind (by simp) fun s₂ _ =>
        (goes_argumentList n s₂).bind fun es s₃ _ _ => .pure trivial
termination_by 16 * n + 12

theorem goes_creation (n : Nat) (s : Cursor n) (h₀ : Passes s₀ s.toInput)
    (hp : Spans [position] s₀ s.toInput) : (creation n position).Goes s (Placed s₀) := by
  rw [creation]
  refine (goes_expect rfl rfl).bind fun ⟨⟨name, builtin⟩, p⟩ s₁ h₁ _ => ?_
  rw [goes_isAt_bind]
  split
  case isTrue  =>
    refine (goes_expectKind (by simp) (by simp)).bind fun _ s₂ h₂ _ => ?_
    refine (goes_expression n s₂).lift.bind fun size s₃ h₃ _ => ?_
    refine (goes_expectKind (by simp) (by simp)).bind fun _ s₄ h₄ _ => ?_
    refine goes_freshId.bind fun i s₅ h₅ _ => .pure ?_
    have h := ((h₁.trans h₂).trans (h₃.trans h₄)).trans h₅
    exact ⟨h₀.trans h, fun _ => hp.through h⟩
  case isFalse =>
    refine (goes_expectKind (by simp) (by simp)).bind fun _ s₂ h₂ _ => ?_
    refine (goes_expectKind (by simp) (by simp)).bind fun _ s₃ h₃ _ => ?_
    refine goes_freshId.bind fun i s₄ h₄ _ => .pure ?_
    have h := (h₁.trans h₂).trans (h₃.trans h₄)
    exact ⟨h₀.trans h, fun _ => hp.through h⟩
termination_by 16 * n + 12

end

end MiniJava.Reading
