import MiniJava.Proofs.Prefix.Tracking
import MiniJava.Proofs.Reading.Expression

namespace MiniJava

def Expression.isCall : Expression → Bool
  | .call .. => true
  | _        => false

namespace Prefix

open Reading

def Verdict.ofStart (start : Option (List Goal)) (goals : List Goal) : Verdict :=
  match start with
  | some new => .goes (new ++ goals)
  | none     => .stuck

theorem Verdict.ofStart_map_append :
    ofStart (start.map (· ++ new)) goals = ofStart start (new ++ goals) := by
  cases start <;> simp [ofStart]

namespace State

variable {K : List Goal}

theorem step_of_ofStart (h : g.react f kind = .ofStart start) :
    step ⟨f, g :: K⟩ kind = .ofStart start K := by
  cases start <;> simp [step, verdict, h, Reaction.ofStart, Verdict.ofStart]

theorem step_expression :
    step ⟨f, .expression :: K⟩ kind =
      .ofStart (unaryStart kind) (.operators (kind = .not) 0 :: K) := by
  rw [step_of_ofStart rfl, expressionStart, Verdict.ofStart_map_append]
  rfl

theorem step_unary : step ⟨f, .unary :: K⟩ kind = .ofStart (unaryStart kind) K :=
  step_of_ofStart rfl

theorem step_term : step ⟨f, .term :: K⟩ kind = .ofStart (termStart kind) K :=
  step_of_ofStart rfl

theorem step_tail (hb : kind ≠ .leftBracket) (hd : kind ≠ .dot) :
    step ⟨f, .tail c :: K⟩ kind = step ⟨c, K⟩ kind := by
  cases kind <;> simp_all [step, verdict, Goal.react]

theorem step_close :
    step ⟨f, .close :: K⟩ kind = step ⟨false, .exact .rightParen :: .tail f :: K⟩ kind := by
  by_cases hk : kind = .rightParen <;> simp [step, verdict, Goal.react, hk]

theorem step_selector_keyword :
    step ⟨f, .selector :: K⟩ (.keyword word) =
      step ⟨false, .exact (.keyword .lengthWord) :: .tail true :: K⟩ (.keyword word) := by
  cases word <;> rfl

theorem step_selector (hk : ∀ word, kind ≠ .keyword word) :
    step ⟨f, .selector :: K⟩ kind =
      step ⟨false, .identifier :: .exact .leftParen :: .arguments :: .tail true :: K⟩ kind := by
  cases kind <;> first | rfl | exact absurd rfl (hk _)

theorem step_arguments (hk : kind ≠ .rightParen) :
    step ⟨f, .arguments :: K⟩ kind = step ⟨false, .expression :: .moreArguments :: K⟩ kind := by
  have hr : Goal.react f kind .arguments =
      .ofStart ((expressionStart kind).map (· ++ [.moreArguments])) := if_neg hk
  rw [step_of_ofStart hr, step_of_ofStart rfl, Verdict.ofStart_map_append]
  rfl

theorem step_moreArguments (hk : kind ≠ .rightParen) :
    step ⟨f, .moreArguments :: K⟩ kind =
      step ⟨false, .exact .comma :: .expression :: .moreArguments :: K⟩ kind := by
  cases kind <;> first | rfl | exact absurd rfl hk

theorem step_creationEnd (hk : kind ≠ .leftParen) :
    step ⟨f, .creationEnd :: K⟩ kind =
      step ⟨false, .exact .leftBracket :: .expression :: .exact .rightBracket :: .tail false :: K⟩
        kind := by
  cases kind <;> first | rfl | exact absurd rfl hk

-- A negation or an operation is no call, whatever its last operand is.
theorem step_operators :
    step ⟨c, .operators b k :: K⟩ kind = step ⟨c && !b, .operators false k :: K⟩ kind := by
  cases kind <;> simp [step, verdict, Goal.react]

theorem step_operators_true :
    step ⟨c, .operators true k :: K⟩ kind = step ⟨false, .operators false k :: K⟩ kind := by
  rw [step_operators, Bool.not_true, Bool.and_false]

-- The level above the `k` tightest comes to its end.
theorem step_operators_succ (hk : operatorAbove? k kind = none) :
    step ⟨c, .operators false k :: K⟩ kind = step ⟨c, .operators false (k + 1) :: K⟩ kind := by
  cases kind with
  | operator op =>
    have hk : op.precedence + k ≠ BinaryOperator.levels := by simpa [operatorAbove?] using hk
    have hl : op.precedence + k ≤ BinaryOperator.levels ↔
        op.precedence + (k + 1) ≤ BinaryOperator.levels := by omega
    simp only [step, verdict, Goal.react, hl]
  | _           => rfl

theorem step_operators_levels :
    step ⟨c, .operators false BinaryOperator.levels :: K⟩ kind = step ⟨c, K⟩ kind := by
  cases kind with
  | operator op =>
    have hl : ¬ op.precedence + BinaryOperator.levels ≤ BinaryOperator.levels := by
      have := op.precedence_pos
      omega
    simp [step, verdict, Goal.react, hl]
  | _           => simp [step, verdict, Goal.react]

theorem step_operators_operator (hk : operatorAbove? k kind = some op) :
    step ⟨c, .operators b k :: K⟩ kind = .goes (.unary :: .operators true 0 :: K) := by
  obtain ⟨rfl, hm⟩ := operatorAbove?_eq_some_iff.mp hk
  simp [step, verdict, Goal.react, (Grammar.mem_tier.mp hm).le]

-- An operand has to follow. `b` tells whether an operator or a negation stands before it.
def StartsOperand (σ : State) (b : Bool) (K : List Goal) : Prop :=
  ∀ kind, σ.step kind = .ofStart (unaryStart kind) (.operators (b || kind = .not) 0 :: K)

theorem startsOperand_expression : StartsOperand ⟨f, .expression :: K⟩ false K :=
  fun _ => step_expression

theorem startsOperand_unary : StartsOperand ⟨f, .unary :: .operators true 0 :: K⟩ true K :=
  fun _ => step_unary

end State

end Prefix

namespace Reading

open Prefix Attempt

theorem Cursor.kind_head_of_zero (s : Cursor 0) : s.head.kind = .endOfInput := by
  have hs : s.tokens = [] := List.length_eq_zero_iff.mp (Nat.le_zero.mp s.fits)
  simp [head, hs]

theorem Attempt.Tracks.noTerm {s : Cursor n} (hr : σ.step s.head.kind = .stuck) :
    (noTerm s.head : Attempt n α).Tracks σ s.toInput s out := by
  unfold Reading.noTerm
  split <;> exact .giveUp .refl (fun _ => rfl) hr (by simp)

mutual

theorem tracks_expression (n : Nat) (s : Cursor n) :
    (expression n).Tracks ⟨f, .expression :: K⟩ s fun e => ⟨e.isCall, K⟩ := by
  rw [expression]
  refine Tracks.close ?_ passes_skipExpression
  have hl := tracks_chain n BinaryOperator.levels s (State.startsOperand_expression (f := f) (K := K))
  refine hl.last fun e s' => ?_
  rw [Bool.not_false, Bool.and_true]
  exact State.step_operators_levels
termination_by 16 * n + 11
decreasing_by all_goals simp only [BinaryOperator.levels]; omega

theorem tracks_chain (n k : Nat) (s : Cursor n) (hσ : σ.StartsOperand b K) :
    (chain n k).Tracks σ s.toInput s fun e => ⟨e.isCall && !b, .operators false k :: K⟩ := by
  match k with
  | 0     =>
    rw [chain]
    exact tracks_unary n s hσ
  | k + 1 =>
    rw [chain]
    exact (tracks_chain n k s hσ).bind fun left s₁ => tracks_chainRest n k left s₁
termination_by 16 * n + 4 + k

theorem tracks_chainRest (n k : Nat) (left : Expression) (s : Cursor n) :
    (chainRest n k left).Tracks ⟨left.isCall && !b, .operators false k :: K⟩ s.toInput s
      fun e => ⟨e.isCall && !b, .operators false (k + 1) :: K⟩ := by
  match n with
  | 0     =>
    rw [chainRest]
    refine .pure ⟨State.step_operators_succ ?_, State.opens_of_step (State.step_operators_succ rfl)⟩
    rw [s.kind_head_of_zero]
    rfl
  | n + 1 =>
    rw [chainRest, tracks_head_bind]
    split
    case h_1 hk    =>
      exact .pure ⟨State.step_operators_succ hk, State.opens_of_step (State.step_operators_succ rfl)⟩
    case h_2 op hk =>
      have ho := (operatorAbove?_eq_some_iff.mp hk).1
      rw [tracks_attemptAfter]
      refine .taken ?_ ho (State.step_operators_operator (ho ▸ hk)) (by simp) rfl
      refine (tracks_chain n k _ State.startsOperand_unary).bind fun right s₁ => ?_
      refine .bind .freshId fun i s₂ => ?_
      rw [Bool.not_true, Bool.and_false]
      exact tracks_chainRest n k (.binary i op left right s.head.position) s₂
termination_by 16 * n + k

theorem tracks_unary (n : Nat) (s : Cursor n) (hσ : σ.StartsOperand b K) :
    (unary n).Tracks σ s.toInput s fun e => ⟨e.isCall && !b, .operators false 0 :: K⟩ := by
  have ht (hk : s.head.kind ≠ .not) :
      Attempt.Tracks (liftM (term n)) σ s.toInput s fun e => ⟨e.isCall && !b, .operators false 0 :: K⟩ := by
    have hs : σ.step s.head.kind = State.step ⟨false, .term :: .operators b 0 :: K⟩ s.head.kind := by
      have hu : unaryStart s.head.kind = termStart s.head.kind := by
        unfold unaryStart
        split <;> simp_all
      rw [hσ, State.step_term, hu, decide_eq_false hk, Bool.or_false]
    exact ((tracks_term n s).lift.start (.of_step hs rfl)).last fun e s' => State.step_operators
  match n with
  | 0     =>
    rw [unary]
    exact ht (by simp [s.kind_head_of_zero])
  | n + 1 =>
    rw [unary, tracks_isAt_bind]
    split
    case isTrue hk  =>
      have hk : s.head.kind = .not := by simpa using hk
      have hg : σ.step .not = .goes (.term :: .operators true 0 :: K) := by
        simp [hσ .not, unaryStart, Verdict.ofStart]
      rw [tracks_attemptAfter]
      refine .taken ?_ hk hg (by simp) rfl
      refine (tracks_term n _).lift.bind fun operand s₁ => .bind .freshId fun i s₂ => ?_
      exact .pure ⟨State.step_operators_true, State.opens_of_step State.step_operators_true⟩
    case isFalse hk => exact ht (by simpa using hk)
termination_by 16 * n + 3

theorem tracks_term (n : Nat) (s : Cursor n) :
    (term n).Tracks ⟨f, .term :: K⟩ s fun e => ⟨e.isCall, K⟩ := by
  rw [term]
  exact (tracks_termBody n s).close passes_skipTerm
termination_by 16 * n + 2

theorem tracks_termBody (n : Nat) (s : Cursor n) :
    (termBody n).Tracks ⟨f, .term :: K⟩ s.toInput s fun e => ⟨e.isCall, K⟩ := by
  match n with
  | 0     =>
    rw [termBody, tracks_head_bind]
    exact .noTerm (by rw [s.kind_head_of_zero]; rfl)
  | n + 1 =>
    rw [termBody, tracks_head_bind]
    split <;> rename_i hk
    case h_1 =>
      rw [tracks_attemptAfter]
      refine .taken ?_ hk rfl (by simp) rfl
      exact (tracks_creation n _).bind fun e s₁ => tracks_termTail n e s₁
    case h_7 =>
      rw [tracks_attemptAfter]
      refine .taken ?_ hk rfl (by simp) rfl
      refine (tracks_expression n _).lift.bind fun e s₁ => ?_
      refine .bind (.start (.expectKind (by simp)) (.of_step State.step_close rfl)) fun _ s₂ => ?_
      exact tracks_termTail n e s₂
    case h_8 =>
      rw [tracks_attemptAfter]
      intro hc
      have := hc.defect?_head
      simp [hk, TokenKind.defect?] at this
    case h_9 =>
      have hs : termStart s.head.kind = none := by
        unfold termStart
        split <;> simp_all
      exact .noTerm (by rw [State.step_term, hs]; rfl)
    all_goals
      rw [tracks_attemptAfter]
      refine .taken ?_ hk rfl (by simp) rfl
      exact .bind .freshId fun i s₁ => tracks_termTail n _ s₁
termination_by 16 * n + 1

theorem tracks_termTail (n : Nat) (inner : Expression) (s : Cursor n) :
    (termTail n inner).Tracks ⟨f, .tail inner.isCall :: K⟩ s.toInput s fun e => ⟨e.isCall, K⟩ := by
  match n with
  | 0     =>
    rw [termTail]
    refine .pure ⟨?_, id⟩
    rw [s.kind_head_of_zero]
    rfl
  | n + 1 =>
    rw [termTail, tracks_head_bind]
    split
    case h_1 hk =>
      rw [tracks_attemptAfter]
      refine .taken ?_ hk rfl (by simp) rfl
      refine (tracks_expression n _).lift.bind fun index s₁ => ?_
      refine .bind (.expectKind (by simp)) fun _ s₂ => ?_
      exact .bind .freshId fun i s₃ => tracks_termTail n (.index i inner index _) s₃
    case h_2 hk =>
      rw [tracks_attemptAfter]
      refine .taken ?_ hk rfl (by simp) rfl
      exact (tracks_invocation n inner _).bind fun e s₁ => tracks_termTail n e s₁
    case h_3 hb hd => exact .pure ⟨State.step_tail hb hd, id⟩
termination_by 16 * n

theorem tracks_invocation (n : Nat) (receiver : Expression) (s : Cursor n) :
    (invocation n receiver).Tracks ⟨f, .selector :: K⟩ s.toInput s
      fun e => ⟨false, .tail e.isCall :: K⟩ := by
  rw [invocation, tracks_head_bind]
  split
  case h_1 word hk =>
    have hs : State.step ⟨f, .selector :: K⟩ s.head.kind = _ := hk ▸ State.step_selector_keyword
    refine .bind (.start (.expectKind (by simp)) (.of_step hs rfl)) fun p s₁ => ?_
    exact .bind .freshId fun i s₂ => .pure (.refl _)
  case h_2 hk      =>
    refine .bind (.start .expectIdentifier (.of_step (State.step_selector hk) rfl)) ?_
    rintro ⟨name, p⟩ s₁
    refine .bind (.expectKind (by simp)) fun _ s₂ => ?_
    have hc (arguments : List Expression) (s₃ : Cursor n) :
        Attempt.Tracks (do
          let _ ← expectKind .rightParen
          return .call (← freshId) receiver name arguments p : Attempt n Expression)
          ⟨false, .exact .rightParen :: .tail true :: K⟩ s₃.toInput s₃
          fun e => ⟨false, .tail e.isCall :: K⟩ :=
      .bind (.expectKind (by simp)) fun _ s₄ => .bind .freshId fun i s₅ => .pure (.refl _)
    rw [tracks_isAt_bind]
    split
    case isTrue hk  =>
      have hk : s₂.head.kind = .rightParen := by simpa using hk
      exact .start (hc [] s₂) (.of_step (by rw [hk]; rfl) rfl)
    case isFalse hk =>
      have hs := State.step_arguments (f := false) (K := .tail true :: K) (by simpa using hk)
      exact .start (.bind (tracks_argumentList n s₂) hc) (.of_step hs rfl)
termination_by 16 * n + 13

theorem tracks_argumentList (n : Nat) (s : Cursor n) :
    (argumentList n).Tracks ⟨f, .expression :: .moreArguments :: K⟩ s.toInput s
      fun _ => ⟨false, .exact .rightParen :: K⟩ := by
  match n with
  | 0     =>
    rw [argumentList]
    refine (tracks_expression 0 s).lift.bind fun e s₁ => ?_
    have hs : State.step ⟨e.isCall, .moreArguments :: K⟩ s₁.head.kind =
        State.step ⟨false, .exact .comma :: .exact .rightParen :: K⟩ s₁.head.kind := by
      rw [s₁.kind_head_of_zero]
      rfl
    exact .bind (.start (.expectKind (by simp)) (.of_step hs rfl)) fun _ s₂ => .pure (.refl _)
  | n + 1 =>
    rw [argumentList]
    refine (tracks_expression (n + 1) s).lift.bind fun e s₁ => ?_
    rw [tracks_isAt_bind]
    split
    case isTrue hk  =>
      have hk : s₁.head.kind = .rightParen := by simpa using hk
      exact .pure (.of_step (by rw [hk]; rfl) rfl)
    case isFalse hk =>
      rw [tracks_attemptAfter]
      have hs := State.step_moreArguments (f := e.isCall) (K := K) (by simpa using hk)
      refine .bind (.acceptKind rfl hs (by simp)) fun _ s₂ => ?_
      exact (tracks_argumentList n s₂).bind fun es s₃ => .pure (.refl _)
termination_by 16 * n + 12

theorem tracks_creation (n : Nat) (s : Cursor n) :
    (creation n position).Tracks ⟨f, .creation :: K⟩ s.toInput s
      fun e => ⟨false, .tail e.isCall :: K⟩ := by
  rw [creation]
  refine .bind (.expectType (G := fun a => if a.2
    then .exact .leftBracket :: .expression :: .exact .rightBracket :: .tail false :: K
    else .creationEnd :: K) ?typeName) ?rest
  case typeName =>
    rcases h : typeName? s.head.kind with _ | ⟨name, _ | _⟩ <;>
      simp [State.step, State.verdict, Goal.react, h]
  case rest =>
    rintro ⟨⟨name, builtin⟩, p⟩ s₁
    have hr : Attempt.Tracks (do
        let _ ← expectKind .leftBracket
        let size ← expression n
        let _ ← expectKind .rightBracket
        return .newArray (← freshId) name size position : Attempt n Expression)
        ⟨false, .exact .leftBracket :: .expression :: .exact .rightBracket :: .tail false :: K⟩
        s₁.toInput s₁ fun e => ⟨false, .tail e.isCall :: K⟩ := by
      refine .bind (.expectKind (by simp)) fun _ s₂ => ?_
      refine (tracks_expression n s₂).lift.bind fun size s₃ => ?_
      refine .bind (.expectKind (by simp)) fun _ s₄ => ?_
      exact .bind .freshId fun i s₅ => .pure (.refl _)
    rw [tracks_isAt_bind]
    split
    case isTrue hb  =>
      cases builtin with
      | true  => exact hr
      | false => exact hr.start (.of_step (State.step_creationEnd (by simpa using hb)) rfl)
    case isFalse hb =>
      obtain ⟨rfl, hk⟩ : builtin = false ∧ s₁.head.kind = .leftParen := by simpa using hb
      have hs : State.step ⟨false, .creationEnd :: K⟩ s₁.head.kind =
          State.step ⟨false, .exact .leftParen :: .exact .rightParen :: .tail false :: K⟩
            s₁.head.kind := by
        rw [hk]
        rfl
      refine .bind (.start (.expectKind (by simp)) (.of_step hs rfl)) fun _ s₂ => .bind (.expectKind (by simp)) fun _ s₃ => ?_
      exact .bind .freshId fun i s₄ => .pure (.refl _)
termination_by 16 * n + 12

end

end Reading

end MiniJava
