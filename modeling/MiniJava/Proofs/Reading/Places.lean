import MiniJava.Proofs.Reading.Program

namespace MiniJava

mutual

def Expression.places : Expression → List Position
  | .call _ receiver _ arguments p   => receiver.places ++ [p] ++ Expression.placesOf arguments
  | .newObject _ _ p                 => [p]
  | .newArray _ _ size p             => [p] ++ size.places
  | .not _ operand _                 => operand.places
  | .binary _ _ left right _         => left.places ++ right.places
  | .index _ array subscript _       => array.places ++ subscript.places
  | .reference _ _ p                 => [p]
  | .boolean .. | .integer .. | .self .. | .malformed _ => []

def Expression.placesOf : List Expression → List Position
  | []      => []
  | e :: es => e.places ++ Expression.placesOf es

end

mutual

def Statement.places : Statement → List Position
  | .declare d                             => [d.position]
  | .print _ e _ | .ret _ e _ | .assert _ e _ => e.places
  | .block _ body _                        => Statement.placesOf body
  | .assign _ target value _               => target.places ++ value.places
  | .ifThen _ e s _ | .loop _ e s _        => e.places ++ s.places
  | .ifThenElse _ e s s' _                 => e.places ++ s.places ++ s'.places
  | .call _ receiver _ arguments p         => receiver.places ++ [p] ++ Expression.placesOf arguments
  | .malformed _                           => []

def Statement.placesOf : List Statement → List Position
  | []      => []
  | s :: ss => s.places ++ Statement.placesOf ss

end

def Member.places : Member → List Position
  | field d     => [d.position]
  | method m    => [m.position] ++ m.parameters.map (·.position) ++ Statement.placesOf m.body
  | malformed _ => []

def ClassDeclaration.places (c : ClassDeclaration) : List Position :=
  [c.position] ++ c.members.flatMap Member.places

def MainClass.places (c : MainClass) : List Position :=
  Statement.placesOf c.body

def Program.places (p : Program) : List Position :=
  p.mainClass.toList.flatMap MainClass.places ++ p.classes.flatMap ClassDeclaration.places

namespace Reading

-- Between two inputs there are tokens at the places, in this order. A reader takes a token for each
-- name that is looked up later, so in a text no two of them stand at the same place, whatever is
-- wrong with it.
def Spans (ps : List Position) (s s' : Input) : Prop :=
  ∃ l, s.tokens = l ++ s'.tokens ∧ ps.Sublist (l.map (·.position))

namespace Spans

theorem none (h : Passes s s') : Spans [] s s' :=
  have ⟨l, hl⟩ := h.suffix
  ⟨l, hl.symm, List.nil_sublist _⟩

theorem trans (h₁ : Spans a s s₁) (h₂ : Spans b s₁ s₂) : Spans (a ++ b) s s₂ := by
  obtain ⟨l, hl, ha⟩ := h₁
  obtain ⟨m, hm, hb⟩ := h₂
  exact ⟨l ++ m, by rw [hl, hm, List.append_assoc], by simpa using ha.append hb⟩

theorem weaken (h : Spans a s s') (hb : b.Sublist a) : Spans b s s' :=
  have ⟨l, hl, ha⟩ := h
  ⟨l, hl, hb.trans ha⟩

theorem before (h : Passes s s₁) (h₁ : Spans a s₁ s₂) : Spans a s s₂ :=
  (none h).trans h₁

theorem through (h₁ : Spans a s s₁) (h : Passes s₁ s₂) : Spans a s s₂ := by
  simpa using h₁.trans (none h)

end Spans

theorem Cursor.spans_next {s : Cursor n} (h : s.tokens ≠ []) :
    Spans [s.head.position] s.toInput s.next.2.toInput := by
  obtain ⟨⟨_ | ⟨t, l⟩, stop, nextId, diagnostics⟩, fits⟩ := s
  case nil  => exact absurd rfl h
  case cons => exact ⟨[t], rfl, .refl _⟩

theorem Cursor.tokens_ne_nil {s : Cursor n} (h : s.head.kind ≠ .endOfInput) : s.tokens ≠ [] :=
  fun hl => h (by simp [head, hl])

namespace Attempt

variable {s : Cursor n}

theorem spans_expect {extract : TokenKind → Option α} (he : extract .endOfInput = none) :
    (expect expected extract).Meets base s fun a s' => Spans [a.2] s.toInput s' := by
  intro hb
  refine Meets.bind meets_take (fun t s' _ ht => ?_) hb
  obtain ⟨rfl, ht⟩ := ht
  refine Meets.bind (P := fun a s'' => extract s.head.kind = some a ∧ s'' = s'.toInput)
    (.acceptToken (fun hd => ?lt) fun a ha => ⟨ha, rfl⟩) fun a s'' _ ha => .pure ?accepted
  case lt => exact ht ▸ hb.trans_lt (Cursor.size_lt_next hd)
  case accepted =>
    obtain ⟨ha, hs⟩ := ha
    rw [hs, ht]
    exact Cursor.spans_next (Cursor.tokens_ne_nil fun hk => by simp [hk, he] at ha)

theorem passes_expectKind (hk : kind ≠ .endOfInput := by simp) :
    (expectKind kind).Meets base s fun _ _ => True :=
  (meets_expectKind hk).imp fun _ _ _ => trivial

theorem spans_expectKind (hk : kind ≠ .endOfInput := by simp) :
    (expectKind kind).Meets base s fun p s' => Spans [p] s.toInput s' :=
  (spans_expect (by simp [ofKind, hk.symm])).bind fun _ _ _ h => .pure h

-- What is recovered from leaves no places.
theorem spans_recover {body : Attempt n α} {sync : Cursor n → Cursor n} {f : α → List Position}
    (hs : ∀ s : Cursor n, Passes s.toInput (sync s).toInput) (hn : Spans [] s₀ s.toInput)
    (h : body.Meets base s fun a s' => Spans (f a) s₀ s') (hb : base ≤ s.diagnostics.size) :
    (Reading.recover sync body).Meets s fun o s' => Spans (o.toList.flatMap f) s₀ s' := by
  have hr := h.recover hs hb
  refine ⟨hr.passes, ?_⟩
  have hh := hr.holds
  split at hh <;> rename_i ho <;> rw [ho]
  case h_1 => simpa using hh
  case h_2 => exact hn.through hr.passes

end Attempt

open Attempt

-- The places of an expression between `s` and `s'`.
abbrev SpansExpression (s : Input) (e : Expression) (s' : Input) : Prop :=
  Spans e.places s s'

mutual

theorem spans_expression (n : Nat) (s : Cursor n) :
    (expression n).Meets s (SpansExpression s.toInput) := by
  rw [expression]
  exact (spans_chain n BinaryOperator.levels s).close passes_skipExpression (Nat.le_refl _)
    fun s' hp _ => .none hp
termination_by 16 * n + 11
decreasing_by simp only [BinaryOperator.levels]; omega

theorem spans_chain (n k : Nat) (s : Cursor n) :
    (chain n k).Meets base s (SpansExpression s.toInput) := by
  match n, k with
  | n, 0     =>
    rw [chain]
    exact spans_unary n s
  | n, k + 1 =>
    rw [chain]
    exact (spans_chain n k s).bind fun left s₁ _ hl => spans_chainRest n k left s₁ hl
termination_by 16 * n + 4 + k

theorem spans_chainRest (n k : Nat) (left : Expression) (s : Cursor n)
    (hl : SpansExpression s₀ left s.toInput) :
    (chainRest n k left).Meets base s (SpansExpression s₀) := by
  match n with
  | 0     =>
    rw [chainRest]
    exact .pure hl
  | n + 1 =>
    rw [chainRest, meets_head_bind]
    split
    case h_1 => exact .pure hl
    case h_2 =>
      refine .attemptAfter fun _ => ?_
      refine (spans_chain n k _).bind fun right s₁ _ hr => ?_
      refine meets_freshId.bind fun i s₂ hp _ => ?_
      exact spans_chainRest n k _ s₂ (((hl.through s.passes_next).trans hr).through hp)
termination_by 16 * n + k

theorem spans_unary (n : Nat) (s : Cursor n) :
    (unary n).Meets base s (SpansExpression s.toInput) := by
  match n with
  | 0     =>
    rw [unary]
    exact (spans_term 0 s).lift
  | n + 1 =>
    rw [unary, meets_isAt_bind]
    split
    case isTrue  =>
      refine .attemptAfter fun _ => ?_
      refine (spans_term n _).lift.bind fun operand s₁ _ ho => ?_
      exact meets_freshId.bind fun i s₂ hp _ => .pure ((Spans.before s.passes_next ho).through hp)
    case isFalse => exact (spans_term (n + 1) s).lift
termination_by 16 * n + 3

theorem spans_term (n : Nat) (s : Cursor n) :
    (term n).Meets s (SpansExpression s.toInput) := by
  rw [term]
  exact (spans_termBody n s).close passes_skipTerm (Nat.le_refl _) fun s' hp _ => .none hp
termination_by 16 * n + 2

theorem spans_termBody (n : Nat) (s : Cursor n) :
    (termBody n).Meets base s (SpansExpression s.toInput) := by
  match n with
  | 0     =>
    rw [termBody, meets_head_bind]
    exact .noTerm
  | n + 1 =>
    rw [termBody, meets_head_bind]
    have ht (hk : s.head.kind ≠ .endOfInput) := Cursor.spans_next (Cursor.tokens_ne_nil hk)
    have hn : Spans [] s.toInput s.next.2.toInput := .none s.passes_next
    split <;> rename_i hk
    case h_1 =>
      refine .attemptAfter fun _ => ?_
      refine (spans_creation n _ (ht (by simp [hk]))).bind fun e s₁ _ he => ?_
      exact spans_termTail n e s₁ he
    case h_5 =>
      refine .attemptAfter fun _ => meets_freshId.bind fun i s₁ hp _ => ?_
      exact spans_termTail n _ s₁ ((ht (by simp [hk])).through hp)
    case h_7 =>
      refine .attemptAfter fun _ => (spans_expression n _).lift.bind fun e s₁ _ he => ?_
      refine (passes_expectKind).bind fun p s₂ hp _ => ?_
      exact spans_termTail n e s₂ ((Spans.before s.passes_next he).through hp)
    case h_8 => exact .attemptAfter fun hd => .reported (hd (by simp [hk, TokenKind.defect?]))
    case h_9 => exact .noTerm
    all_goals
      refine .attemptAfter fun _ => meets_freshId.bind fun i s₁ hp _ => ?_
      exact spans_termTail n _ s₁ (hn.through hp)
termination_by 16 * n + 1

theorem spans_termTail (n : Nat) (inner : Expression) (s : Cursor n)
    (hi : SpansExpression s₀ inner s.toInput) :
    (termTail n inner).Meets base s (SpansExpression s₀) := by
  match n with
  | 0     =>
    rw [termTail]
    exact .pure hi
  | n + 1 =>
    rw [termTail, meets_head_bind]
    split
    case h_1 =>
      refine .attemptAfter fun _ => (spans_expression n _).lift.bind fun index s₁ _ hx => ?_
      refine (passes_expectKind).bind fun p s₂ hp _ => ?_
      refine meets_freshId.bind fun i s₃ hp' _ => ?_
      exact spans_termTail n _ s₃ (((hi.through s.passes_next).trans hx).through (hp.trans hp'))
    case h_2 =>
      refine .attemptAfter fun _ => ?_
      exact (spans_invocation n inner _ (hi.through s.passes_next)).bind fun e s₁ _ he =>
        spans_termTail n e s₁ he
    case h_3 => exact .pure hi
termination_by 16 * n

theorem spans_invocation (n : Nat) (receiver : Expression) (s : Cursor n)
    (hr : SpansExpression s₀ receiver s.toInput) :
    (invocation n receiver).Meets base s (SpansExpression s₀) := by
  rw [invocation, meets_head_bind]
  split
  case h_1 =>
    refine (spans_expectKind).bind fun p s₁ _ hp => ?_
    refine meets_freshId.bind fun i s₂ hi _ => .pure ?_
    exact ((hr.trans hp).trans (.none .refl)).through hi
  case h_2 =>
    refine (spans_expect rfl).bind fun ⟨name, p⟩ s₁ _ hu => ?_
    refine (passes_expectKind).bind fun _ s₂ hv _ => ?_
    have hc (arguments : List Expression) (s₃ : Cursor n)
        (ha : Spans (Expression.placesOf arguments) s₂.toInput s₃.toInput) :
        Meets base (do
          let _ ← expectKind .rightParen
          return .call (← freshId) receiver name arguments p) s₃ (SpansExpression s₀) := by
      refine (passes_expectKind).bind fun _ s₄ hw _ => ?_
      refine meets_freshId.bind fun i s₅ hi _ => .pure ?_
      exact (((hr.trans hu).through hv).trans ha).through (hw.trans hi)
    rw [meets_isAt_bind]
    split
    case isTrue  => exact hc [] s₂ (.none .refl)
    case isFalse =>
      exact (spans_argumentList n s₂).bind fun arguments s₃ _ ha => hc arguments s₃ ha
termination_by 16 * n + 13

theorem spans_argumentList (n : Nat) (s : Cursor n) :
    (argumentList n).Meets base s fun es s' => Spans (Expression.placesOf es) s.toInput s' := by
  match n with
  | 0     =>
    rw [argumentList]
    refine (spans_expression 0 s).lift.bind fun e s₁ _ he => ?_
    exact (passes_expectKind).bind fun _ s₂ hp _ => .pure (he.trans (.none hp))
  | n + 1 =>
    rw [argumentList]
    refine (spans_expression (n + 1) s).lift.bind fun e s₁ _ he => ?_
    rw [meets_isAt_bind]
    split
    case isTrue  => exact .pure (he.trans (.none .refl))
    case isFalse =>
      refine .attemptAfter fun hd => ?_
      refine (meets_acceptKind rfl hd).bind fun _ s₂ hp _ => ?_
      refine (spans_argumentList n s₂).bind fun es s₃ _ hes => .pure ?_
      exact (he.through (s₁.passes_next.trans hp)).trans hes
termination_by 16 * n + 12

theorem spans_creation (n : Nat) (s : Cursor n) (ht : Spans [position] s₀ s.toInput) :
    (creation n position).Meets base s (SpansExpression s₀) := by
  rw [creation]
  refine meets_expectType.bind fun ⟨⟨name, builtin⟩, p⟩ s₁ hu _ => ?_
  rw [meets_isAt_bind]
  split
  case isTrue  =>
    refine (passes_expectKind).bind fun _ s₂ hv _ => ?_
    refine (spans_expression n s₂).lift.bind fun size s₃ _ he => ?_
    refine (passes_expectKind).bind fun _ s₄ hw _ => ?_
    refine meets_freshId.bind fun i s₅ hi _ => .pure ?_
    exact ((ht.through (hu.trans hv)).trans he).through (hw.trans hi)
  case isFalse =>
    refine (passes_expectKind).bind fun _ s₂ hv _ => ?_
    refine (passes_expectKind).bind fun _ s₃ hw _ => ?_
    refine meets_freshId.bind fun i s₄ hi _ => .pure ?_
    exact ht.through ((hu.trans hv).trans (hw.trans hi))
termination_by 16 * n + 12

end

-- A declaration stands where its type does.
theorem Attempt.spans_variableAfter {s : Cursor n} (h : Spans [position] s₀ s.toInput) :
    (variableAfter storage type position).Meets base s fun d s' => Spans [d.position] s₀ s' :=
  meets_expectIdentifier.bind fun _ _ hp _ => meets_freshId.bind fun _ _ hi _ =>
    .pure (h.through (hp.trans hi))

theorem Attempt.passes_typeAfter {s : Cursor n} :
    (typeAfter name).Meets base s fun _ _ => True := by
  rw [typeAfter, meets_isAt_bind]
  split
  case isTrue  =>
    exact meets_take.bind fun _ _ _ _ => (passes_expectKind).bind fun _ _ _ _ => .pure trivial
  case isFalse => exact .pure trivial

theorem Attempt.spans_declarationAfter {s : Cursor n} (h : Spans [position] s₀ s.toInput) :
    (declarationAfter storage name position).Meets base s fun o s' =>
      Spans (o.toList.map (·.position)) s₀ s' := by
  have hd : Attempt.Meets s.diagnostics.size
      (do variableAfter (n := n) storage (← typeAfter name) position) s fun d s' =>
        Spans [d.position] s₀ s' :=
    passes_typeAfter.bind fun type s₁ ht _ => spans_variableAfter (h.through ht)
  have hr := spans_recover passes_skipVariable (h.weaken (List.nil_sublist _)) hd (Nat.le_refl _)
  refine hr.lift.bind fun o s₁ _ ho => ?_
  refine (passes_expectKind).bind fun _ s₂ hu _ => .pure ?_
  cases o <;> exact ho.through hu

abbrev SpansStatement (s : Input) (st : Statement) (s' : Input) : Prop :=
  Spans st.places s s'

theorem spans_declarationStatement {s : Cursor n} (h : Spans [position] s₀ s.toInput) :
    (declarationStatement name position).Meets base s (SpansStatement s₀) :=
  (spans_declarationAfter h).bind fun o _ _ ho => by cases o <;> exact .pure ho

theorem spans_namedDeclaration {s : Cursor n} (h : Spans [position] s₀ s.toInput) :
    (namedDeclaration type position).Meets base s (SpansStatement s₀) := by
  have hc (s₁ : Cursor n) (h : Spans [position] s₀ s₁.toInput) :
      Attempt.Meets base (do
        let name ← expectIdentifier
        let _ ← expectKind .semicolon
        return .declare ⟨← freshId, name.1, type, .localSlot, position⟩) s₁ (SpansStatement s₀) :=
    meets_expectIdentifier.bind fun _ _ hu _ => (passes_expectKind).bind fun _ _ hv _ =>
      meets_freshId.bind fun _ _ hi _ => .pure (h.through ((hu.trans hv).trans hi))
  unfold namedDeclaration
  split
  case isTrue  =>
    exact meets_take.bind fun _ _ hu _ => meets_take.bind fun _ s₂ hv _ =>
      hc s₂ (h.through (hu.trans hv))
  case isFalse => exact hc s h

theorem spans_condition {s : Cursor n} :
    (condition n).Meets base s fun e s' => Spans e.places s.toInput s' :=
  (passes_expectKind).bind fun _ s₁ hp _ => (spans_expression n s₁).lift.bind fun _ _ _ he =>
    (passes_expectKind).bind fun _ _ hu _ => .pure ((he.before hp).through hu)

theorem spans_statementAfter {s : Cursor n} {t : Token} (h : Spans first.places s₀ s.toInput)
    (hd : t.kind.defect?.isSome → base < s.diagnostics.size) :
    (statementAfter first t).Meets base s (SpansStatement s₀) := by
  unfold statementAfter
  split
  case h_1 =>
    refine (spans_expression _ s).lift.bind fun value s₂ _ hv => ?_
    refine (passes_expectKind).bind fun _ s₃ hu _ => ?_
    exact meets_freshId.bind fun i s₄ hi _ => .pure ((h.trans hv).through (hu.trans hi))
  case h_2 =>
    refine .bind (P := fun _ s' => s' = s.toInput) (.acceptToken hd fun _ _ => rfl) fun _ s₂ hp _ => ?_
    split
    case h_1 => exact .pure (h.through hp)
    case h_2 => exact .pure (h.through hp)
    case h_3 =>
      have hn : Spans [] s₀ s₂.toInput := (h.weaken (List.nil_sublist _)).through hp
      exact meets_report.bind fun _ s₃ hr _ => .pure (hn.through hr)

theorem spans_closeStatement {s : Cursor n} (hp : Passes s₀ s.toInput)
    (h : body.Meets base s (SpansStatement s₀)) (hb : base ≤ s.diagnostics.size) :
    Leads s₀ (SpansStatement s₀) (closeStatement start body s) := by
  have hc : Leads s.toInput (SpansStatement s₀) (closeStatement start body s) :=
    h.close passes_skipStatement hb fun s' hp' _ => .none (hp.trans hp')
  exact ⟨hp.trans hc.passes, hc.holds⟩

theorem spans_expressionStatement (s : Cursor n) :
    Leads s.toInput (SpansStatement s.toInput) (expressionStatement s) := by
  have he := spans_expression n s
  have hp := Cursor.passes_next (expression n s).2
  exact spans_closeStatement (he.passes.trans hp)
    (spans_statementAfter (he.holds.through hp) Cursor.size_lt_next) hp.size_le

mutual

theorem spans_statement (n : Nat) (s : Cursor n) :
    Leads s.toInput (SpansStatement s.toInput) (statement n s) := by
  match n with
  | 0     =>
    rw [statement]
    exact spans_expressionStatement s
  | n + 1 =>
    rw [statement]
    have hs := StatementStart.of_ofTokens s.tokens
    have hp := Cursor.passes_next s
    split <;> rename_i h <;> rw [h] at hs
    case h_1 =>
      cases hl : s.tokens
      case nil  => rw [hl] at hs; cases hs
      case cons =>
        have ht := Cursor.spans_next (s := s) (by simp [hl])
        exact spans_closeStatement hp (spans_declarationStatement ht) (Nat.le_refl _)
    case h_2 =>
      exact spans_closeStatement hp (spans_wordStatement n _ _ (.none hp)) (Nat.le_refl _)
    case h_3 => exact spans_closeStatement hp (spans_block n _ (.none hp)) (Nat.le_refl _)
    case h_4 =>
      cases hl : s.tokens
      case nil  => rw [hl] at hs; cases hs
      case cons =>
        have ht := Cursor.spans_next (s := s) (by simp [hl])
        exact spans_closeStatement hp (spans_namedDeclaration ht) (Nat.le_refl _)
    case h_5 => exact spans_expressionStatement s
termination_by 4 * n

theorem spans_wordStatement (n : Nat) (s : Cursor n) (word : Keyword) (h : Spans [] s₀ s.toInput) :
    (wordStatement n word position).Meets base s (SpansStatement s₀) := by
  rw [wordStatement.eq_def]
  split
  case h_1 =>
    refine spans_condition.bind fun value s₁ _ he => ?_
    refine (passes_expectKind).bind fun _ s₂ hu _ => ?_
    exact meets_freshId.bind fun i s₃ hi _ => .pure ((h.trans he).through (hu.trans hi))
  case h_2 =>
    refine spans_condition.bind fun value s₁ _ he => ?_
    refine (Meets.below (spans_statement n s₁)).bind fun onTrue s₂ _ hs => ?_
    rw [meets_isAt_bind]
    split
    case isTrue  =>
      refine meets_take.bind fun _ s₃ hu _ => ?_
      refine (Meets.below (spans_statement n s₃)).bind fun onFalse s₄ _ hf => ?_
      refine meets_freshId.bind fun i s₅ hi _ => .pure ?_
      exact ((((h.trans he).trans hs).through hu).trans hf).through hi
    case isFalse =>
      exact meets_freshId.bind fun i s₃ hi _ => .pure (((h.trans he).trans hs).through hi)
  case h_3 =>
    refine spans_condition.bind fun value s₁ _ he => ?_
    refine (Meets.below (spans_statement n s₁)).bind fun body s₂ _ hs => ?_
    exact meets_freshId.bind fun i s₃ hi _ => .pure (((h.trans he).trans hs).through hi)
  case h_4 =>
    refine (passes_expectKind).bind fun _ s₁ hu _ => ?_
    refine (passes_expectKind).bind fun _ s₂ hv _ => ?_
    refine (passes_expectKind).bind fun _ s₃ hw _ => ?_
    refine (passes_expectKind).bind fun _ s₄ hx _ => ?_
    refine spans_condition.bind fun value s₅ _ he => ?_
    refine (passes_expectKind).bind fun _ s₆ hy _ => ?_
    refine meets_freshId.bind fun i s₇ hi _ => .pure ?_
    exact ((h.through ((hu.trans hv).trans (hw.trans hx))).trans he).through (hy.trans hi)
  case h_5 =>
    refine (spans_expression n s).lift.bind fun value s₁ _ he => ?_
    refine (passes_expectKind).bind fun _ s₂ hu _ => ?_
    exact meets_freshId.bind fun i s₃ hi _ => .pure ((h.trans he).through (hu.trans hi))
  case h_6 => exact .giveUp
termination_by 4 * n + 2

theorem spans_block (n : Nat) (s : Cursor n) (h : Spans [] s₀ s.toInput) :
    (block n position).Meets base s (SpansStatement s₀) := by
  rw [block]
  refine (spans_statementList n s).lift.bind fun body s₁ _ hb => ?_
  refine (passes_expectKind).bind fun _ s₂ hu _ => ?_
  exact meets_freshId.bind fun i s₃ hi _ => .pure ((h.trans hb).through (hu.trans hi))
termination_by 4 * n + 2

theorem spans_statementList (n : Nat) (s : Cursor n) :
    (statementList n).Meets s fun ss s' => Spans (Statement.placesOf ss) s.toInput s' := by
  match n with
  | 0     =>
    rw [statementList]
    exact ⟨.refl, .none .refl⟩
  | n + 1 =>
    rw [statementList]
    unfold Step.Meets
    dsimp only
    split
    case isTrue  => exact ⟨.refl, .none .refl⟩
    case isFalse =>
      have hs := spans_statement (n + 1) s
      have hss := spans_statementList n (statement (n + 1) s).2
      exact ⟨hs.passes.trans hss.passes, hs.holds.trans hss.holds⟩
termination_by 4 * n + 1

end

theorem spans_parameter (s : Cursor n) :
    (parameter n).Meets s fun o s' => Spans (o.toList.map (·.position)) s.toInput s' := by
  have hd : Attempt.Meets s.diagnostics.size (do
      let type ← typeRef
      variableAfter .formal type.1 type.2) s fun d s' => Spans [d.position] s.toInput s' := by
    refine .bind (P := fun a s' => Spans [a.2] s.toInput s') ?_ fun _ _ _ h => spans_variableAfter h
    exact (spans_expect rfl).bind fun _ _ _ h => passes_typeAfter.bind fun _ _ ht _ =>
      .pure (h.through ht)
  have hr := spans_recover passes_skipVariable (.none .refl) hd (Nat.le_refl _)
  exact hr.imp fun o _ h => by cases o <;> exact h

theorem spans_parameterList (n : Nat) (s : Cursor n) :
    (parameterList n).Meets base s fun ds s' => Spans (ds.map (·.position)) s.toInput s' := by
  induction n with
  | zero      =>
    rw [parameterList]
    refine (spans_parameter s).lift.bind fun o s₁ _ ho => ?_
    exact (passes_expectKind).bind fun _ _ hu _ => .pure (ho.through hu)
  | succ n hi =>
    rw [parameterList]
    refine (spans_parameter s).lift.bind fun o s₁ _ ho => ?_
    rw [meets_isAt_bind]
    split
    case isTrue  => exact .pure ho
    case isFalse =>
      refine .attemptAfter fun hd => ?_
      refine (meets_acceptKind rfl hd).bind fun _ s₂ hu _ => ?_
      refine (hi s₂).bind fun ds s₃ _ hds => .pure ?_
      simpa using (ho.through (s₁.passes_next.trans hu)).trans hds

abbrev SpansMember (s : Input) (d : Member) (s' : Input) : Prop :=
  Spans d.places s s'

theorem spans_method {s : Cursor n} {t : Token} (h : Spans [t.position] s₀ s.toInput)
    (hk : t.kind = .keyword word) : (method t).Meets base s (SpansMember s₀) := by
  refine .bind (P := fun _ _ => True)
    (.acceptToken (by simp [hk, TokenKind.defect?]) fun _ _ => trivial) fun _ s₁ h₁ _ => ?_
  refine meets_typeRef.bind ?_
  rintro ⟨type, _⟩ s₂ h₂ -
  refine meets_expectIdentifier.bind ?_
  rintro ⟨name, _⟩ s₃ h₃ -
  refine (passes_expectKind).bind fun _ s₄ h₄ _ => ?_
  have h := h.through ((h₁.trans h₂).trans (h₃.trans h₄))
  have hc (parameters : List VariableDeclaration) (s₅ : Cursor n)
      (hp : Spans (parameters.map (·.position)) s₄.toInput s₅.toInput) :
      Attempt.Meets base (do
        let _ ← expectKind .rightParen
        let _ ← expectKind .leftBrace
        let body ← statementList n
        let _ ← expectKind .rightBrace
        return .method ⟨← freshId, name, type, parameters, body, t.position⟩ : Attempt n Member) s₅
        (SpansMember s₀) := by
    refine (passes_expectKind).bind fun _ s₆ h₆ _ => ?_
    refine (passes_expectKind).bind fun _ s₇ h₇ _ => ?_
    refine (spans_statementList n s₇).lift.bind fun body s₈ _ hb => ?_
    refine (passes_expectKind).bind fun _ s₉ h₉ _ => ?_
    refine meets_freshId.bind fun i s₁₀ hi _ => .pure ?_
    exact (((h.trans hp).through (h₆.trans h₇)).trans hb).through (h₉.trans hi)
  rw [meets_isAt_bind]
  split
  case isTrue  => exact hc [] s₄ (.none .refl)
  case isFalse => exact (spans_parameterList n s₄).bind fun parameters s₅ _ hp => hc parameters s₅ hp

theorem spans_field {s : Cursor n} (h : Spans [position] s₀ s.toInput) :
    (field name position).Meets base s (SpansMember s₀) :=
  (spans_declarationAfter h).bind fun o _ _ ho => by cases o <;> exact .pure ho

theorem spans_closeMember {s : Cursor n} (hp : Passes s₀ s.toInput)
    (h : body.Meets base s (SpansMember s₀)) (hb : base ≤ s.diagnostics.size) :
    Leads s₀ (SpansMember s₀) (closeMember start body s) := by
  have hc : Leads s.toInput (SpansMember s₀) (closeMember start body s) :=
    h.close passes_skipMember hb fun s' hp' _ => .none (hp.trans hp')
  exact ⟨hp.trans hc.passes, hc.holds⟩

theorem spans_member (s : Cursor (n + 1)) :
    Leads s.toInput (SpansMember s.toInput) (member s) := by
  have ht (hk : s.head.kind ≠ .endOfInput) := Cursor.spans_next (Cursor.tokens_ne_nil hk)
  have hp := Cursor.passes_next s
  unfold member
  dsimp only
  split <;> rename_i hk
  case h_1 => exact spans_closeMember hp (spans_field (ht (by simp [hk]))) (Nat.le_refl _)
  case h_2 => exact spans_closeMember hp (spans_field (ht (by simp [hk]))) (Nat.le_refl _)
  case h_3 => exact spans_closeMember hp (spans_method (ht (by simp [hk])) hk) (Nat.le_refl _)
  case h_4 =>
    refine spans_closeMember hp (.reported (Cursor.size_lt_next ?_)) hp.size_le
    simp [hk, TokenKind.defect?]
  case h_5 =>
    have hr : Passes s.toInput (s.report (.declarationStart s.head.kind) s.head.position).toInput :=
      .report ..
    have hp := hr.trans (Cursor.passes_skipThrough .leftBrace _)
    exact ⟨hp, .none hp⟩

theorem spans_memberList (n : Nat) (s : Cursor n) :
    (memberList n).Meets s fun ds s' => Spans (ds.flatMap Member.places) s.toInput s' := by
  induction n with
  | zero      => exact ⟨.refl, .none .refl⟩
  | succ n hi =>
    rw [memberList]
    unfold Step.Meets
    dsimp only
    split
    case isTrue  => exact ⟨.refl, .none .refl⟩
    case isFalse =>
      have hd := spans_member s
      have hds := hi (member s).2
      exact ⟨hd.passes.trans hds.passes, hd.holds.trans hds.holds⟩

theorem spans_classDeclaration {s : Cursor n} {t : Token} (h : Spans [t.position] s₀ s.toInput)
    (hd : t.kind.defect?.isSome → base < s.diagnostics.size) :
    (classDeclaration t).Meets base s fun c s' => Spans c.places s₀ s' := by
  refine .bind (P := fun _ _ => True) (.acceptToken hd fun _ _ => trivial) fun _ s₁ h₁ _ => ?_
  refine meets_expectIdentifier.bind ?_
  rintro ⟨name, _⟩ s₂ h₂ -
  refine meets_superclass.bind fun o s₃ h₃ _ => ?_
  refine (passes_expectKind).bind fun _ s₄ h₄ _ => ?_
  refine (spans_memberList n s₄).lift.bind fun members s₅ _ hm => ?_
  refine (passes_expectKind).bind fun _ s₆ h₆ _ => ?_
  refine meets_freshId.bind fun i s₇ hi _ => .pure ?_
  exact ((h.through ((h₁.trans h₂).trans (h₃.trans h₄))).trans hm).through (h₆.trans hi)

theorem spans_class {s : Cursor (n + 1)} (hn : s.tokens ≠ []) :
    Leads s.toInput (fun o s' => Spans (o.toList.flatMap ClassDeclaration.places) s.toInput s')
      (afterToken (fun t => recover skipClass (classDeclaration t)) s) := by
  have hp := Cursor.passes_next s
  have hd := spans_classDeclaration (Cursor.spans_next hn) (Cursor.size_lt_next (s := s))
  have hr := spans_recover passes_skipClass (.none hp) hd hp.size_le
  exact ⟨hp.trans hr.passes, hr.holds⟩

theorem spans_classList (n : Nat) (s : Cursor n) :
    (classList n).Meets s fun cs s' => Spans (cs.flatMap ClassDeclaration.places) s.toInput s' := by
  induction n with
  | zero      => exact ⟨.refl, .none .refl⟩
  | succ n hi =>
    rw [classList]
    unfold Step.Meets
    dsimp only
    split
    case isTrue     => exact ⟨.refl, .none .refl⟩
    case isFalse hl =>
      have hc := spans_class (s := s) (by simpa using hl)
      have hcs := hi (afterToken (fun t => recover skipClass (classDeclaration t)) s).2
      refine ⟨hc.passes.trans hcs.passes, ?_⟩
      have h := hc.holds.trans hcs.holds
      rwa [← List.flatMap_append] at h

theorem spans_mainClass (n : Nat) (s : Cursor n) :
    (mainClass n).Meets base s fun c s' => Spans c.places s.toInput s' := by
  refine (passes_expectKind).bind fun _ s₁ h₁ _ => ?_
  refine meets_expectIdentifier.bind ?_
  rintro ⟨name, _⟩ s₂ h₂ -
  refine (passes_expectKind).bind fun _ s₃ h₃ _ => ?_
  refine (passes_expectKind).bind fun _ s₄ h₄ _ => ?_
  refine (passes_expectKind).bind fun _ s₅ h₅ _ => ?_
  refine meets_expectNamedType.bind fun _ s₆ h₆ _ => ?_
  refine (passes_expectKind).bind fun _ s₇ h₇ _ => ?_
  refine (passes_expectKind).bind fun _ s₈ h₈ _ => ?_
  refine (passes_expectKind).bind fun _ s₉ h₉ _ => ?_
  refine (passes_expectKind).bind fun _ s₁₀ h₁₀ _ => ?_
  refine (spans_statementList n s₁₀).lift.bind fun body s₁₁ _ hb => ?_
  refine (passes_expectKind).bind fun _ s₁₂ h₁₂ _ => ?_
  refine (passes_expectKind).bind fun _ s₁₃ h₁₃ _ => ?_
  refine meets_freshId.bind fun i s₁₄ hi _ => .pure ?_
  have hh := ((h₁.trans h₂).trans (h₃.trans h₄)).trans ((h₅.trans h₆).trans (h₇.trans h₈))
  exact (Spans.before (hh.trans (h₉.trans h₁₀)) hb).through ((h₁₂.trans h₁₃).trans hi)

theorem spans_program (n : Nat) (s : Cursor n) :
    (program n).Meets s fun p s' => Spans p.places s.toInput s' := by
  have hm := spans_recover passes_skipClass (.none .refl) (spans_mainClass n s) (Nat.le_refl _)
  have hcs := spans_classList n (recover skipClass (mainClass n) s).2
  rw [Step.Meets, run_program]
  exact ⟨hm.passes.trans hcs.passes, hm.holds.trans hcs.holds⟩

end Reading

-- The places are those of tokens, in the same order.
theorem ParsedProgram.places_sublist (s : TokenStream) :
    (ofStream s).program.places.Sublist (s.tokens.map (·.position)) := by
  obtain ⟨l, hl, hp⟩ := (Reading.spans_program _ (Reading.Cursor.ofStream s)).holds
  have hs : s.tokens = l ++ _ := hl
  rw [hs, List.map_append]
  exact hp.trans (List.sublist_append_left _ _)

end MiniJava
