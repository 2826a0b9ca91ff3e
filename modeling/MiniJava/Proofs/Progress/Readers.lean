import MiniJava.Proofs.Progress.Run

namespace MiniJava.Reading

open Attempt

theorem Cursor.tokens_of_zero (s : Cursor 0) : s.tokens = [] :=
  List.length_eq_zero_iff.mp (Nat.le_zero.mp s.fits)

theorem Cursor.head_kind_of_zero (s : Cursor 0) : s.head.kind = .endOfInput := by
  simp [head, s.tokens_of_zero]

theorem Attempt.does_noTerm {s : Cursor n} :
    (noTerm s.head : Attempt n Expression).Does s (.of (noTerm s.head)) :=
  does_of (.noTerm _)

theorem Attempt.does_expectKind_bind {s : Cursor n} {f : Position → Attempt n α}
    {g : Position → Reader α} (h : ∀ p s', (f p).Does s' (g p)) :
    Does (expectKind kind >>= f) s (.of (expectKind kind) >>= g) :=
  (does_of (.expectKind kind)).bind h

theorem Attempt.does_freshId_bind {s : Cursor n} {f : NodeId → Attempt n α}
    {g : NodeId → Reader α} (h : ∀ i s', (f i).Does s' (g i)) :
    Does (freshId >>= f) s (.of freshId >>= g) :=
  (does_of .freshId).bind h

-- At the end of input a loop fails where it has to go on.
theorem Attempt.does_expectKind_of_zero {s : Cursor 0} {f : Position → Attempt 0 α}
    {g : Unit → Reader α} (hk : kind ≠ .endOfInput) :
    Does (expectKind kind >>= f) s
      (.of take >>= fun t => .of (acceptToken (.token kind) (ofKind kind) t) >>= g) := by
  have ha {n : Nat} : (acceptToken (.token kind) (ofKind kind) s.head : Attempt n Unit) =
      giveUp (.unexpected (.token kind) .endOfInput) s.head.position := by
    unfold acceptToken
    rw [s.head_kind_of_zero, ofKind, if_neg hk.symm]
    rfl
  have he : (expectKind kind >>= f) = take >>= fun t =>
      acceptToken (.token kind) (ofKind kind) t >>= fun _ => f t.position := by
    simp [expectKind, expect]
  rw [he, does_take_bind]
  simp only [ha]
  exact .done

mutual

theorem gives_expression (n : Nat) (s : Cursor n) :
    Gives (.call .expression) s.toInput (expression n s) := by
  rw [expression]
  have hc := does_chain n BinaryOperator.levels s
  exact gives_call (p := .expression) (gives_close hc (gives_skip Reader.endsExpression))
termination_by 16 * n + 11
decreasing_by simp only [BinaryOperator.levels]; omega

theorem does_chain (n k : Nat) (s : Cursor n) : (chain n k).Does s (.call (.chain k)) := by
  match k with
  | 0     =>
    rw [chain]
    exact does_call (does_unary n s)
  | k + 1 =>
    rw [chain]
    exact does_call ((does_chain n k s).bind fun left s₁ => does_chainRest n k left s₁)
termination_by 16 * n + 4 + k

theorem does_chainRest (n k : Nat) (left : Expression) (s : Cursor n) :
    (chainRest n k left).Does s (.call (.chainRest k left)) := by
  refine does_call ?_
  match n with
  | 0     =>
    rw [chainRest, Reader.body, does_of_head_bind, s.head_kind_of_zero]
    exact does_pure
  | n + 1 =>
    rw [chainRest, Reader.body, does_head_bind]
    generalize operatorAbove? k s.head.kind = o
    split
    case h_1 => exact does_pure
    case h_2 =>
      rw [does_attemptAfter]
      refine (does_chain n k _).bind fun right s₁ => does_freshId_bind fun i s₂ => ?_
      exact does_chainRest n k _ s₂
termination_by 16 * n + k

theorem does_unary (n : Nat) (s : Cursor n) : (unary n).Does s (.call .unary) := by
  refine does_call ?_
  match n with
  | 0     =>
    rw [unary, Reader.body, does_of_isAt_bind, s.head_kind_of_zero]
    exact gives_term 0 s
  | n + 1 =>
    rw [unary, Reader.body, does_isAt_bind]
    split
    case isTrue  =>
      rw [does_attemptAfter]
      exact (does_lift (gives_term n _)).bind fun _ _ => does_freshId_bind fun _ _ => does_pure
    case isFalse => exact gives_term (n + 1) s
termination_by 16 * n + 3

theorem gives_term (n : Nat) (s : Cursor n) : Gives (.call .term) s.toInput (term n s) := by
  rw [term]
  exact gives_call (p := .term) (gives_close (does_termBody n s) (gives_skip Reader.endsTerm))
termination_by 16 * n + 2

theorem does_termBody (n : Nat) (s : Cursor n) : (termBody n).Does s Reader.termBody := by
  match n with
  | 0     =>
    rw [termBody, Reader.termBody, does_head_bind, s.head_kind_of_zero]
    exact does_noTerm
  | n + 1 =>
    rw [termBody, Reader.termBody, does_head_bind]
    generalize s.head.kind = kind
    cases kind with
    | keyword word =>
      cases word with
      | newWord =>
        refine does_attemptAfter.mpr ?_
        exact (does_creation n _ _).bind fun e s₁ => does_termTail n e s₁
      | thisWord | trueWord | falseWord =>
        refine does_attemptAfter.mpr ?_
        exact does_freshId_bind fun i s₁ => does_termTail n _ s₁
      | _ => exact does_noTerm
    | identifier | integer =>
      refine does_attemptAfter.mpr ?_
      exact does_freshId_bind fun i s₁ => does_termTail n _ s₁
    | leftParen =>
      refine does_attemptAfter.mpr ?_
      refine (does_lift (gives_expression n _)).bind fun e s₁ => does_expectKind_bind fun _ s₂ => ?_
      exact does_termTail n e s₂
    | malformed =>
      refine does_attemptAfter.mpr ?_
      exact does_of (.throw _)
    | _ => exact does_noTerm
termination_by 16 * n + 1

theorem does_termTail (n : Nat) (inner : Expression) (s : Cursor n) :
    (termTail n inner).Does s (.call (.termTail inner)) := by
  refine does_call ?_
  match n with
  | 0     =>
    rw [termTail, Reader.body, does_of_head_bind, s.head_kind_of_zero]
    exact does_pure
  | n + 1 =>
    rw [termTail, Reader.body, does_head_bind]
    generalize s.head.kind = kind
    cases kind with
    | leftBracket =>
      refine does_attemptAfter.mpr ?_
      refine (does_lift (gives_expression n _)).bind fun e s₁ => does_expectKind_bind fun _ s₂ => ?_
      exact does_freshId_bind fun i s₃ => does_termTail n _ s₃
    | dot =>
      refine does_attemptAfter.mpr ?_
      exact (does_invocation n inner _).bind fun e s₁ => does_termTail n e s₁
    | _ => exact does_pure
termination_by 16 * n

theorem does_invocation (n : Nat) (receiver : Expression) (s : Cursor n) :
    (invocation n receiver).Does s (.call (.invocation receiver)) := by
  refine does_call ?_
  rw [invocation, Reader.body, Reader.invocation, does_head_bind]
  generalize s.head.kind = kind
  cases kind with
  | keyword =>
    exact does_expectKind_bind fun p s₁ => does_freshId_bind fun i s₂ => does_pure
  | _ =>
    refine (does_of (.expect _ _)).bind ?_
    rintro ⟨name, p⟩ s₁
    refine does_expectKind_bind fun _ s₂ => ?_
    have hc (arguments : List Expression) (s₃ : Cursor n) :
        Does (do
          let _ ← expectKind .rightParen
          return .call (← freshId) receiver name arguments p : Attempt n Expression) s₃ (do
          let _ ← .of (expectKind .rightParen)
          return .call (← .of freshId) receiver name arguments p : Reader Expression) :=
      does_expectKind_bind fun _ s₄ => does_freshId_bind fun i s₅ => does_pure
    refine does_isAt_bind.mpr ?_
    split
    case isTrue  => exact hc [] s₂
    case isFalse => exact (does_argumentList n s₂).bind fun arguments s₃ => hc arguments s₃
termination_by 16 * n + 13

theorem does_argumentList (n : Nat) (s : Cursor n) :
    (argumentList n).Does s (.call .argumentList) := by
  refine does_call ?_
  match n with
  | 0     =>
    rw [argumentList, Reader.body]
    refine (does_lift (gives_expression 0 s)).bind fun e s₁ => ?_
    rw [does_of_isAt_bind, s₁.head_kind_of_zero]
    exact does_expectKind_of_zero (by simp)
  | n + 1 =>
    rw [argumentList, Reader.body]
    refine (does_lift (gives_expression (n + 1) s)).bind fun e s₁ => ?_
    rw [does_isAt_bind]
    split
    case isTrue  => exact does_pure
    case isFalse =>
      rw [does_attemptAfter]
      refine (does_of (.acceptToken _ _ _)).bind fun _ s₂ => ?_
      exact (does_argumentList n s₂).bind fun es s₃ => does_pure
termination_by 16 * n + 12

theorem does_creation (n : Nat) (position : Position) (s : Cursor n) :
    (creation n position).Does s (.call (.creation position)) := by
  refine does_call ?_
  rw [creation, Reader.body, Reader.creation]
  refine (does_of (.expect _ _)).bind ?_
  rintro ⟨⟨name, builtin⟩, p⟩ s₁
  rw [does_isAt_bind]
  split
  case isTrue  =>
    refine does_expectKind_bind fun _ s₂ => (does_lift (gives_expression n s₂)).bind fun e s₃ => ?_
    exact does_expectKind_bind fun _ s₄ => does_freshId_bind fun i s₅ => does_pure
  case isFalse =>
    refine does_expectKind_bind fun _ s₂ => does_expectKind_bind fun _ s₃ => ?_
    exact does_freshId_bind fun i s₄ => does_pure
termination_by 16 * n + 12

end

namespace Attempt

variable {s : Cursor n}

theorem does_declarationAfter :
    (declarationAfter storage name position).Does s (.declarationAfter storage name position) := by
  have hd : Plain (do variableAfter storage (← typeAfter name) position) :=
    (Plain.typeAfter _).bind fun _ => .variableAfter _ _ _
  have hr := gives_recover (does_of hd (s := s)) (gives_skip Reader.endsVariable)
  exact (does_lift hr).bind fun _ _ => does_expectKind_bind fun _ _ => does_pure

theorem does_declarationStatement :
    (declarationStatement name position).Does s (.declarationStatement name position) :=
  does_declarationAfter.bind fun o _ => by cases o <;> exact does_pure

theorem does_field : (field name position).Does s (.field name position) :=
  does_declarationAfter.bind fun o _ => by cases o <;> exact does_pure

theorem does_condition : (condition n).Does s .condition :=
  does_expectKind_bind fun _ s₁ => (does_lift (gives_expression n s₁)).bind fun _ _ =>
    does_expectKind_bind fun _ _ => does_pure

theorem does_statementAfter :
    (statementAfter first t).Does s (.statementAfter first t) := by
  unfold statementAfter Reader.statementAfter
  generalize t.kind = kind
  cases kind with
  | assign =>
    exact (does_lift (gives_expression n s)).bind fun _ _ =>
      does_expectKind_bind fun _ _ => does_freshId_bind fun _ _ => does_pure
  | _ =>
    refine (does_of (.acceptToken _ _ _)).bind fun _ s₁ => ?_
    cases first with
    | call | malformed => exact does_pure
    | _                => exact .done

end Attempt

theorem gives_closeStatement {s : Cursor n} (h : body.Does s t) :
    Gives (.closeStatement start t) s.toInput (closeStatement start body s) :=
  gives_close h fun s => gives_skipThrough .semicolon s

theorem gives_expressionStatement (s : Cursor n) :
    Gives (.statement s.head.position .expression) s.toInput (expressionStatement s) := by
  have h : Gives (.closeStatement s.head.position
      (.statementAfter (expression n s).1 (expression n s).2.head))
      (expression n s).2.next.2.toInput (expressionStatement s) :=
    gives_closeStatement does_statementAfter
  exact Runs.then (gives_expression n s) h

mutual

theorem gives_statement (n : Nat) (s : Cursor n) :
    Gives (.call .statement) s.toInput (statement n s) := by
  refine gives_call (p := .statement) ?_
  show Gives (.statement s.head.position (StatementStart.ofTokens s.tokens)) s.toInput _
  match n with
  | 0     =>
    rw [statement, s.tokens_of_zero]
    exact gives_expressionStatement s
  | n + 1 =>
    rw [statement]
    generalize StatementStart.ofTokens s.tokens = how
    cases how with
    | expression => exact gives_expressionStatement s
    | typed name =>
      rw [Reader.statement]
      exact gives_afterToken.mpr (gives_closeStatement does_declarationStatement)
    | word word  =>
      rw [Reader.statement]
      exact gives_afterToken.mpr (gives_closeStatement (does_wordStatement n word _ _))
    | brace      =>
      rw [Reader.statement]
      exact gives_afterToken.mpr (gives_closeStatement (does_block n _ _))
    | named type =>
      rw [Reader.statement]
      exact gives_afterToken.mpr (gives_closeStatement (does_of (.namedDeclaration _ _)))
termination_by 4 * n

theorem does_wordStatement (n : Nat) (word : Keyword) (position : Position) (s : Cursor n) :
    (wordStatement n word position).Does s (.call (.wordStatement word position)) := by
  refine does_call ?_
  rw [wordStatement.eq_def, Reader.body, Reader.wordStatement.eq_def]
  cases word with
  | assertWord =>
    exact does_condition.bind fun _ _ => does_expectKind_bind fun _ _ =>
      does_freshId_bind fun _ _ => does_pure
  | ifWord     =>
    refine does_condition.bind fun _ s₁ => (does_below (gives_statement n s₁)).bind fun _ s₂ => ?_
    rw [does_isAt_bind]
    split
    case isTrue  =>
      rw [does_take_bind]
      exact (does_below (gives_statement n _)).bind fun _ _ => does_freshId_bind fun _ _ => does_pure
    case isFalse => exact does_freshId_bind fun _ _ => does_pure
  | whileWord  =>
    refine does_condition.bind fun _ s₁ => (does_below (gives_statement n s₁)).bind fun _ s₂ => ?_
    exact does_freshId_bind fun _ _ => does_pure
  | systemWord =>
    refine does_expectKind_bind fun _ _ => does_expectKind_bind fun _ _ => ?_
    refine does_expectKind_bind fun _ _ => does_expectKind_bind fun _ _ => ?_
    exact does_condition.bind fun _ _ => does_expectKind_bind fun _ _ =>
      does_freshId_bind fun _ _ => does_pure
  | returnWord =>
    exact (does_lift (gives_expression n s)).bind fun _ _ => does_expectKind_bind fun _ _ =>
      does_freshId_bind fun _ _ => does_pure
  | _          => exact does_of (.giveUp _ _)
termination_by 4 * n + 2

theorem does_block (n : Nat) (position : Position) (s : Cursor n) :
    (block n position).Does s (.call (.block position)) := by
  refine does_call ?_
  rw [block, Reader.body]
  exact (does_lift (gives_statementList n s)).bind fun _ _ =>
    does_expectKind_bind fun _ _ => does_freshId_bind fun _ _ => does_pure
termination_by 4 * n + 2

theorem gives_statementList (n : Nat) (s : Cursor n) :
    Gives (.call .statementList) s.toInput (statementList n s) := by
  refine gives_call (p := .statementList) ?_
  rw [Reader.body, gives_atClose_bind]
  match n with
  | 0     =>
    rw [statementList, s.tokens_of_zero]
    exact .done
  | n + 1 =>
    rw [statementList, s.first_toInput]
    dsimp only
    cases s.tokens.isEmpty || decide (s.head.kind = .rightBrace) with
    | true  => exact .done
    | false =>
      have hr := gives_statementList n (statement (n + 1) s).2
      exact Runs.then (gives_statement (n + 1) s) (Runs.then hr .done)
termination_by 4 * n + 1

end

theorem gives_parameter (s : Cursor n) : Gives .parameter s.toInput (parameter n s) := by
  refine gives_recover (does_of ?_) (gives_skip Reader.endsVariable)
  exact Plain.typeRef.bind fun _ => Plain.variableAfter _ _ _

theorem does_parameterList (n : Nat) (s : Cursor n) :
    (parameterList n).Does s (.call .parameterList) := by
  refine does_call ?_
  rw [Reader.body]
  induction n with
  | zero      =>
    rw [parameterList]
    refine (does_lift (gives_parameter s)).bind fun _ s₁ => ?_
    rw [does_of_isAt_bind, s₁.head_kind_of_zero]
    exact does_expectKind_of_zero (by simp)
  | succ n ih =>
    rw [parameterList]
    refine (does_lift (gives_parameter s)).bind fun _ s₁ => ?_
    rw [does_isAt_bind]
    split
    case isTrue  => exact does_pure
    case isFalse =>
      rw [does_attemptAfter]
      refine (does_of (.acceptToken _ _ _)).bind fun _ s₂ => ?_
      exact (does_call (p := .parameterList) (ih s₂)).bind fun _ _ => does_pure

theorem does_method (t : Token) (s : Cursor n) : (method t).Does s (.method t) := by
  refine (does_of (.acceptToken _ _ _)).bind fun _ s₁ => ?_
  refine (does_of .typeRef).bind ?_
  rintro ⟨type, _⟩ s₂
  refine (does_of (.expect _ _)).bind ?_
  rintro ⟨name, _⟩ s₃
  refine does_expectKind_bind fun _ s₄ => ?_
  have hc (parameters : List VariableDeclaration) (s₅ : Cursor n) : Does (do
      let _ ← expectKind .rightParen
      let _ ← expectKind .leftBrace
      let body ← statementList n
      let _ ← expectKind .rightBrace
      return .method ⟨← freshId, name, type, parameters, body, t.position⟩ : Attempt n Member) s₅ (do
      let _ ← .of (expectKind .rightParen)
      let _ ← .of (expectKind .leftBrace)
      let body ← .call .statementList
      let _ ← .of (expectKind .rightBrace)
      return .method ⟨← .of freshId, name, type, parameters, body, t.position⟩ : Reader Member) :=
    does_expectKind_bind fun _ _ => does_expectKind_bind fun _ s₆ =>
      (does_lift (gives_statementList n s₆)).bind fun _ _ =>
        does_expectKind_bind fun _ _ => does_freshId_bind fun _ _ => does_pure
  rw [does_isAt_bind]
  split
  case isTrue  => exact hc [] s₄
  case isFalse => exact (does_parameterList n s₄).bind fun parameters s₅ => hc parameters s₅

theorem gives_closeMember {s : Cursor n} (h : body.Does s t) :
    Gives (.closeMember start t) s.toInput (closeMember start body s) :=
  gives_close h fun s => gives_skipThrough .leftBrace s

theorem gives_member (s : Cursor (n + 1)) : Gives (.call .member) s.toInput (member s) := by
  refine gives_call (p := .member) ?_
  show Gives (.member s.head.position s.head.kind) s.toInput _
  unfold member
  dsimp only
  cases s.head.kind with
  | identifier name | typeName name _ =>
    exact gives_afterToken.mpr (gives_closeMember does_field)
  | keyword _                         => exact gives_afterToken.mpr (gives_closeMember (does_method _ _))
  | malformed _                       => exact gives_afterToken.mpr (gives_closeMember (does_of (.throw _)))
  | _                                 =>
    exact Runs.then .done (Runs.then (gives_skipThrough .leftBrace (s.report _ _)) .done)

theorem gives_memberList (n : Nat) (s : Cursor n) :
    Gives (.call .memberList) s.toInput (memberList n s) := by
  refine gives_call (p := .memberList) ?_
  rw [Reader.body, gives_atClose_bind]
  induction n with
  | zero      =>
    rw [s.tokens_of_zero]
    exact .done
  | succ n ih =>
    rw [memberList, s.first_toInput]
    dsimp only
    cases s.tokens.isEmpty || decide (s.head.kind = .rightBrace) with
    | true  => exact .done
    | false =>
      have hr := gives_call (p := .memberList) (ih (member s).2)
      exact Runs.then (gives_member s) (Runs.then hr .done)

theorem does_classDeclaration (t : Token) (s : Cursor n) :
    (classDeclaration t).Does s (.classDeclaration t) := by
  refine (does_of (.acceptToken _ _ _)).bind fun _ s₁ => ?_
  refine (does_of (.expect _ _)).bind ?_
  rintro ⟨name, _⟩ s₂
  refine (does_of .superclass).bind fun _ s₃ => does_expectKind_bind fun _ s₄ => ?_
  exact (does_lift (gives_memberList n s₄)).bind fun _ _ =>
    does_expectKind_bind fun _ _ => does_freshId_bind fun _ _ => does_pure

theorem gives_classList (n : Nat) (s : Cursor n) :
    Gives (.call .classList) s.toInput (classList n s) := by
  refine gives_call (p := .classList) ?_
  rw [Reader.body, gives_atEnd_bind]
  induction n with
  | zero      =>
    rw [s.tokens_of_zero]
    exact .done
  | succ n ih =>
    rw [classList]
    dsimp only
    cases s.tokens.isEmpty with
    | true  => exact .done
    | false =>
      have hc : Gives (.call .classDeclaration) s.toInput
          (afterToken (fun t => recover skipClass (classDeclaration t)) s) :=
        gives_call (p := .classDeclaration)
          (gives_afterToken.mpr (gives_recover (does_classDeclaration _ _) (gives_skip _)))
      exact Runs.then hc (Runs.then (gives_call (p := .classList) (ih _)) .done)

theorem does_mainClass (n : Nat) (s : Cursor n) : (mainClass n).Does s .mainClass := by
  refine does_expectKind_bind fun _ s₁ => (does_of (.expect _ _)).bind ?_
  rintro ⟨name, _⟩ s₂
  refine does_expectKind_bind fun _ _ => does_expectKind_bind fun _ _ => ?_
  refine does_expectKind_bind fun _ _ => (does_of (.expectNamedType _)).bind fun _ _ => ?_
  refine does_expectKind_bind fun _ _ => does_expectKind_bind fun _ _ => ?_
  refine does_expectKind_bind fun _ _ => does_expectKind_bind fun _ s₃ => ?_
  refine (does_lift (gives_statementList n s₃)).bind fun _ _ => does_expectKind_bind fun _ _ => ?_
  exact does_expectKind_bind fun _ _ => does_freshId_bind fun _ _ => does_pure

theorem gives_program (n : Nat) (s : Cursor n) :
    Gives (.body .program) s.toInput (program n s) := by
  have hm := gives_recover (does_mainClass n s) (gives_skip (n := n) (· = .keyword .classWord))
  exact Runs.then hm (Runs.then (gives_classList n _) .done)

end MiniJava.Reading
