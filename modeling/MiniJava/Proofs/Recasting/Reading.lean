import MiniJava.Proofs.Recasting.Steps

namespace MiniJava

variable {ρ : Recasting}

namespace Reading

open Attempt

theorem skipExpression_recast (s s' : Cursor n) (h : s.toInput.Recast ρ s'.toInput) :
    (skipExpression s).toInput.Recast ρ (skipExpression s').toInput :=
  Cursor.skipUntil_recast (fun k => by cases k <;> rfl) h

theorem skipTerm_recast (s s' : Cursor n) (h : s.toInput.Recast ρ s'.toInput) :
    (skipTerm s).toInput.Recast ρ (skipTerm s').toInput :=
  Cursor.skipUntil_recast (fun k => by cases k <;> rfl) h

theorem operatorAbove?_recast (k : Nat) (kind : TokenKind) :
    operatorAbove? k (kind.recast ρ) = operatorAbove? k kind := by
  cases kind <;> rfl

theorem recasts_noTerm (t : Token) (f : α → β) :
    Recasts ρ f (noTerm t : Attempt n α) (noTerm (t.recast ρ)) := by
  unfold noTerm
  obtain ⟨kind, p⟩ := t
  cases kind with
  | keyword word => exact .giveUp (.expressionKeyword word) p f
  | _            => exact .giveUp (.termStart _) p f

theorem head_position {s s' : Cursor n} (h : s.toInput.Recast ρ s'.toInput) :
    s'.head.position = ρ.place s.head.position := by
  rw [Cursor.head_recast h]
  rfl

theorem malformed_recast {s s' : Cursor n} (h : s.toInput.Recast ρ s'.toInput) :
    Expression.malformed s'.head.position = (Expression.malformed s.head.position).recast ρ := by
  rw [head_position h]
  rfl

abbrev RecastsExpression (ρ : Recasting) (e e' : Attempt n Expression) : Prop :=
  Recasts ρ (·.recast ρ) e e'

mutual

theorem recasts_expression (n : Nat) :
    Step.Recasts ρ (·.recast ρ) (expression n) (expression n) := by
  rw [expression]
  intro s s' hs
  have hm := malformed_recast hs
  exact (recasts_chain n BinaryOperator.levels).close skipExpression_recast hs hm
termination_by 16 * n + 11
decreasing_by simp only [BinaryOperator.levels]; omega

theorem recasts_chain (n k : Nat) : RecastsExpression ρ (chain n k) (chain n k) := by
  match k with
  | 0 =>
    rw [chain]
    exact recasts_unary n
  | k + 1 =>
    rw [chain]
    exact (recasts_chain n k).bind fun left => recasts_chainRest n k left
termination_by 16 * n + 4 + k

theorem recasts_chainRest (n k : Nat) (left : Expression) :
    RecastsExpression ρ (chainRest n k left) (chainRest n k (left.recast ρ)) := by
  match n with
  | 0 =>
    rw [chainRest, chainRest]
    exact .pure rfl
  | n + 1 =>
    rw [chainRest, chainRest]
    refine .head_bind fun t _ => ?_
    simp only [Token.recast, operatorAbove?_recast]
    cases operatorAbove? k t.kind with
    | none    => exact .pure rfl
    | some op =>
      refine .attemptAfter fun t _ => (recasts_chain n k).bind fun right => ?_
      exact recasts_freshId.bind fun i => recasts_chainRest n k (.binary i op left right t.position)
termination_by 16 * n + k

theorem recasts_unary (n : Nat) : RecastsExpression ρ (unary n) (unary n) := by
  match n with
  | 0 =>
    rw [unary]
    exact (recasts_term 0).lift
  | n + 1 =>
    rw [unary]
    refine .isAt_bind fun b => ?_
    cases b with
    | true  =>
      refine .attemptAfter fun t _ => (recasts_term n).lift.bind fun operand => ?_
      exact recasts_freshId.bind fun i => .pure rfl
    | false => exact (recasts_term (n + 1)).lift
termination_by 16 * n + 3

theorem recasts_term (n : Nat) : Step.Recasts ρ (·.recast ρ) (term n) (term n) := by
  rw [term]
  intro s s' hs
  have hm := malformed_recast hs
  exact (recasts_termBody n).close skipTerm_recast hs hm
termination_by 16 * n + 2

theorem recasts_termBody (n : Nat) : RecastsExpression ρ (termBody n) (termBody n) := by
  match n with
  | 0 =>
    rw [termBody]
    exact .head_bind fun t _ => recasts_noTerm t _
  | n + 1 =>
    rw [termBody]
    refine .head_bind fun t _ => ?_
    obtain ⟨kind, p⟩ := t
    have hleaf (leaf : NodeId → Position → Expression) (leaf' : NodeId → Position → Expression)
        (hl : ∀ i p, leaf' i (ρ.place p) = (leaf i p).recast ρ) : RecastsExpression ρ
        (attemptAfter fun t => do termTail n (leaf (← freshId) t.position))
        (attemptAfter fun t => do termTail n (leaf' (← freshId) t.position)) :=
      .attemptAfter fun t _ => recasts_freshId.bind fun i => by
        have ht := recasts_termTail n (leaf i t.position)
        rwa [← hl i t.position] at ht
    cases kind with
    | keyword word    =>
      cases word with
      | newWord   =>
        exact .attemptAfter fun t _ =>
          (recasts_creation n t.position).bind fun e => recasts_termTail n e
      | thisWord  => exact hleaf .self .self fun _ _ => rfl
      | trueWord  => exact hleaf (.boolean · true) (.boolean · true) fun _ _ => rfl
      | falseWord => exact hleaf (.boolean · false) (.boolean · false) fun _ _ => rfl
      | _         => exact recasts_noTerm _ _
    | identifier name => exact hleaf (.reference · name) (.reference · (ρ.name name)) fun _ _ => rfl
    | integer value   => exact hleaf (.integer · value) (.integer · value) fun _ _ => rfl
    | leftParen       =>
      refine .attemptAfter fun _ _ => (recasts_expression n).lift.bind fun inner => ?_
      exact (recasts_expectKind).bind fun _ => recasts_termTail n inner
    | malformed error => exact .attemptAfter fun _ _ => .throw .reported _
    | _               => exact recasts_noTerm _ _
termination_by 16 * n + 1

theorem recasts_termTail (n : Nat) (inner : Expression) :
    RecastsExpression ρ (termTail n inner) (termTail n (inner.recast ρ)) := by
  match n with
  | 0 =>
    rw [termTail, termTail]
    exact .pure rfl
  | n + 1 =>
    rw [termTail, termTail]
    refine .head_bind fun t _ => ?_
    obtain ⟨kind, p⟩ := t
    cases kind with
    | leftBracket =>
      refine .attemptAfter fun t _ => (recasts_expression n).lift.bind fun index => ?_
      refine (recasts_expectKind).bind fun _ => recasts_freshId.bind fun i => ?_
      exact recasts_termTail n (.index i inner index t.position)
    | dot         =>
      exact .attemptAfter fun _ _ => (recasts_invocation n inner).bind fun e => recasts_termTail n e
    | _           => exact .pure rfl
termination_by 16 * n

theorem recasts_invocation (n : Nat) (receiver : Expression) :
    RecastsExpression ρ (invocation n receiver) (invocation n (receiver.recast ρ)) := by
  rw [invocation, invocation]
  refine .head_bind fun t _ => ?_
  obtain ⟨kind, p⟩ := t
  have hcall : RecastsExpression (n := n) ρ
      (do
        let (method, position) ← expectIdentifier
        let _ ← expectKind .leftParen
        let arguments ← if ← isAt .rightParen then pure [] else argumentList n
        let _ ← expectKind .rightParen
        return .call (← freshId) receiver method arguments position)
      (do
        let (method, position) ← expectIdentifier
        let _ ← expectKind .leftParen
        let arguments ← if ← isAt .rightParen then pure [] else argumentList n
        let _ ← expectKind .rightParen
        return .call (← freshId) (receiver.recast ρ) method arguments position) := by
    refine recasts_expectIdentifier.bind fun a => (recasts_expectKind).bind fun _ => ?_
    have hc (arguments : List Expression) : RecastsExpression (n := n) ρ
        (do
          let _ ← expectKind .rightParen
          return .call (← freshId) receiver a.1 arguments a.2)
        (do
          let _ ← expectKind .rightParen
          return .call (← freshId) (receiver.recast ρ) (ρ.name a.1)
            (Expression.recastAll ρ arguments) (ρ.place a.2)) :=
      (recasts_expectKind).bind fun _ => recasts_freshId.bind fun i => .pure rfl
    refine .isAt_bind fun b => ?_
    cases b with
    | true  => exact hc []
    | false => exact (recasts_argumentList n).bind hc
  cases kind with
  | keyword word =>
    refine (recasts_expectKind).bind fun position => recasts_freshId.bind fun i => .pure ?_
    exact congrArg (Expression.call i (receiver.recast ρ) · [] (ρ.place position)) ρ.length.symm
  | _            => exact hcall
termination_by 16 * n + 13

theorem recasts_argumentList (n : Nat) :
    Recasts ρ (Expression.recastAll ρ) (argumentList n) (argumentList n) := by
  match n with
  | 0 =>
    rw [argumentList]
    exact (recasts_expression 0).lift.bind fun argument =>
      (recasts_expectKind).bind fun _ => .pure rfl
  | n + 1 =>
    rw [argumentList]
    refine (recasts_expression (n + 1)).lift.bind fun argument => .isAt_bind fun b => ?_
    cases b with
    | true  => exact .pure rfl
    | false =>
      refine .attemptAfter fun t _ => (recasts_acceptKind).bind fun _ => ?_
      exact (recasts_argumentList n).bind fun arguments => .pure rfl
termination_by 16 * n + 12

theorem recasts_creation (n : Nat) (position : Position) :
    RecastsExpression ρ (creation n position) (creation n (ρ.place position)) := by
  rw [creation, creation]
  refine recasts_expectType.bind fun ((name, builtin), _) => .isAt_bind fun b => ?_
  show RecastsExpression ρ (if (builtin || !b) = true then _ else _)
    (if (builtin || !b) = true then _ else _)
  split
  case isTrue  =>
    refine (recasts_expectKind).bind fun _ => (recasts_expression n).lift.bind fun size => ?_
    exact (recasts_expectKind).bind fun _ => recasts_freshId.bind fun i => .pure rfl
  case isFalse =>
    refine (recasts_expectKind).bind fun _ => (recasts_expectKind).bind fun _ => ?_
    exact recasts_freshId.bind fun i => .pure rfl
termination_by 16 * n + 12

end

theorem skipVariable_recast (s s' : Cursor n) (h : s.toInput.Recast ρ s'.toInput) :
    (skipVariable s).toInput.Recast ρ (skipVariable s').toInput :=
  Cursor.skipUntil_recast (fun k => by cases k <;> rfl) h

theorem skipStatement_recast (s s' : Cursor n) (h : s.toInput.Recast ρ s'.toInput) :
    (skipStatement s).toInput.Recast ρ (skipStatement s').toInput :=
  Cursor.skipThrough_recast rfl h

theorem recasts_typeAfter (name : String) :
    Recasts ρ (·.recast ρ) (typeAfter name : Attempt n TypeRef) (typeAfter (ρ.name name)) := by
  refine .isAt_bind fun b => ?_
  cases b with
  | true  => exact .take_bind fun _ _ => (recasts_expectKind).bind fun _ => .pure rfl
  | false => exact .pure rfl

theorem recasts_typeRef : Recasts ρ (fun a => (a.1.recast ρ, ρ.place a.2))
    (typeRef : Attempt n (TypeRef × Position)) typeRef :=
  recasts_expectType.bind fun ((name, _), _) => (recasts_typeAfter name).bind fun _ => .pure rfl

theorem recasts_variableAfter (storage : Storage) (type : TypeRef) (position : Position) :
    Recasts ρ (·.recast ρ) (variableAfter storage type position : Attempt n VariableDeclaration)
      (variableAfter storage (type.recast ρ) (ρ.place position)) :=
  recasts_expectIdentifier.bind fun _ => recasts_freshId.bind fun _ => .pure rfl

theorem recasts_declarationAfter (storage : Storage) (name : String) (position : Position) :
    Recasts ρ (Option.map (·.recast ρ))
      (declarationAfter storage name position : Attempt n (Option VariableDeclaration))
      (declarationAfter storage (ρ.name name) (ρ.place position)) := by
  have hd : Recasts (n := n) ρ (·.recast ρ)
      (do variableAfter storage (← typeAfter name) position)
      (do variableAfter storage (← typeAfter (ρ.name name)) (ρ.place position)) :=
    (recasts_typeAfter name).bind fun type => recasts_variableAfter storage type position
  exact (hd.recover skipVariable_recast).lift.bind fun _ =>
    (recasts_expectKind).bind fun _ => .pure rfl

abbrev RecastsStatement (ρ : Recasting) (e e' : Attempt n Statement) : Prop :=
  Recasts ρ (·.recast ρ) e e'

theorem recasts_statementAfter (first : Expression) (t : Token) :
    RecastsStatement (n := n) ρ (statementAfter first t)
      (statementAfter (first.recast ρ) (t.recast ρ)) := by
  have hkeep (s : Statement) : RecastsStatement (n := n) ρ
      (do acceptToken (.token .semicolon) (ofKind .semicolon) t; return s)
      (do acceptToken (.token .semicolon) (ofKind .semicolon) (t.recast ρ); return s.recast ρ) :=
    (recasts_acceptKind).bind fun _ => .pure rfl
  have hreport (form : ExpressionForm) (p : Position) : RecastsStatement (n := n) ρ
      (do
        acceptToken (.token .semicolon) (ofKind .semicolon) t
        modify fun s => s.report (.notAStatement form) p
        return .malformed p)
      (do
        acceptToken (.token .semicolon) (ofKind .semicolon) (t.recast ρ)
        modify fun s => s.report (.notAStatement form) (ρ.place p)
        return .malformed (ρ.place p)) :=
    (recasts_acceptKind).bind fun _ => (recasts_report (.notAStatement form) p).bind fun _ =>
      .pure rfl
  obtain ⟨kind, p⟩ := t
  cases kind with
  | assign =>
    exact (recasts_expression n).lift.bind fun value => (recasts_expectKind).bind fun _ =>
      recasts_freshId.bind fun i => .pure rfl
  | _      =>
    cases first with
    | call | malformed => exact hkeep _
    | newObject | newArray | not | binary | boolean | integer | self | index | reference =>
      exact hreport _ _

theorem recasts_declarationStatement (name : String) (position : Position) :
    RecastsStatement (n := n) ρ (declarationStatement name position)
      (declarationStatement (ρ.name name) (ρ.place position)) :=
  (recasts_declarationAfter .localSlot name position).bind fun o => by
    cases o with
    | none | some _ => exact .pure rfl

theorem recasts_namedDeclaration (type : TypeRef) (position : Position) :
    RecastsStatement (n := n) ρ (namedDeclaration type position)
      (namedDeclaration (type.recast ρ) (ρ.place position)) := by
  have hc : RecastsStatement (n := n) ρ
      (do
        let (name, _) ← expectIdentifier
        let _ ← expectKind .semicolon
        return .declare ⟨← freshId, name, type, .localSlot, position⟩)
      (do
        let (name, _) ← expectIdentifier
        let _ ← expectKind .semicolon
        return .declare ⟨← freshId, name, type.recast ρ, .localSlot, ρ.place position⟩) :=
    recasts_expectIdentifier.bind fun _ => (recasts_expectKind).bind fun _ =>
      recasts_freshId.bind fun _ => .pure rfl
  obtain ⟨name, isArray⟩ := type
  cases isArray with
  | false => exact hc
  | true  => exact .take_bind fun _ _ => .take_bind fun _ _ => hc

theorem recasts_condition : RecastsExpression ρ (condition n) (condition n) :=
  (recasts_expectKind).bind fun _ => (recasts_expression n).lift.bind fun _ =>
    (recasts_expectKind).bind fun _ => .pure rfl

def StatementStart.recast (ρ : Recasting) : StatementStart → StatementStart
  | typed name => typed (ρ.name name)
  | named type => named (type.recast ρ)
  | start      => start

theorem StatementStart.ofTokens_recast {l : List Token} (h : ∀ t ∈ l, t.kind.NamesBuiltin) :
    ofTokens (l.map (·.recast ρ)) = (ofTokens l).recast ρ := by
  have hnamed (name : String) (p : Position) (l : List Token) :
      ofTokens (⟨.identifier (ρ.name name), p⟩ :: l.map (·.recast ρ)) =
        (ofTokens (⟨.identifier name, p⟩ :: l)).recast ρ := by
    match l with
    | []               => rfl
    | [⟨k, _⟩]         => cases k <;> rfl
    | ⟨k, _⟩ :: u :: _ =>
      cases k with
      | leftBracket =>
        obtain ⟨k, _⟩ := u
        cases k <;> rfl
      | _           => rfl
  cases l with
  | nil      => rfl
  | cons t l =>
    obtain ⟨kind, p⟩ := t
    cases kind with
    | identifier name       => exact hnamed name p l
    | typeName name builtin =>
      have hb : name ∈ builtinTypes := h _ List.mem_cons_self
      exact congrArg StatementStart.typed
        (ρ.builtin name hb).symm
    | _                     => rfl

abbrev AlikeStatement (ρ : Recasting) (out : Statement × Cursor n) (out' : Statement × Cursor m) :
    Prop :=
  Alike ρ (·.recast ρ) out out'

theorem alike_closeStatement {body body' : Attempt n Statement} (h : RecastsStatement ρ body body')
    {s s' : Cursor n} (hs : s.toInput.Recast ρ s'.toInput) (hp : start' = ρ.place start) :
    AlikeStatement ρ (closeStatement start body s) (closeStatement start' body' s') :=
  h.close skipStatement_recast hs (congrArg Statement.malformed hp)

theorem alike_expressionStatement {s s' : Cursor n} (hs : s.toInput.Recast ρ s'.toInput) :
    AlikeStatement ρ (expressionStatement s) (expressionStatement s') := by
  obtain ⟨hv, hi⟩ := recasts_expression n s s' hs
  have ht : (expression n s).2.next.2.toInput.Recast ρ (expression n s').2.next.2.toInput := hi.tail
  have h := alike_closeStatement (recasts_statementAfter (expression n s).1 (expression n s).2.head)
    ht (head_position hs)
  rw [← hv, ← Cursor.head_recast hi] at h
  exact h

-- What is read from behind the first token of a statement.
theorem alike_afterToken {k k' : Token → Attempt n Statement} {s s' : Cursor (n + 1)}
    (hs : s.toInput.Recast ρ s'.toInput)
    (h : ∀ t : Token, RecastsStatement ρ (k t) (k' (t.recast ρ))) :
    AlikeStatement ρ (afterToken (fun t => closeStatement s.head.position (k t)) s)
      (afterToken (fun t => closeStatement s'.head.position (k' t)) s') := by
  have ht : s.next.2.toInput.Recast ρ s'.next.2.toInput := hs.tail
  have hc := alike_closeStatement (h s.head) ht (head_position hs)
  rw [← Cursor.head_recast hs] at hc
  exact hc

mutual

theorem alike_statement (n : Nat) (s s' : Cursor n) (hs : s.toInput.Recast ρ s'.toInput) :
    AlikeStatement ρ (statement n s) (statement n s') := by
  match n with
  | 0 =>
    rw [statement, statement]
    exact alike_expressionStatement hs
  | n + 1 =>
    rw [statement, statement]
    have hstart :
        StatementStart.ofTokens s'.tokens = (StatementStart.ofTokens s.tokens).recast ρ := by
      rw [hs.tokens]
      exact StatementStart.ofTokens_recast hs.builtin
    simp only [hstart]
    cases StatementStart.ofTokens s.tokens with
    | typed name => exact alike_afterToken hs fun t => recasts_declarationStatement name t.position
    | word word  => exact alike_afterToken hs fun t => recasts_wordStatement n word t.position
    | brace      => exact alike_afterToken hs fun t => recasts_block n t.position
    | named type => exact alike_afterToken hs fun t => recasts_namedDeclaration type t.position
    | expression => exact alike_expressionStatement hs
termination_by 4 * n

theorem recasts_wordStatement (n : Nat) (word : Keyword) (position : Position) :
    RecastsStatement (n := n) ρ (wordStatement n word position)
      (wordStatement n word (ρ.place position)) := by
  have hs : RecastsStatement ρ (below (statement n)) (below (statement n)) :=
    .below (alike_statement n)
  cases word with
  | assertWord =>
    rw [wordStatement, wordStatement]
    exact recasts_condition.bind fun _ => (recasts_expectKind).bind fun _ =>
      recasts_freshId.bind fun _ => .pure rfl
  | ifWord     =>
    rw [wordStatement, wordStatement]
    refine recasts_condition.bind fun _ => hs.bind fun _ => .isAt_bind fun b => ?_
    cases b with
    | true  =>
      exact .take_bind fun _ _ => hs.bind fun _ => recasts_freshId.bind fun _ => .pure rfl
    | false => exact recasts_freshId.bind fun _ => .pure rfl
  | whileWord  =>
    rw [wordStatement, wordStatement]
    exact recasts_condition.bind fun _ => hs.bind fun _ => recasts_freshId.bind fun _ => .pure rfl
  | systemWord =>
    rw [wordStatement, wordStatement]
    exact (recasts_expectKind).bind fun _ => (recasts_expectKind).bind fun _ =>
      (recasts_expectKind).bind fun _ => (recasts_expectKind).bind fun _ =>
        recasts_condition.bind fun _ => (recasts_expectKind).bind fun _ =>
          recasts_freshId.bind fun _ => .pure rfl
  | returnWord =>
    rw [wordStatement, wordStatement]
    exact (recasts_expression n).lift.bind fun _ => (recasts_expectKind).bind fun _ =>
      recasts_freshId.bind fun _ => .pure rfl
  | _          =>
    rw [wordStatement.eq_def, wordStatement.eq_def]
    exact .giveUp (.statementKeyword _) position _
termination_by 4 * n + 2

theorem recasts_block (n : Nat) (position : Position) :
    RecastsStatement (n := n) ρ (block n position) (block n (ρ.place position)) := by
  rw [block, block]
  exact (recasts_statementList n).lift.bind fun _ => (recasts_expectKind).bind fun _ =>
    recasts_freshId.bind fun _ => .pure rfl
termination_by 4 * n + 2

theorem recasts_statementList (n : Nat) :
    Step.Recasts ρ (Statement.recastAll ρ) (statementList n) (statementList n) := by
  match n with
  | 0 =>
    rw [statementList]
    exact fun _ _ hs => ⟨rfl, hs⟩
  | n + 1 =>
    rw [statementList]
    intro s s' hs
    have hend : (s'.tokens.isEmpty || decide (s'.head.kind = .rightBrace)) =
        (s.tokens.isEmpty || decide (s.head.kind = .rightBrace)) := by
      rw [hs.tokens, Cursor.head_recast hs, List.isEmpty_map]
      exact congrArg (s.tokens.isEmpty || ·) (decide_eq_decide.mpr (TokenKind.recast_eq_iff rfl))
    simp only [hend]
    split
    case isTrue  => exact ⟨rfl, hs⟩
    case isFalse =>
      obtain ⟨hv, hi⟩ := alike_statement (n + 1) s s' hs
      obtain ⟨hvs, his⟩ := recasts_statementList n _ _ hi
      exact ⟨congrArg₂ List.cons hv hvs, his⟩
termination_by 4 * n + 1

end

theorem skipClass_recast (s s' : Cursor n) (h : s.toInput.Recast ρ s'.toInput) :
    (skipClass s).toInput.Recast ρ (skipClass s').toInput :=
  Cursor.skipUntil_recast (fun _ => decide_eq_decide.mpr (TokenKind.recast_eq_iff rfl)) h

theorem skipMember_recast (s s' : Cursor n) (h : s.toInput.Recast ρ s'.toInput) :
    (skipMember s).toInput.Recast ρ (skipMember s').toInput :=
  Cursor.skipThrough_recast rfl h

theorem recasts_parameter (n : Nat) :
    Step.Recasts ρ (Option.map (·.recast ρ)) (parameter n) (parameter n) :=
  (recasts_typeRef.bind fun a => recasts_variableAfter .formal a.1 a.2).recover skipVariable_recast

theorem map_recast_toList (o : Option VariableDeclaration) :
    (o.map (·.recast ρ)).toList = o.toList.map (·.recast ρ) := by
  cases o <;> rfl

theorem recasts_parameterList (n : Nat) :
    Recasts ρ (List.map (·.recast ρ)) (parameterList n) (parameterList n) := by
  induction n with
  | zero      =>
    exact (recasts_parameter 0).lift.bind fun first =>
      (recasts_expectKind).bind fun _ => .pure (map_recast_toList first)
  | succ n hi =>
    refine (recasts_parameter (n + 1)).lift.bind fun first => .isAt_bind fun b => ?_
    cases b with
    | true  => exact .pure (map_recast_toList first)
    | false =>
      refine .attemptAfter fun t _ => (recasts_acceptKind).bind fun _ => hi.bind fun others => ?_
      refine .pure ?_
      rw [map_recast_toList, List.map_append]

abbrev RecastsMember (ρ : Recasting) (e e' : Attempt n Member) : Prop :=
  Recasts ρ (·.recast ρ) e e'

theorem recasts_method (t : Token) :
    RecastsMember (n := n) ρ (method t) (method (t.recast ρ)) := by
  refine (recasts_acceptKind).bind fun _ => recasts_typeRef.bind fun a => ?_
  refine recasts_expectIdentifier.bind fun b => (recasts_expectKind).bind fun _ => ?_
  have hc (parameters : List VariableDeclaration) : RecastsMember (n := n) ρ
      (do
        let _ ← expectKind .rightParen
        let _ ← expectKind .leftBrace
        let body ← statementList n
        let _ ← expectKind .rightBrace
        return .method ⟨← freshId, b.1, a.1, parameters, body, t.position⟩)
      (do
        let _ ← expectKind .rightParen
        let _ ← expectKind .leftBrace
        let body ← statementList n
        let _ ← expectKind .rightBrace
        return .method ⟨← freshId, ρ.name b.1, a.1.recast ρ, parameters.map (·.recast ρ), body,
          ρ.place t.position⟩) :=
    (recasts_expectKind).bind fun _ => (recasts_expectKind).bind fun _ =>
      (recasts_statementList n).lift.bind fun _ => (recasts_expectKind).bind fun _ =>
        recasts_freshId.bind fun _ => .pure rfl
  refine .isAt_bind fun b => ?_
  cases b with
  | true  => exact hc []
  | false => exact (recasts_parameterList n).bind hc

theorem recasts_field (name : String) (position : Position) :
    RecastsMember (n := n) ρ (field name position) (field (ρ.name name) (ρ.place position)) :=
  (recasts_declarationAfter .field name position).bind fun o => by
    cases o with
    | none | some _ => exact .pure rfl

theorem alike_closeMember {k k' : Token → Attempt n Member} {s s' : Cursor (n + 1)}
    (hs : s.toInput.Recast ρ s'.toInput)
    (h : ∀ t : Token, RecastsMember ρ (k t) (k' (t.recast ρ))) :
    Alike ρ (·.recast ρ) (afterToken (fun t => closeMember s.head.position (k t)) s)
      (afterToken (fun t => closeMember s'.head.position (k' t)) s') := by
  have ht : s.next.2.toInput.Recast ρ s'.next.2.toInput := hs.tail
  have hm : Member.malformed s'.head.position = (Member.malformed s.head.position).recast ρ :=
    congrArg Member.malformed (head_position hs)
  have hc := (h s.head).close skipMember_recast ht hm
  rw [← Cursor.head_recast hs] at hc
  exact hc

theorem alike_member {s s' : Cursor (n + 1)} (hs : s.toInput.Recast ρ s'.toInput) :
    Alike ρ (·.recast ρ) (member s) (member s') := by
  have hk : s'.head.kind = s.head.kind.recast ρ := by rw [Cursor.head_recast hs]; rfl
  have hb := Cursor.namesBuiltin_head hs
  have hskip (e : SyntaxError) : Alike (α := Member) ρ (·.recast ρ)
      (.malformed s.head.position, (s.report e s.head.position).skipThrough .leftBrace)
      (.malformed s'.head.position,
        (s'.report (e.recast ρ) s'.head.position).skipThrough .leftBrace) := by
    rw [head_position hs]
    exact ⟨rfl, Cursor.skipThrough_recast rfl (hs.report e _)⟩
  unfold member
  simp only [hk]
  generalize s.head.kind = kind at hb hk
  cases kind with
  | identifier name       => exact alike_closeMember hs fun t => recasts_field name t.position
  | typeName name builtin =>
    have hn : ρ.name name = name := ρ.builtin name hb
    refine alike_closeMember hs fun t => ?_
    have hf : RecastsMember (n := n) ρ _ _ := recasts_field name t.position
    rwa [hn] at hf
  | keyword word          => exact alike_closeMember hs recasts_method
  | malformed error       => exact alike_closeMember hs fun _ => .throw .reported _
  | _                     => exact hskip (.declarationStart _)

theorem recasts_memberList (n : Nat) :
    Step.Recasts ρ (List.map (·.recast ρ)) (memberList n) (memberList n) := by
  induction n with
  | zero      => exact fun _ _ hs => ⟨rfl, hs⟩
  | succ n hi =>
    rw [memberList]
    intro s s' hs
    have hend : (s'.tokens.isEmpty || decide (s'.head.kind = .rightBrace)) =
        (s.tokens.isEmpty || decide (s.head.kind = .rightBrace)) := by
      rw [hs.tokens, Cursor.head_recast hs, List.isEmpty_map]
      exact congrArg (s.tokens.isEmpty || ·) (decide_eq_decide.mpr (TokenKind.recast_eq_iff rfl))
    simp only [hend]
    split
    case isTrue  => exact ⟨rfl, hs⟩
    case isFalse =>
      obtain ⟨hv, hd⟩ := alike_member hs
      obtain ⟨hvs, hds⟩ := hi _ _ hd
      exact ⟨congrArg₂ List.cons hv hvs, hds⟩

theorem recasts_superclass :
    Recasts ρ (Option.map ρ.name) (superclass : Attempt n (Option String)) superclass := by
  refine .isAt_bind fun b => ?_
  cases b with
  | true  => exact .pure rfl
  | false =>
    exact (recasts_expectKind).bind fun _ => recasts_expectIdentifier.bind fun _ => .pure rfl

theorem recasts_classDeclaration (t : Token) :
    Recasts (n := n) ρ (·.recast ρ) (classDeclaration t) (classDeclaration (t.recast ρ)) :=
  (recasts_acceptKind).bind fun _ => recasts_expectIdentifier.bind fun _ =>
    recasts_superclass.bind fun _ => (recasts_expectKind).bind fun _ =>
      (recasts_memberList n).lift.bind fun _ => (recasts_expectKind).bind fun _ =>
        recasts_freshId.bind fun _ => .pure rfl

theorem recasts_classList (n : Nat) :
    Step.Recasts ρ (List.map (·.recast ρ)) (classList n) (classList n) := by
  induction n with
  | zero      => exact fun _ _ hs => ⟨rfl, hs⟩
  | succ n hi =>
    rw [classList]
    intro s s' hs
    have hend : s'.tokens.isEmpty = s.tokens.isEmpty := by rw [hs.tokens, List.isEmpty_map]
    simp only [hend]
    split
    case isTrue  => exact ⟨rfl, hs⟩
    case isFalse =>
      have ht : s.next.2.toInput.Recast ρ s'.next.2.toInput := hs.tail
      obtain ⟨hv, hd⟩ := (recasts_classDeclaration s.head).recover skipClass_recast _ _ ht
      rw [← Cursor.head_recast hs] at hv hd
      obtain ⟨hvs, hds⟩ := hi _ _ hd
      refine ⟨?_, hds⟩
      show _ ++ _ = List.map _ (_ ++ _)
      rw [List.map_append]
      refine congrArg₂ (· ++ ·) ?_ hvs
      rw [← Option.toList_map]
      exact congrArg Option.toList hv

theorem recasts_mainClass (n : Nat) : Recasts ρ (·.recast ρ) (mainClass n) (mainClass n) :=
  (recasts_expectKind).bind fun _ => recasts_expectIdentifier.bind fun _ =>
    (recasts_expectKind).bind fun _ => (recasts_expectKind).bind fun _ =>
      (recasts_expectKind).bind fun _ => recasts_expectNamedType.bind fun _ =>
        (recasts_expectKind).bind fun _ => (recasts_expectKind).bind fun _ =>
          (recasts_expectKind).bind fun _ => (recasts_expectKind).bind fun _ =>
            (recasts_statementList n).lift.bind fun _ => (recasts_expectKind).bind fun _ =>
              (recasts_expectKind).bind fun _ => recasts_freshId.bind fun _ => .pure rfl

theorem recasts_program (n : Nat) : Step.Recasts ρ (·.recast ρ) (program n) (program n) := by
  intro s s' hs
  obtain ⟨hv, hm⟩ := (recasts_mainClass n).recover skipClass_recast s s' hs
  obtain ⟨hvs, hc⟩ := recasts_classList n _ _ hm
  exact ⟨congrArg₂ Program.mk hv hvs, hc⟩

end Reading

theorem Reading.readProgram_recast (hn : n' = n) {s : Cursor n} {s' : Cursor n'}
    (hs : s.toInput.Recast ρ s'.toInput) : s'.readProgram.1 = s.readProgram.1.recast ρ := by
  subst hn
  have h := recasts_program n' s s' hs
  unfold Cursor.readProgram
  generalize program n' s = out at h ⊢
  generalize program n' s' = out' at h ⊢
  have hd : out'.2.diagnostics.toList = out.2.diagnostics.toList.map (·.recast ρ) := by
    rw [h.input.diagnostics, Array.toList_map]
  exact congrArg₂ ParsedProgram.mk h.value hd

-- Reading sees neither names nor positions.
theorem ParsedProgram.ofStream_recast {s s' : TokenStream} (h : ∀ t ∈ s.tokens, t.kind.NamesBuiltin)
    (ht : s'.tokens = s.tokens.map (·.recast ρ)) (hs : s'.stop = ρ.place s.stop) :
    ofStream s' = (ofStream s).recast ρ :=
  Reading.readProgram_recast (by rw [ht, List.length_map]) ⟨ht, h, hs, rfl, Array.map_empty.symm⟩

end MiniJava
