import MiniJava.Proofs.Diagnostic.Words
import MiniJava.Proofs.Recovery.Tread
import MiniJava.Tree.ReadProgram

namespace MiniJava

variable {P : String → Prop}

namespace Reading

structure Input.Bears (P : String → Prop) (s : Input) : Prop where
  tokens      : ∀ t ∈ s.tokens, t.kind.Bears P
  diagnostics : ∀ d ∈ s.diagnostics, d.Bears P

theorem bears_defect? {t : Token} (ht : t.kind.Bears P) (hd : defect? t = some d) : d.Bears P := by
  obtain ⟨kind, p⟩ := t
  cases kind with
  | malformed error =>
    cases hd
    exact ⟨ht, rfl⟩
  | _               => cases hd

namespace Input.Bears

variable {s : Input}

-- The tokens in `l` are passed, and those in `rest` are left.
theorem pass (h : s.Bears P) {l rest : List Token} (hl : l ⊆ s.tokens) (hr : rest ⊆ s.tokens) :
    Input.Bears P
      { s with
        tokens      := rest
        diagnostics := s.diagnostics ++ l.filterMap defect? } where
  tokens t ht      := h.tokens t (hr ht)
  diagnostics d hd := by
    have hd : d ∈ s.diagnostics ∨ d ∈ l.filterMap defect? := by
      simpa [← Array.mem_toList_iff] using hd
    cases hd with
    | inl hd => exact h.diagnostics d hd
    | inr hd =>
      obtain ⟨t, ht, hd⟩ := List.mem_filterMap.mp hd
      exact bears_defect? (h.tokens t (hl ht)) hd

theorem tail (h : s.Bears P) : s.tail.Bears P :=
  h.pass (List.take_subset 1 s.tokens) (List.tail_subset s.tokens)

theorem report (h : s.Bears P) (error : SyntaxError) (he : error.Bears P) (p : Position) :
    (s.report error p).Bears P where
  tokens           := h.tokens
  diagnostics d hd := by
    cases Array.mem_push.mp hd with
    | inl hd => exact h.diagnostics d hd
    | inr hd => exact hd ▸ ⟨he, rfl⟩

theorem first (h : s.Bears P) : s.first.kind.Bears P := by
  cases hs : s.tokens with
  | nil      => simp [Input.first, firstOf, hs, TokenKind.Bears]
  | cons t l =>
    rw [first_of_cons hs]
    exact h.tokens t (hs ▸ List.mem_cons_self)

end Input.Bears

theorem Cursor.bears_skipUntil (stop : TokenKind → Bool) {s : Cursor n} (h : s.toInput.Bears P) :
    (s.skipUntil stop).toInput.Bears P :=
  h.pass (List.takeWhile_sublist _).subset (List.dropWhile_sublist _).subset

theorem Cursor.bears_skipThrough (last : TokenKind) {s : Cursor n} (h : s.toInput.Bears P) :
    (s.skipThrough last).toInput.Bears P :=
  (bears_skipUntil _ h).tail

def Step.Bears (P : String → Prop) (step : Cursor n → α × Cursor m) : Prop :=
  ∀ s, s.toInput.Bears P → (step s).2.toInput.Bears P

def Attempt.Bears (P : String → Prop) (e : Attempt n α) : Prop :=
  ∀ s, s.toInput.Bears P → e.Ends s (Input.Bears P) fun _ => Input.Bears P

namespace Attempt

theorem Bears.pure (a : α) : Bears P (pure a : Attempt n α) :=
  fun _ hs => .pure hs

theorem Bears.bind {e : Attempt n α} {k : α → Attempt n β} (h : e.Bears P)
    (hk : ∀ a, (k a).Bears P) : Bears P (e >>= k) :=
  fun s hs => (h s hs).bind fun a s' hs' => hk a s' hs'

theorem Bears.giveUp (error : SyntaxError) (p : Position) (he : error.Bears P) :
    Bears P (giveUp error p : Attempt n α) :=
  fun _ hs => .giveUp (hs.report error he p)

theorem bears_reported : Bears P (throw .reported : Attempt n α) :=
  fun _ hs => .reported hs

theorem Bears.head_bind {k : Token → Attempt n α}
    (h : ∀ t : Token, t.kind.Bears P → (k t).Bears P) : Bears P (head >>= k) :=
  fun s hs => h s.head hs.first s hs

theorem Bears.isAt_bind {k : Bool → Attempt n α} (h : ∀ b, (k b).Bears P) :
    Bears P (isAt kind >>= k) :=
  fun s hs => h _ s hs

theorem Bears.take_bind {k : Token → Attempt n α}
    (h : ∀ t : Token, t.kind.Bears P → (k t).Bears P) : Bears P (take >>= k) :=
  fun s hs => h s.head hs.first s.next.2.lift hs.tail

theorem Bears.attemptAfter {k : Token → Attempt n α}
    (h : ∀ t : Token, t.kind.Bears P → (k t).Bears P) : Bears P (attemptAfter k) :=
  fun s hs => h s.head hs.first s.next.2 hs.tail

theorem Bears.below {step : Cursor n → α × Cursor (n - 1)} (h : Step.Bears P step) :
    Bears P (below step) :=
  fun s hs => .below (h s hs)

theorem Bears.lift {e : Step n α} (h : Step.Bears P e) : Bears P (liftM e : Attempt n α) :=
  fun s hs => .lift (h s hs)

theorem bears_freshId : Bears P (freshId : Attempt n NodeId) :=
  fun _ hs => Ended.value ⟨hs.tokens, hs.diagnostics⟩

theorem bears_report (error : SyntaxError) (he : error.Bears P) (p : Position) :
    Bears P (modify (Cursor.report error p) : Attempt n Unit) :=
  fun _ hs => Ended.value (hs.report error he p)

theorem Bears.acceptToken (expected : Expectation) {extract : TokenKind → Option α} {t : Token}
    (he : expected.Bears P) (ht : t.kind.Bears P) :
    Bears P (acceptToken expected extract t : Attempt n α) := by
  unfold Reading.acceptToken
  split
  case h_1 a _ => exact .pure a
  case h_2     =>
    split
    case isTrue  => exact bears_reported
    case isFalse => exact .giveUp (.unexpected expected t.kind) t.position ⟨he, ht⟩

theorem Bears.expect (expected : Expectation) {extract : TokenKind → Option α}
    (he : expected.Bears P) : Bears P (expect expected extract : Attempt n (α × Position)) :=
  .take_bind fun _ ht => (acceptToken expected he ht).bind fun _ => .pure _

theorem bears_expectKind (hk : kind.Bears P := by trivial) :
    Bears P (expectKind kind : Attempt n Position) :=
  (Bears.expect (.token kind) hk).bind fun _ => .pure _

theorem bears_expectIdentifier : Bears P (expectIdentifier : Attempt n (String × Position)) :=
  .expect _ trivial

theorem bears_expectType : Bears P (expectType : Attempt n ((String × Bool) × Position)) :=
  .expect _ trivial

theorem bears_expectNamedType (h : P name) : Bears P (expectNamedType name : Attempt n Position) :=
  (Bears.expect (.namedType name) h).bind fun _ => .pure _

theorem Bears.recover {body : Attempt n α} {sync : Cursor n → Cursor n}
    (hsync : ∀ s, s.toInput.Bears P → (sync s).toInput.Bears P) (h : body.Bears P) :
    Step.Bears P (Reading.recover sync body) :=
  fun s hs => (h s hs).recover hsync

end Attempt

open Attempt

theorem bears_skipExpression (s : Cursor n) (h : s.toInput.Bears P) :
    (skipExpression s).toInput.Bears P :=
  Cursor.bears_skipUntil _ h

theorem bears_skipTerm (s : Cursor n) (h : s.toInput.Bears P) : (skipTerm s).toInput.Bears P :=
  Cursor.bears_skipUntil _ h

theorem bears_noTerm {t : Token} (ht : t.kind.Bears P) : Bears P (noTerm t : Attempt n α) := by
  unfold noTerm
  split
  case h_1 word _ => exact .giveUp (.expressionKeyword word) t.position trivial
  case h_2        => exact .giveUp (.termStart t.kind) t.position ht

mutual

theorem bears_expression (n : Nat) : Step.Bears P (expression n) := by
  rw [expression]
  exact fun s hs => (bears_chain n BinaryOperator.levels).recover bears_skipExpression s hs
termination_by 16 * n + 11
decreasing_by simp only [BinaryOperator.levels]; omega

theorem bears_chain (n k : Nat) : Bears P (chain n k) := by
  match k with
  | 0     =>
    rw [chain]
    exact bears_unary n
  | k + 1 =>
    rw [chain]
    exact (bears_chain n k).bind (bears_chainRest n k)
termination_by 16 * n + 4 + k

theorem bears_chainRest (n k : Nat) (left : Expression) : Bears P (chainRest n k left) := by
  match n with
  | 0     =>
    rw [chainRest]
    exact .pure left
  | n + 1 =>
    rw [chainRest]
    refine .head_bind fun t _ => ?_
    cases operatorAbove? k t.kind with
    | none    => exact .pure left
    | some op =>
      refine .attemptAfter fun t _ => (bears_chain n k).bind fun right => ?_
      exact bears_freshId.bind fun i => bears_chainRest n k (.binary i op left right t.position)
termination_by 16 * n + k

theorem bears_unary (n : Nat) : Bears P (unary n) := by
  match n with
  | 0     =>
    rw [unary]
    exact .lift (bears_term 0)
  | n + 1 =>
    rw [unary]
    refine .isAt_bind fun b => ?_
    cases b with
    | true  =>
      exact .attemptAfter fun _ _ => (Bears.lift (bears_term n)).bind fun _ =>
        bears_freshId.bind fun _ => .pure _
    | false => exact .lift (bears_term (n + 1))
termination_by 16 * n + 3

theorem bears_term (n : Nat) : Step.Bears P (term n) := by
  rw [term]
  exact fun s hs => (bears_termBody n).recover bears_skipTerm s hs
termination_by 16 * n + 2

theorem bears_termBody (n : Nat) : Bears P (termBody n) := by
  match n with
  | 0     =>
    rw [termBody]
    exact .head_bind fun _ => bears_noTerm
  | n + 1 =>
    rw [termBody]
    refine .head_bind fun t ht => ?_
    obtain ⟨kind, p⟩ := t
    have hleaf (leaf : NodeId → Position → Expression) :
        Bears P (attemptAfter fun t => do termTail n (leaf (← freshId) t.position)) :=
      .attemptAfter fun t _ => bears_freshId.bind fun i => bears_termTail n (leaf i t.position)
    cases kind with
    | keyword word    =>
      cases word with
      | newWord   =>
        exact .attemptAfter fun t _ => (bears_creation n t.position).bind (bears_termTail n)
      | thisWord  => exact hleaf .self
      | trueWord  => exact hleaf (.boolean · true)
      | falseWord => exact hleaf (.boolean · false)
      | _         => exact bears_noTerm ht
    | identifier name => exact hleaf (.reference · name)
    | integer value   => exact hleaf (.integer · value)
    | leftParen       =>
      refine .attemptAfter fun _ _ => (Bears.lift (bears_expression n)).bind fun inner => ?_
      exact (bears_expectKind).bind fun _ => bears_termTail n inner
    | malformed error => exact .attemptAfter fun _ _ => bears_reported
    | _               => exact bears_noTerm ht
termination_by 16 * n + 1

theorem bears_termTail (n : Nat) (inner : Expression) : Bears P (termTail n inner) := by
  match n with
  | 0     =>
    rw [termTail]
    exact .pure inner
  | n + 1 =>
    rw [termTail]
    refine .head_bind fun t _ => ?_
    obtain ⟨kind, p⟩ := t
    cases kind with
    | leftBracket =>
      refine .attemptAfter fun t _ => (Bears.lift (bears_expression n)).bind fun index => ?_
      refine (bears_expectKind).bind fun _ => bears_freshId.bind fun i => ?_
      exact bears_termTail n (.index i inner index t.position)
    | dot         =>
      exact .attemptAfter fun _ _ => (bears_invocation n inner).bind (bears_termTail n)
    | _           => exact .pure inner
termination_by 16 * n

theorem bears_invocation (n : Nat) (receiver : Expression) : Bears P (invocation n receiver) := by
  rw [invocation]
  refine .head_bind fun t _ => ?_
  obtain ⟨kind, p⟩ := t
  have hcall : Bears (n := n) P
      (do
        let (method, position) ← expectIdentifier
        let _ ← expectKind .leftParen
        let arguments ← if ← isAt .rightParen then pure [] else argumentList n
        let _ ← expectKind .rightParen
        return Expression.call (← freshId) receiver method arguments position) := by
    refine bears_expectIdentifier.bind fun a => (bears_expectKind).bind fun _ => ?_
    have hc (arguments : List Expression) : Bears (n := n) P
        (do
          let _ ← expectKind .rightParen
          return Expression.call (← freshId) receiver a.1 arguments a.2) :=
      (bears_expectKind).bind fun _ => bears_freshId.bind fun _ => .pure _
    refine .isAt_bind fun b => ?_
    cases b with
    | true  => exact hc []
    | false => exact (bears_argumentList n).bind hc
  cases kind with
  | keyword word =>
    exact (bears_expectKind).bind fun _ => bears_freshId.bind fun _ => .pure _
  | _            => exact hcall
termination_by 16 * n + 13

theorem bears_argumentList (n : Nat) : Bears P (argumentList n) := by
  match n with
  | 0     =>
    rw [argumentList]
    exact (Bears.lift (bears_expression 0)).bind fun _ => (bears_expectKind).bind fun _ => .pure _
  | n + 1 =>
    rw [argumentList]
    refine (Bears.lift (bears_expression (n + 1))).bind fun argument => .isAt_bind fun b => ?_
    cases b with
    | true  => exact .pure [argument]
    | false =>
      refine .attemptAfter fun t ht =>
        (Bears.acceptToken (.token .comma) trivial ht).bind fun _ => ?_
      exact (bears_argumentList n).bind fun _ => .pure _
termination_by 16 * n + 12

theorem bears_creation (n : Nat) (position : Position) : Bears P (creation n position) := by
  rw [creation]
  refine bears_expectType.bind fun ((name, builtin), _) => .isAt_bind fun b => ?_
  show Bears P (if (builtin || !b) = true then _ else _)
  split
  case isTrue  =>
    refine (bears_expectKind).bind fun _ => (Bears.lift (bears_expression n)).bind fun size => ?_
    exact (bears_expectKind).bind fun _ => bears_freshId.bind fun _ => .pure _
  case isFalse =>
    refine (bears_expectKind).bind fun _ => (bears_expectKind).bind fun _ => ?_
    exact bears_freshId.bind fun _ => .pure _
termination_by 16 * n + 12

end

theorem bears_skipVariable (s : Cursor n) (h : s.toInput.Bears P) :
    (skipVariable s).toInput.Bears P :=
  Cursor.bears_skipUntil _ h

theorem bears_skipStatement (s : Cursor n) (h : s.toInput.Bears P) :
    (skipStatement s).toInput.Bears P :=
  Cursor.bears_skipThrough _ h

theorem bears_typeAfter (name : String) : Bears P (typeAfter name : Attempt n TypeRef) := by
  refine .isAt_bind fun b => ?_
  cases b with
  | true  => exact .take_bind fun _ _ => (bears_expectKind).bind fun _ => .pure _
  | false => exact .pure _

theorem bears_typeRef : Bears P (typeRef : Attempt n (TypeRef × Position)) :=
  bears_expectType.bind fun ((name, _), _) => (bears_typeAfter name).bind fun _ => .pure _

theorem bears_variableAfter (storage : Storage) (type : TypeRef) (position : Position) :
    Bears P (variableAfter storage type position : Attempt n VariableDeclaration) :=
  bears_expectIdentifier.bind fun _ => bears_freshId.bind fun _ => .pure _

theorem bears_declarationAfter (storage : Storage) (name : String) (position : Position) :
    Bears P (declarationAfter storage name position : Attempt n (Option VariableDeclaration)) := by
  have hd : Bears (n := n) P (do variableAfter storage (← typeAfter name) position) :=
    (bears_typeAfter name).bind fun type => bears_variableAfter storage type position
  exact (Bears.lift (hd.recover bears_skipVariable)).bind fun _ =>
    (bears_expectKind).bind fun _ => .pure _

theorem bears_closeStatement {body : Attempt n Statement} (h : body.Bears P) (start : Position) :
    Step.Bears P (closeStatement start body) :=
  fun s hs => h.recover bears_skipStatement s hs

theorem bears_statementAfter (first : Expression) {t : Token} (ht : t.kind.Bears P) :
    Bears P (statementAfter first t : Attempt n Statement) := by
  have hkeep (k : Attempt n Statement) (hk : k.Bears P) :
      Bears P (do acceptToken (.token .semicolon) (ofKind .semicolon) t; k) :=
    (Bears.acceptToken (.token .semicolon) trivial ht).bind fun _ => hk
  have hreport (form : ExpressionForm) (p : Position) : Bears (n := n) P
      (do
        modify fun s => s.report (.notAStatement form) p
        return Statement.malformed p) :=
    (bears_report (.notAStatement form) trivial p).bind fun _ => .pure _
  unfold statementAfter
  split
  case h_1 =>
    exact (Bears.lift (bears_expression n)).bind fun _ => (bears_expectKind).bind fun _ =>
      bears_freshId.bind fun _ => .pure _
  case h_2 =>
    refine hkeep _ ?_
    cases first with
    | call | malformed => exact .pure _
    | newObject | newArray | not | binary | boolean | integer | self | index | reference =>
      exact hreport _ _

theorem bears_expressionStatement : Step.Bears P (expressionStatement (n := n)) := by
  intro s hs
  have hf := bears_expression n s hs
  exact bears_closeStatement (bears_statementAfter _ hf.first) _ _ hf.tail

theorem bears_declarationStatement (name : String) (position : Position) :
    Bears P (declarationStatement name position : Attempt n Statement) := by
  refine (bears_declarationAfter .localSlot name position).bind fun o => ?_
  cases o with
  | none | some _ => exact .pure _

theorem bears_namedDeclaration (type : TypeRef) (position : Position) :
    Bears P (namedDeclaration type position : Attempt n Statement) := by
  have hc : Bears (n := n) P
      (do
        let (name, _) ← expectIdentifier
        let _ ← expectKind .semicolon
        return Statement.declare ⟨← freshId, name, type, .localSlot, position⟩) :=
    bears_expectIdentifier.bind fun _ => (bears_expectKind).bind fun _ =>
      bears_freshId.bind fun _ => .pure _
  obtain ⟨name, isArray⟩ := type
  cases isArray with
  | false => exact hc
  | true  => exact .take_bind fun _ _ => .take_bind fun _ _ => hc

theorem bears_condition : Bears P (condition n) :=
  (bears_expectKind).bind fun _ => (Bears.lift (bears_expression n)).bind fun _ =>
    (bears_expectKind).bind fun _ => .pure _

-- What is read from behind the first token of a statement.
theorem bears_afterToken {k : Token → Step n α}
    (h : ∀ t : Token, t.kind.Bears P → Step.Bears P (k t)) : Step.Bears P (afterToken k) :=
  fun s hs => h s.head hs.first s.next.2 hs.tail

mutual

theorem bears_statement (n : Nat) : Step.Bears P (statement n) := by
  intro s hs
  match n with
  | 0     =>
    rw [statement]
    exact bears_expressionStatement s hs
  | n + 1 =>
    rw [statement]
    have hclose {k : Token → Attempt n Statement} (h : ∀ t, (k t).Bears P) (start : Position) :
        (afterToken (fun t => closeStatement start (k t)) s).2.toInput.Bears P :=
      bears_afterToken (fun t _ => bears_closeStatement (h t) start) s hs
    cases StatementStart.ofTokens s.tokens with
    | typed name => exact hclose (fun t => bears_declarationStatement name t.position) _
    | word word  => exact hclose (fun t => bears_wordStatement n word t.position) _
    | brace      => exact hclose (fun t => bears_block n t.position) _
    | named type => exact hclose (fun t => bears_namedDeclaration type t.position) _
    | expression => exact bears_expressionStatement s hs
termination_by 4 * n

theorem bears_wordStatement (n : Nat) (word : Keyword) (position : Position) :
    Bears (n := n) P (wordStatement n word position) := by
  have hs : Bears P (below (statement n)) := .below (bears_statement n)
  cases word with
  | assertWord =>
    rw [wordStatement]
    exact bears_condition.bind fun _ => (bears_expectKind).bind fun _ =>
      bears_freshId.bind fun _ => .pure _
  | ifWord     =>
    rw [wordStatement]
    refine bears_condition.bind fun _ => hs.bind fun _ => .isAt_bind fun b => ?_
    cases b with
    | true  => exact .take_bind fun _ _ => hs.bind fun _ => bears_freshId.bind fun _ => .pure _
    | false => exact bears_freshId.bind fun _ => .pure _
  | whileWord  =>
    rw [wordStatement]
    exact bears_condition.bind fun _ => hs.bind fun _ => bears_freshId.bind fun _ => .pure _
  | systemWord =>
    rw [wordStatement]
    exact (bears_expectKind).bind fun _ => (bears_expectKind).bind fun _ =>
      (bears_expectKind).bind fun _ => (bears_expectKind).bind fun _ =>
        bears_condition.bind fun _ => (bears_expectKind).bind fun _ =>
          bears_freshId.bind fun _ => .pure _
  | returnWord =>
    rw [wordStatement]
    exact (Bears.lift (bears_expression n)).bind fun _ => (bears_expectKind).bind fun _ =>
      bears_freshId.bind fun _ => .pure _
  | _          =>
    rw [wordStatement.eq_def]
    exact .giveUp (.statementKeyword _) position trivial
termination_by 4 * n + 2

theorem bears_block (n : Nat) (position : Position) : Bears (n := n) P (block n position) := by
  rw [block]
  exact (Bears.lift (bears_statementList n)).bind fun _ => (bears_expectKind).bind fun _ =>
    bears_freshId.bind fun _ => .pure _
termination_by 4 * n + 2

theorem bears_statementList (n : Nat) : Step.Bears P (statementList n) := by
  intro s hs
  match n with
  | 0     =>
    rw [statementList]
    exact hs
  | n + 1 =>
    rw [statementList]
    dsimp only
    split
    case isTrue  => exact hs
    case isFalse => exact bears_statementList n _ (bears_statement (n + 1) s hs)
termination_by 4 * n + 1

end

theorem bears_skipClass (s : Cursor n) (h : s.toInput.Bears P) : (skipClass s).toInput.Bears P :=
  Cursor.bears_skipUntil _ h

theorem bears_skipMember (s : Cursor n) (h : s.toInput.Bears P) : (skipMember s).toInput.Bears P :=
  Cursor.bears_skipThrough _ h

theorem bears_parameter (n : Nat) : Step.Bears P (parameter n) :=
  (bears_typeRef.bind fun a => bears_variableAfter .formal a.1 a.2).recover bears_skipVariable

theorem bears_parameterList (n : Nat) : Bears P (parameterList n) := by
  induction n with
  | zero      =>
    exact (Bears.lift (bears_parameter 0)).bind fun _ => (bears_expectKind).bind fun _ => .pure _
  | succ n hi =>
    refine (Bears.lift (bears_parameter (n + 1))).bind fun first => .isAt_bind fun b => ?_
    cases b with
    | true  => exact .pure _
    | false =>
      refine .attemptAfter fun t ht =>
        (Bears.acceptToken (.token .comma) trivial ht).bind fun _ => ?_
      exact hi.bind fun _ => .pure _

theorem bears_method {t : Token} (ht : t.kind.Bears P) : Bears P (method t : Attempt n Member) := by
  refine (Bears.acceptToken (.token (.keyword .publicWord)) trivial ht).bind fun _ => ?_
  refine bears_typeRef.bind fun a => bears_expectIdentifier.bind fun b => ?_
  have hc (parameters : List VariableDeclaration) : Bears (n := n) P
      (do
        let _ ← expectKind .rightParen
        let _ ← expectKind .leftBrace
        let body ← statementList n
        let _ ← expectKind .rightBrace
        return Member.method ⟨← freshId, b.1, a.1, parameters, body, t.position⟩) :=
    (bears_expectKind).bind fun _ => (bears_expectKind).bind fun _ =>
      (Bears.lift (bears_statementList n)).bind fun _ => (bears_expectKind).bind fun _ =>
        bears_freshId.bind fun _ => .pure _
  refine (bears_expectKind).bind fun _ => .isAt_bind fun b => ?_
  cases b with
  | true  => exact hc []
  | false => exact (bears_parameterList n).bind hc

theorem bears_field (name : String) (position : Position) :
    Bears P (field name position : Attempt n Member) := by
  refine (bears_declarationAfter .field name position).bind fun o => ?_
  cases o with
  | none | some _ => exact .pure _

theorem bears_closeMember {body : Attempt n Member} (h : body.Bears P) (start : Position) :
    Step.Bears P (closeMember start body) :=
  fun s hs => h.recover bears_skipMember s hs

theorem bears_member : Step.Bears P (member (n := n)) := by
  intro s hs
  have hclose {k : Token → Attempt n Member} (h : ∀ t : Token, t.kind.Bears P → (k t).Bears P)
      (start : Position) : (afterToken (fun t => closeMember start (k t)) s).2.toInput.Bears P :=
    bears_afterToken (fun t ht => bears_closeMember (h t ht) start) s hs
  have hh := hs.first
  unfold member
  dsimp only
  split
  case h_1 | h_2 => exact hclose (fun t _ => bears_field _ t.position) _
  case h_3       => exact hclose (fun _ => bears_method) _
  case h_4       => exact hclose (fun _ _ => bears_reported) _
  case h_5       =>
    exact Cursor.bears_skipThrough _ (hs.report (.declarationStart s.head.kind) hh _)

theorem bears_memberList (n : Nat) : Step.Bears P (memberList n) := by
  induction n with
  | zero      => exact fun _ hs => hs
  | succ n hi =>
    intro s hs
    rw [memberList]
    dsimp only
    split
    case isTrue  => exact hs
    case isFalse => exact hi _ (bears_member s hs)

theorem bears_superclass : Bears P (superclass : Attempt n (Option String)) := by
  refine .isAt_bind fun b => ?_
  cases b with
  | true  => exact .pure none
  | false =>
    exact (bears_expectKind).bind fun _ => bears_expectIdentifier.bind fun _ => .pure _

theorem bears_classDeclaration {t : Token} (ht : t.kind.Bears P) :
    Bears P (classDeclaration t : Attempt n ClassDeclaration) :=
  (Bears.acceptToken (.token (.keyword .classWord)) trivial ht).bind fun _ =>
    bears_expectIdentifier.bind fun _ => bears_superclass.bind fun _ =>
      (bears_expectKind).bind fun _ => (Bears.lift (bears_memberList n)).bind fun _ =>
        (bears_expectKind).bind fun _ => bears_freshId.bind fun _ => .pure _

theorem bears_classList (n : Nat) : Step.Bears P (classList n) := by
  induction n with
  | zero      => exact fun _ hs => hs
  | succ n hi =>
    intro s hs
    rw [classList]
    dsimp only
    split
    case isTrue  => exact hs
    case isFalse =>
      refine hi _ (bears_afterToken (fun _ ht => ?_) s hs)
      exact (bears_classDeclaration ht).recover bears_skipClass

theorem bears_mainClass (h : P "void") (n : Nat) : Bears P (mainClass n) :=
  (bears_expectKind).bind fun _ => bears_expectIdentifier.bind fun _ =>
    (bears_expectKind).bind fun _ => (bears_expectKind).bind fun _ =>
      (bears_expectKind).bind fun _ => (bears_expectNamedType h).bind fun _ =>
        (bears_expectKind).bind fun _ => (bears_expectKind).bind fun _ =>
          (bears_expectKind).bind fun _ => (bears_expectKind).bind fun _ =>
            (Bears.lift (bears_statementList n)).bind fun _ => (bears_expectKind).bind fun _ =>
              (bears_expectKind).bind fun _ => bears_freshId.bind fun _ => .pure _

theorem bears_program (h : P "void") (n : Nat) : Step.Bears P (program n) :=
  fun s hs => bears_classList n _ ((bears_mainClass h n).recover bears_skipClass s hs)

end Reading

-- What a text is reported for is told in its own words, and `void`.
theorem ParsedProgram.bears_diagnostics {s : TokenStream} (h : ∀ t ∈ s.tokens, t.kind.Bears P)
    (hv : P "void") : ∀ d ∈ (ofStream s).diagnostics, d.Bears P := by
  intro d hd
  have hs : (Reading.Cursor.ofStream s).toInput.Bears P :=
    ⟨h, fun _ hd => absurd hd (by simp [Reading.Cursor.ofStream])⟩
  exact (Reading.bears_program hv _ _ hs).diagnostics d (Array.mem_toList_iff.mp hd)

end MiniJava
