import MiniJava.Proofs.Reading.Complete.Expression
import MiniJava.Proofs.Reading.Statement

namespace MiniJava.Reading

open Grammar Attempt

abbrev LikeVariable (d d' : VariableDeclaration) : Prop :=
  d'.unnumbered = d.unnumbered

abbrev LikeStatement (st st' : Statement) : Prop :=
  st'.unnumbered = st.unnumbered

abbrev LikeStatements (ss ss' : List Statement) : Prop :=
  Statement.unnumberedOf ss' = Statement.unnumberedOf ss

theorem yields_typeAfter (h : IsType (t :: l) type (u :: r)) (hu : u.kind = .identifier x)
    (s : Cursor n) (hs : s.tokens = l) : (typeAfter type.name).Yields s (· = type) (u :: r) := by
  rw [typeAfter, yields_isAt_bind]
  cases h with
  | plain =>
    rw [Cursor.head_eq hs, if_neg (by simp [hu])]
    exact .pure rfl hs
  | array _ hv hw =>
    rw [Cursor.head_eq hs, if_pos (by simp [hv])]
    refine (yields_take hs (by rw [hv]; rfl)).bind fun _ s₁ _ hs₁ => ?_
    exact (yields_expectKind hs₁ hw).bind fun _ s₂ _ hs₂ => .pure rfl hs₂

theorem yields_typeRef (h : IsType (t :: l) type (u :: r)) (hu : u.kind = .identifier x)
    (s : Cursor n) (hs : s.tokens = t :: l) :
    typeRef.Yields s (· = (type, t.position)) (u :: r) := by
  obtain ⟨t', l', hl, hn⟩ := h.start
  obtain ⟨rfl, rfl⟩ := List.cons.inj hl
  refine (yields_expectType s hs hn).bind ?_
  rintro ⟨⟨name, _⟩, p⟩ s₁ ⟨hname, hp⟩ hs₁
  obtain ⟨rfl, rfl⟩ : name = _ ∧ p = _ := ⟨hname, hp⟩
  exact (yields_typeAfter h hu s₁ hs₁).bind fun type' s₂ ht hs₂ => .pure (by rw [ht]) hs₂

theorem yields_variableAfter (hu : u.kind = .identifier name) (s : Cursor n)
    (hs : s.tokens = u :: r) :
    (variableAfter storage type position).Yields s
      (LikeVariable ⟨i, name, type, storage, position⟩) r := by
  refine (yields_expectIdentifier hs hu).bind ?_
  rintro ⟨_, _⟩ s₁ ha hs₁
  obtain ⟨rfl, rfl⟩ := Prod.mk.inj ha
  exact yields_freshId.bind fun i s₂ _ hs₂ => .pure rfl (hs₂.trans hs₁)

-- A declaration from behind the name of its type.
theorem yields_declarationAfter (h : IsType (t :: l) type (u :: v :: r))
    (hu : u.kind = .identifier name) (hv : v.kind = .semicolon) (s : Cursor n)
    (hs : s.tokens = l) :
    (declarationAfter storage type.name t.position).Yields s
      (fun o => ∃ d, o = some d ∧ LikeVariable ⟨i, name, type, storage, t.position⟩ d) r := by
  refine .bind (Step.Yields.lift (Step.yields_recover ?_)) fun o s₁ ho hs₁ =>
    (yields_expectKind hs₁ hv).bind fun _ s₂ _ hs₂ => .pure ho hs₂
  refine (yields_typeAfter h hu s hs).bind fun _ s₁ ht hs₁ => ?_
  exact ht ▸ yields_variableAfter hu s₁ hs₁

theorem yields_condition (h : IsCondition l e r) (s : Cursor n) (hs : s.tokens = l) :
    (condition n).Yields s (Like e) r := by
  cases h with | intro ht he hu =>
  refine (yields_expectKind hs ht).bind fun _ s₁ _ hs₁ => ?_
  refine (he.reads.expression (stops_of_kind hu id) s₁ hs₁).lift.bind fun e' s₂ he hs₂ => ?_
  exact (yields_expectKind hs₂ hu).bind fun _ s₃ _ hs₃ => .pure he hs₃

theorem finds_closeStatement {body : Attempt n Statement} (h : body.Yields s P r) :
    Finds s.toInput P r (closeStatement start body s) :=
  Step.yields_close h

theorem finds_statementAfter {body : Token → Attempt n Statement} {s : Cursor (n + 1)}
    (hs : s.tokens = t :: l) (hd : t.kind.defect? = none)
    (h : ∀ s', s'.tokens = l → (body t).Yields s' P r) :
    Finds s.toInput P r (afterToken (fun t => closeStatement start (body t)) s) :=
  finds_afterToken hs hd fun s' hs' => finds_closeStatement (h s' hs')

theorem isType_kind_head (h : IsType (t :: l) type r) : t.kind.defect? = none := by
  obtain ⟨_, _, hl, hn⟩ := h.start
  rw [(List.cons.inj hl).1]
  cases hn with | identifier hk | typeName hk => rw [hk]; rfl

theorem yields_namedDeclaration (h : IsType (t :: l) type (u :: v :: r))
    (hu : u.kind = .identifier name) (hv : v.kind = .semicolon) (s : Cursor n)
    (hs : s.tokens = l) :
    (namedDeclaration type t.position).Yields s
      (LikeStatement (.declare ⟨i, name, type, .localSlot, t.position⟩)) r := by
  have hc (s₁ : Cursor n) (hs₁ : s₁.tokens = u :: v :: r) :
      Attempt.Yields (do
        let name ← expectIdentifier
        let _ ← expectKind .semicolon
        return .declare ⟨← freshId, name.1, type, .localSlot, t.position⟩) s₁
        (LikeStatement (.declare ⟨i, name, type, .localSlot, t.position⟩)) r := by
    refine (yields_expectIdentifier hs₁ hu).bind ?_
    rintro ⟨_, _⟩ s₂ ha hs₂
    obtain ⟨rfl, rfl⟩ := Prod.mk.inj ha
    refine (yields_expectKind hs₂ hv).bind fun _ s₃ _ hs₃ => ?_
    exact yields_freshId.bind fun j s₄ _ hs₄ => .pure rfl (hs₄.trans hs₃)
  cases h with
  | plain => exact hc s hs
  | array _ hx hy =>
    refine (yields_take hs (by rw [hx]; rfl)).bind fun _ s₁ _ hs₁ => ?_
    exact (yields_take hs₁ (by rw [hy]; rfl)).bind fun _ s₂ _ hs₂ => hc s₂ hs₂

theorem finds_declaration (h : IsVariable .localSlot l d (v :: r)) (hv : v.kind = .semicolon)
    (s : Cursor n) (hs : s.tokens = l) :
    Finds s.toInput (LikeStatement (.declare d)) r (statement n s) := by
  cases h with | intro h hu =>
  obtain ⟨n, rfl⟩ := s.exists_succ hs
  rw [statement, hs]
  rcases StatementStart.ofTokens_of_isType h hu with ho | ho <;> rw [ho]
  case inl =>
    refine finds_statementAfter hs (isType_kind_head h) fun s₁ hs₁ => ?_
    refine (yields_declarationAfter (i := 0) h hu hv s₁ hs₁).bind fun o s₂ ho hs₂ => ?_
    obtain ⟨d, rfl, hd⟩ := ho
    exact .pure (congrArg Statement.declare hd) hs₂
  case inr => exact finds_statementAfter hs (isType_kind_head h) (yields_namedDeclaration h hu hv)

-- A statement that starts with an expression goes on behind the token after it.
theorem finds_expressionStatement {s : Cursor n} (he : IsExpression s.tokens e (u :: l))
    (hu : u.kind = .assign ∨ u.kind = .semicolon)
    (h : ∀ {n} (s : Cursor n) first, s.tokens = l → Like e first →
      (statementAfter first u).Yields s P r) :
    Finds s.toInput P r (expressionStatement s) := by
  have hr : Stops BinaryOperator.levels (u :: l) := by
    rcases hu with hu | hu <;> exact stops_of_kind hu id
  have hd : u.kind.defect? = none := by rcases hu with hu | hu <;> rw [hu] <;> rfl
  obtain ⟨hl, hs₁, hq⟩ := he.reads.expression hr s rfl
  have ht := Cursor.takesTo_next hs₁ hd
  obtain rfl := Cursor.head_eq hs₁
  have hf : Finds _ P r (expressionStatement s) :=
    .after ht (finds_closeStatement (h _ _ ht.tokens hl))
  exact ⟨hf.holds, hf.tokens, hf.quiet.trans hq⟩

theorem finds_assign (hk : ∀ word, t.kind ≠ .keyword word)
    (ht : IsExpression (t :: l) target (u :: m)) (hu : u.kind = .assign)
    (he : IsExpression m value (v :: r)) (hv : v.kind = .semicolon) (s : Cursor n)
    (hs : s.tokens = t :: l) :
    Finds s.toInput (LikeStatement (.assign i target value u.position)) r (statement n s) := by
  obtain ⟨n, rfl⟩ := s.exists_succ hs
  rw [statement, hs, StatementStart.ofTokens_of_isLevel ht hk (.inl hu)]
  refine finds_expressionStatement (hs ▸ ht) (.inl hu) fun s₁ first hs₁ hf => ?_
  unfold statementAfter
  rw [hu]
  refine (he.reads.expression (stops_of_kind hv id) s₁ hs₁).lift.bind fun e s₂ he hs₂ => ?_
  refine (yields_expectKind hs₂ hv).bind fun _ s₃ _ hs₃ => ?_
  refine yields_freshId.bind fun j s₄ _ hs₄ => .pure ?_ (hs₄.trans hs₃)
  simp [LikeStatement, Statement.unnumbered, hf, he]

theorem finds_call (hk : ∀ word, t.kind ≠ .keyword word)
    (he : IsExpression (t :: l) (.call i receiver method arguments p) (u :: r))
    (hu : u.kind = .semicolon) (s : Cursor n) (hs : s.tokens = t :: l) :
    Finds s.toInput (LikeStatement (.call i receiver method arguments p)) r (statement n s) := by
  obtain ⟨n, rfl⟩ := s.exists_succ hs
  rw [statement, hs, StatementStart.ofTokens_of_isLevel he hk (.inr hu)]
  refine finds_expressionStatement (hs ▸ he) (.inr hu) fun s₁ first hs₁ hf => ?_
  unfold statementAfter
  rw [hu]
  refine (yields_acceptToken (a := ()) (by simp [hu, ofKind])).bind fun _ s₂ _ hs₂ => ?_
  cases first <;> simp only [Like, Expression.unnumbered, reduceCtorEq, Expression.call.injEq] at hf
  case call =>
    refine .pure ?_ (hs₂.trans hs₁)
    simpa [LikeStatement, Statement.unnumbered] using hf

theorem Cursor.head_ne_else {s : Cursor n} (h : ¬StartsElse s.tokens) :
    s.head.kind ≠ .keyword .elseWord := by
  intro hk
  exact h ⟨_, _, Cursor.tokens_eq_cons (by simp [hk]), hk⟩

end MiniJava.Reading

namespace MiniJava.Grammar

open Reading Attempt

theorem IsStatements.not_startsElse (h : IsStatements l ss r) (hr : r = u :: m)
    (hu : u.kind = .rightBrace) : ¬StartsElse l := by
  rintro ⟨t, m', hl, ht⟩
  cases h with
  | nil =>
    obtain ⟨rfl, -⟩ := List.cons.inj (hl.symm.trans hr)
    simp [ht] at hu
  | cons hs =>
    obtain ⟨t', m'', hl', hs⟩ := hs.start
    obtain ⟨rfl, -⟩ := List.cons.inj (hl.symm.trans hl')
    exact ne_of_startsStatement hs rfl ht

mutual

theorem IsStatement.reads : IsStatement closed l st r → (closed = false → ¬StartsElse r) →
    ∀ ⦃n⦄ (s : Cursor n), s.tokens = l → Finds s.toInput (LikeStatement st) r (statement n s)
  | .declare hd hv, _, n, s, hs => finds_declaration hd hv s hs
  | .assign hk ht hu he hv, _, n, s, hs => finds_assign hk ht hu he hv s hs
  | .call hk he hu, _, n, s, hs => finds_call hk he hu s hs
  | .print hk hu hv hw hx he hy, _, n, s, hs => by
    obtain ⟨n, rfl⟩ := s.exists_succ hs
    rw [statement, hs, StatementStart.ofTokens_of_keyword hk]
    refine finds_statementAfter hs (by rw [hk]; rfl) fun s₁ hs₁ => ?_
    rw [wordStatement]
    refine (yields_expectKind hs₁ hu).bind fun _ s₂ _ hs₂ => ?_
    refine (yields_expectKind hs₂ hv).bind fun _ s₃ _ hs₃ => ?_
    refine (yields_expectKind hs₃ hw).bind fun _ s₄ _ hs₄ => ?_
    refine (yields_expectKind hs₄ hx).bind fun _ s₅ _ hs₅ => ?_
    refine (yields_condition he s₅ hs₅).bind fun e s₆ he hs₆ => ?_
    refine (yields_expectKind hs₆ hy).bind fun _ s₇ _ hs₇ => ?_
    refine yields_freshId.bind fun i s₈ _ hs₈ => .pure ?_ (hs₈.trans hs₇)
    simp [LikeStatement, Statement.unnumbered, he]
  | .ret hk he hu, _, n, s, hs => by
    obtain ⟨n, rfl⟩ := s.exists_succ hs
    rw [statement, hs, StatementStart.ofTokens_of_keyword hk]
    refine finds_statementAfter hs (by rw [hk]; rfl) fun s₁ hs₁ => ?_
    rw [wordStatement]
    refine (he.reads.expression (stops_of_kind hu id) s₁ hs₁).lift.bind fun e s₂ he hs₂ => ?_
    refine (yields_expectKind hs₂ hu).bind fun _ s₃ _ hs₃ => ?_
    refine yields_freshId.bind fun i s₄ _ hs₄ => .pure ?_ (hs₄.trans hs₃)
    simp [LikeStatement, Statement.unnumbered, he]
  | .assert hk he hu, _, n, s, hs => by
    obtain ⟨n, rfl⟩ := s.exists_succ hs
    rw [statement, hs, StatementStart.ofTokens_of_keyword hk]
    refine finds_statementAfter hs (by rw [hk]; rfl) fun s₁ hs₁ => ?_
    rw [wordStatement]
    refine (yields_condition he s₁ hs₁).bind fun e s₂ he hs₂ => ?_
    refine (yields_expectKind hs₂ hu).bind fun _ s₃ _ hs₃ => ?_
    refine yields_freshId.bind fun i s₄ _ hs₄ => .pure ?_ (hs₄.trans hs₃)
    simp [LikeStatement, Statement.unnumbered, he]
  | .block hk hb hu, _, n, s, hs => by
    obtain ⟨n, rfl⟩ := s.exists_succ hs
    rw [statement, hs, StatementStart.ofTokens_of_leftBrace hk]
    refine finds_statementAfter hs (by rw [hk]; rfl) fun s₁ hs₁ => ?_
    rw [block]
    refine (hb.reads rfl hu s₁ hs₁).lift.bind fun body s₂ hb hs₂ => ?_
    refine (yields_expectKind hs₂ hu).bind fun _ s₃ _ hs₃ => ?_
    refine yields_freshId.bind fun i s₄ _ hs₄ => .pure ?_ (hs₄.trans hs₃)
    simp [LikeStatement, Statement.unnumbered, hb]
  | .ifThen hk he ht, hr, n, s, hs => by
    obtain ⟨n, rfl⟩ := s.exists_succ hs
    rw [statement, hs, StatementStart.ofTokens_of_keyword hk]
    refine finds_statementAfter hs (by rw [hk]; rfl) fun s₁ hs₁ => ?_
    rw [wordStatement]
    refine (yields_condition he s₁ hs₁).bind fun e s₂ he hs₂ => ?_
    refine (Yields.below (ht.reads hr s₂ hs₂)).bind fun onTrue s₃ ht hs₃ => ?_
    have hn := Cursor.head_ne_else (hs₃ ▸ hr rfl)
    rw [yields_isAt_bind, if_neg (by simpa using hn)]
    refine yields_freshId.bind fun i s₄ _ hs₄ => .pure ?_ (hs₄.trans hs₃)
    simp [LikeStatement, Statement.unnumbered, he, ht]
  | .ifThenElse hk he ht hu hf, hr, n, s, hs => by
    obtain ⟨n, rfl⟩ := s.exists_succ hs
    rw [statement, hs, StatementStart.ofTokens_of_keyword hk]
    refine finds_statementAfter hs (by rw [hk]; rfl) fun s₁ hs₁ => ?_
    rw [wordStatement]
    refine (yields_condition he s₁ hs₁).bind fun e s₂ he hs₂ => ?_
    refine (Yields.below (ht.reads nofun s₂ hs₂)).bind fun onTrue s₃ ht hs₃ => ?_
    rw [yields_isAt_bind, Cursor.head_eq hs₃, if_pos (by simp [hu])]
    refine (yields_take hs₃ (by rw [hu]; rfl)).bind fun _ s₄ _ hs₄ => ?_
    refine (Yields.below (hf.reads hr s₄ hs₄)).bind fun onFalse s₅ hf hs₅ => ?_
    refine yields_freshId.bind fun i s₆ _ hs₆ => .pure ?_ (hs₆.trans hs₅)
    simp [LikeStatement, Statement.unnumbered, he, ht, hf]
  | .loop hk he hb, hr, n, s, hs => by
    obtain ⟨n, rfl⟩ := s.exists_succ hs
    rw [statement, hs, StatementStart.ofTokens_of_keyword hk]
    refine finds_statementAfter hs (by rw [hk]; rfl) fun s₁ hs₁ => ?_
    rw [wordStatement]
    refine (yields_condition he s₁ hs₁).bind fun e s₂ he hs₂ => ?_
    refine (Yields.below (hb.reads hr s₂ hs₂)).bind fun body s₃ hb hs₃ => ?_
    refine yields_freshId.bind fun i s₄ _ hs₄ => .pure ?_ (hs₄.trans hs₃)
    simp [LikeStatement, Statement.unnumbered, he, hb]

theorem IsStatements.reads : IsStatements l ss r → r = u :: m → u.kind = .rightBrace →
    ∀ ⦃n⦄ (s : Cursor n), s.tokens = l → (statementList n).Yields s (LikeStatements ss) r
  | .nil, hr, hu, n, s, hs => by
    obtain ⟨n, rfl⟩ := s.exists_succ (hs.trans hr)
    rw [statementList]
    have hk := Cursor.head_eq (hs.trans hr) ▸ hu
    simp only [Step.Yields, hk, decide_true, Bool.or_true, if_true]
    exact ⟨rfl, hs, rfl⟩
  | .cons h hss, hr, hu, n, s, hs => by
    obtain ⟨t, l, hl, ht⟩ := h.start
    obtain ⟨n, rfl⟩ := s.exists_succ (hs.trans hl)
    have hn : t.kind ≠ .rightBrace := ne_of_startsStatement ht
    have hk := Cursor.head_eq (hs.trans hl) ▸ hn
    rw [statementList]
    simp only [Step.Yields, hs, hl, hk, List.isEmpty_cons, decide_false, Bool.or_false]
    have hf := h.reads (fun _ => hss.not_startsElse hr hu) s hs
    have hfs := hss.reads hr hu _ hf.tokens
    exact ⟨congrArg₂ List.cons hf.holds hfs.holds, hfs.tokens, hfs.quiet.trans hf.quiet⟩

end

end MiniJava.Grammar
