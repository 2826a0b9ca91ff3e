import MiniJava.Proofs.Grammar.Start
import MiniJava.Proofs.Reading.Expression
import MiniJava.Tree.ReadStatement

namespace MiniJava.Reading

open Grammar

theorem passes_skipVariable (s : Cursor n) : Passes s.toInput (skipVariable s).toInput :=
  s.passes_skipUntil _

theorem passes_skipStatement (s : Cursor n) : Passes s.toInput (skipStatement s).toInput :=
  s.passes_skipThrough _

-- A type whose first token stands at `position`.
abbrev BuildsType (s : Input) (type : TypeRef) (position : Position) (s' : Input) : Prop :=
  Built [] 0 (∃ t l, s.tokens = t :: l ∧ t.position = position ∧ IsType s.tokens type s'.tokens) s s'

abbrev BuildsVariable (storage : Storage) (s : Input) (d : VariableDeclaration) (s' : Input) :
    Prop :=
  Built [d.id] 0 (IsVariable storage s.tokens d s'.tokens) s s'

def StartsElse (l : List Token) : Prop :=
  ∃ t r, l = t :: r ∧ t.kind = .keyword .elseWord

-- The reader takes an `else` whenever there is one. So a statement that is followed by one is
-- closed.
abbrev BuildsStatement (s : Input) (st : Statement) (s' : Input) : Prop :=
  Built st.nodeIds st.gaps
    (∀ closed, (closed = true → StartsElse s'.tokens) → IsStatement closed s.tokens st s'.tokens)
    s s'

namespace Attempt

variable {s : Cursor n}

theorem meets_typeAfter (ht : Takes s₀ t s.toInput) (hn : NamesType t name) :
    (typeAfter name).Meets base s fun type s' => BuildsType s₀ type t.position s' := by
  rw [typeAfter, meets_isAt_bind]
  split
  case isTrue hk =>
    have hk : s.head.kind = .leftBracket := by simpa using hk
    refine meets_take.bind ?_
    rintro _ s₁ _ ⟨_, hs₁⟩
    have hu : Takes s.toInput s.head s₁.toInput := hs₁ ▸ Cursor.takes_next (by simp [hk])
    refine (meets_expectKind).bind ?_
    rintro _ s₂ _ ⟨v, hv, _, hv'⟩
    refine .pure ?_
    refine (ht.trans hu).trans hv' |>.node rfl rfl ?_
    rintro ⟨⟨ht, hu⟩, hv'⟩
    rw [ht, hu, hv']
    exact ⟨_, _, rfl, rfl, .array hn hk hv⟩
  case isFalse =>
    refine .pure <| Built.node ht rfl rfl fun ht => ?_
    rw [ht]
    exact ⟨_, _, rfl, rfl, .plain hn⟩

theorem meets_typeRef :
    typeRef.Meets base s fun a s' => BuildsType s.toInput a.1 a.2 s' := by
  refine meets_expectType.bind ?_
  rintro ⟨⟨name, _⟩, p⟩ s₁ _ ⟨t, ht, hp, ht'⟩
  refine (meets_typeAfter ht' (namesType_of_typeName? ht)).bind fun type s₂ _ h => .pure ?_
  refine h.node rfl rfl ?_
  rintro ⟨t, l, hl, hq, h⟩
  exact ⟨t, l, hl, hq.trans hp.symm, h⟩

theorem meets_variableAfter (ht : BuildsType s₀ type position s.toInput) :
    (variableAfter storage type position).Meets base s (BuildsVariable storage s₀) := by
  refine meets_expectIdentifier.bind ?_
  rintro ⟨name, _⟩ s₁ _ ⟨u, hu, _, hu'⟩
  refine meets_freshId.bind ?_
  rintro i s₂ _ ⟨hi, hs₂⟩
  refine .pure ?_
  refine (ht.trans hu').trans hi |>.node rfl rfl ?_
  rintro ⟨⟨⟨t, l, hl, rfl, h⟩, hu'⟩, -⟩
  rw [hl, hu'] at h
  rw [hl, hs₂]
  exact .intro h hu

-- A declaration that is missing has been reported.
theorem meets_declarationAfter (ht : Takes s₀ t s.toInput) (hn : NamesType t name) :
    (declarationAfter storage name t.position).Meets base s fun o s' =>
      match o with
      | some d =>
        Built [d.id] 0 (∃ u, IsVariable storage s₀.tokens d (u :: s'.tokens) ∧ u.kind = .semicolon)
          s₀ s'
      | none => Passes s₀ s' ∧ s₀.diagnostics.size < s'.diagnostics.size := by
  have hd : Attempt.Meets s₀.diagnostics.size
      (do variableAfter storage (← typeAfter name) t.position) s (BuildsVariable storage s₀) :=
    (meets_typeAfter ht hn).bind fun type s₁ _ h => meets_variableAfter h
  have hr := hd.recover passes_skipVariable ht.passes.size_le
  refine hr.lift.bind fun o s₁ hp ho => (meets_expectKind).bind ?_
  rintro _ s₂ _ ⟨u, hu, _, hu'⟩
  refine .pure ?_
  match o with
  | some d =>
    refine Built.trans ho hu' |>.node rfl rfl ?_
    rintro ⟨hd, hu'⟩
    exact ⟨u, hu' ▸ hd, hu⟩
  | none =>
    exact ⟨(ht.passes.trans hp).trans hu'.passes, lt_of_lt_of_le ho hu'.passes.size_le⟩

theorem meets_declarationStatement (ht : Takes s₀ t s.toInput) (hn : NamesType t name) :
    (declarationStatement name t.position).Meets base s (BuildsStatement s₀) := by
  refine (meets_declarationAfter ht hn).bind fun o s₁ _ ho => ?_
  match o with
  | some d =>
    refine .pure <| ho.node rfl rfl ?_
    rintro ⟨u, hd, hu⟩ closed _
    exact .declare hd hu
  | none   => exact .pure <| .gap ho.1 ho.2

-- The tokens of the type are there already.
theorem meets_namedDeclaration (ht : Takes s₀ t s.toInput)
    (hl : StatementStart.Of (t :: s.tokens) (.named type)) :
    (namedDeclaration type t.position).Meets base s (BuildsStatement s₀) := by
  have hc (s₁ : Cursor n) (h : BuildsType s₀ type t.position s₁.toInput) :
      Attempt.Meets base (do
        let name ← expectIdentifier
        let _ ← expectKind .semicolon
        return .declare ⟨← freshId, name.1, type, .localSlot, t.position⟩) s₁
          (BuildsStatement s₀) := by
    refine meets_expectIdentifier.bind ?_
    rintro name s₂ _ ⟨u, hu, _, hu'⟩
    refine (meets_expectKind).bind ?_
    rintro _ s₃ _ ⟨v, hv, _, hv'⟩
    refine meets_freshId.bind ?_
    rintro i s₄ _ ⟨hi, hs₄⟩
    refine .pure ?_
    refine ((h.trans hu').trans hv').trans hi |>.node rfl rfl ?_
    rintro ⟨⟨⟨⟨t', l, hl, hp, h⟩, hu'⟩, hv'⟩, -⟩ closed _
    rw [hl, hu', hv'] at h
    rw [hl, hs₄, ← hp]
    exact .declare (.intro h hu) hv
  unfold namedDeclaration
  generalize hm : t :: s.tokens = m at hl
  cases hl with
  | array hk hu hv =>
    injection hm with ht' hm
    subst ht'
    refine meets_take.bind ?_
    rintro _ s₁ _ ⟨_, hs₁⟩
    refine meets_take.bind ?_
    rintro _ s₂ _ ⟨_, hs₂⟩
    have hm₁ : s₁.tokens = _ := (congrArg Input.tokens hs₁).trans (congrArg List.tail hm)
    have hu' : Takes s.toInput s.head s₁.toInput :=
      hs₁ ▸ Cursor.takes_next (by simp [Cursor.head_eq hm, hu])
    have hv' : Takes s₁.toInput s₁.head s₂.toInput :=
      hs₂ ▸ Cursor.takes_next (by simp [Cursor.head_eq hm₁, hv])
    refine hc s₂ <| (ht.trans hu').trans hv' |>.node rfl rfl ?_
    rintro ⟨⟨ht, hu'⟩, hv'⟩
    rw [ht, hu', hv', Cursor.head_eq hm, Cursor.head_eq hm₁]
    exact ⟨_, _, rfl, rfl, .array (.identifier hk) hu hv⟩
  | plain hk hu =>
    injection hm with ht' hm
    subst ht'
    exact hc s <| Built.node ht rfl rfl fun ht => ht ▸ ⟨_, _, rfl, rfl, .plain (.identifier hk)⟩

theorem meets_condition :
    (condition n).Meets base s fun e s' =>
      Built e.nodeIds e.gaps (IsCondition s.tokens e s'.tokens) s.toInput s' := by
  refine (meets_expectKind).bind ?_
  rintro _ s₁ _ ⟨t, ht, _, ht'⟩
  refine (meets_expression n s₁).lift.bind fun e s₂ _ he => ?_
  refine (meets_expectKind).bind ?_
  rintro _ s₃ _ ⟨u, hu, _, hu'⟩
  refine .pure ?_
  refine (ht'.trans he).trans hu' |>.node (by simp) (by simp) ?_
  rintro ⟨⟨ht', he⟩, hu'⟩
  rw [ht']
  exact .intro ht (hu' ▸ he) hu

theorem meets_report :
    (modify (Cursor.report error position) : Attempt n Unit).Meets base s fun _ s' =>
      s' = s.toInput.report error position :=
  fun _ => ⟨.report .., rfl⟩

-- Behind an expression there is a `=` with a value, or the end of a call.
theorem meets_statementAfter (hk : ∀ t r word, s₀.tokens = t :: r → t.kind ≠ .keyword word)
    {s₁ : Cursor m} (he : BuildsExpression IsExpression s₀ first s₁.toInput)
    (hs : s.toInput = s₁.next.2.toInput) :
    (statementAfter first s₁.head).Meets s₀.diagnostics.size s (BuildsStatement s₀) := by
  have ht (h : s₁.head.kind ≠ .endOfInput) : Takes s₁.toInput s₁.head s.toInput :=
    hs ▸ Cursor.takes_next h
  have hl {e m} (h : IsExpression s₀.tokens e m) :
      ∃ t l, s₀.tokens = t :: l ∧ ∀ word, t.kind ≠ .keyword word := by
    obtain ⟨t, l, hl, _⟩ := h.start
    exact ⟨t, l, hl, fun word => hk t l word hl⟩
  unfold statementAfter
  split
  case h_1 ha =>
    refine (meets_expression _ s).lift.bind fun value s₂ _ hv => ?_
    refine (meets_expectKind).bind ?_
    rintro _ s₃ _ ⟨u, hu, _, hu'⟩
    refine meets_freshId.bind ?_
    rintro i s₄ _ ⟨hi, hs₄⟩
    refine .pure ?_
    refine (((he.trans (ht (by simp [ha]))).trans hv).trans hu').trans hi
      |>.node (by simp [Statement.nodeIds]) (by simp [Statement.gaps]) ?_
    rintro ⟨⟨⟨⟨he, ht⟩, hv⟩, hu'⟩, -⟩ closed _
    obtain ⟨t, l, hl, hk⟩ := hl he
    rw [hl, ht] at he
    rw [hl, hs₄]
    exact .assign hk he ha (hu' ▸ hv) hu
  case h_2 =>
    refine (meets_acceptKind hs fun hd => ?lt).bind ?_
    case lt => exact hs ▸ lt_of_le_of_lt he.passes.size_le (Cursor.size_lt_next hd)
    rintro _ s₂ _ ⟨hu, hu'⟩
    split
    case h_1 i receiver method arguments position =>
      refine .pure <| he.trans hu' |>.node (by simp [Statement.nodeIds, Expression.nodeIds])
        (by simp [Statement.gaps, Expression.gaps]) ?_
      rintro ⟨he, hu'⟩ closed _
      obtain ⟨t, l, hl, hk⟩ := hl he
      rw [hl, hu'] at he
      rw [hl]
      exact .call hk he hu
    case h_2 =>
      refine .pure <| .gap (he.passes.trans hu'.passes) ?_
      exact lt_of_lt_of_le he.paid hu'.passes.size_le
    case h_3 =>
      refine meets_report.bind fun _ s₃ hp hs₃ => .pure <| .gap ?passes ?paid
      case passes => exact (he.passes.trans hu'.passes).trans hp
      case paid =>
        calc
          s₀.diagnostics.size ≤ s₂.diagnostics.size := Passes.size_le (he.passes.trans hu'.passes)
          _                   < s₃.diagnostics.size := by simp [hs₃, Input.report]

end Attempt

open Attempt

theorem leads_closeStatement {s : Cursor n} (hp : Passes s₀ s.toInput)
    (h : body.Meets s₀.diagnostics.size s (BuildsStatement s₀)) :
    Leads s₀ (BuildsStatement s₀) (closeStatement start body s) := by
  have hc : Leads s.toInput (BuildsStatement s₀) (closeStatement start body s) :=
    h.close passes_skipStatement hp.size_le fun s' hp' hs => .gap (hp.trans hp') hs
  exact ⟨hp.trans hc.passes, hc.holds⟩

theorem leads_expressionStatement {s : Cursor n}
    (hk : ∀ t r word, s.tokens = t :: r → t.kind ≠ .keyword word) :
    Leads s.toInput (BuildsStatement s.toInput) (expressionStatement s) := by
  have he := meets_expression n s
  exact leads_closeStatement (he.passes.trans (Cursor.passes_next _))
    (meets_statementAfter hk he.holds rfl)

mutual

theorem meets_statement (n : Nat) (s : Cursor n) :
    Leads s.toInput (BuildsStatement s.toInput) (statement n s) := by
  match n with
  | 0 =>
    rw [statement]
    refine leads_expressionStatement fun t r word h => ?_
    have := s.fits
    simp [h] at this
  | n + 1 =>
    rw [statement]
    have hs := StatementStart.of_ofTokens s.tokens
    split <;> rename_i h <;> rw [h] at hs
    all_goals generalize hl : s.tokens = l at hs
    case h_1 =>
      cases hs with | typed hk =>
      refine leads_closeStatement (Cursor.passes_next s) ?_
      have hk := Cursor.head_eq hl ▸ hk
      exact meets_declarationStatement (Cursor.takes_next (by simp [hk])) (.typeName hk)
    case h_2 =>
      cases hs with | word hk =>
      refine leads_closeStatement (Cursor.passes_next s) ?_
      have hk := Cursor.head_eq hl ▸ hk
      exact meets_wordStatement n _ (Cursor.takes_next (by simp [hk])) hk
    case h_3 =>
      cases hs with | brace hk =>
      refine leads_closeStatement (Cursor.passes_next s) ?_
      have hk := Cursor.head_eq hl ▸ hk
      exact meets_block n _ (Cursor.takes_next (by simp [hk])) hk
    case h_4 =>
      have hk : s.head.kind ≠ .endOfInput := by
        cases hs with | array hk | plain hk => simp [Cursor.head_eq hl, hk]
      refine leads_closeStatement (Cursor.passes_next s) ?_
      refine meets_namedDeclaration (Cursor.takes_next hk) ?_
      exact Cursor.tokens_eq_cons hk ▸ hl ▸ hs
    case h_5 =>
      cases hs with | expression hk =>
      exact leads_expressionStatement (hl ▸ hk)
termination_by 4 * n

theorem meets_wordStatement (n : Nat) (s : Cursor n) (ht : Takes s₀ t s.toInput)
    (hk : t.kind = .keyword word) :
    (wordStatement n word t.position).Meets base s (BuildsStatement s₀) := by
  rw [wordStatement.eq_def]
  split
  case h_1 =>
    refine meets_condition.bind fun value s₁ _ he => ?_
    refine (meets_expectKind).bind ?_
    rintro _ s₂ _ ⟨u, hu, _, hu'⟩
    refine meets_freshId.bind ?_
    rintro i s₃ _ ⟨hi, hs₃⟩
    refine .pure ?_
    refine ((ht.trans he).trans hu').trans hi
      |>.node (by simp [Statement.nodeIds]) (by simp [Statement.gaps]) ?_
    rintro ⟨⟨⟨ht, he⟩, hu'⟩, -⟩ closed _
    rw [ht, hs₃]
    exact .assert hk (hu' ▸ he) hu
  case h_2 =>
    refine meets_condition.bind fun value s₁ _ he => ?_
    refine (Meets.below (meets_statement n s₁)).bind fun onTrue s₂ _ hs => ?_
    rw [meets_isAt_bind]
    split
    case isTrue hu =>
      have hu : s₂.head.kind = .keyword .elseWord := by simpa using hu
      refine meets_take.bind ?_
      rintro _ s₃ _ ⟨_, hs₃⟩
      have hu' : Takes s₂.toInput s₂.head s₃.toInput := hs₃ ▸ Cursor.takes_next (by simp [hu])
      refine (Meets.below (meets_statement n s₃)).bind fun onFalse s₄ _ hf => ?_
      refine meets_freshId.bind ?_
      rintro i s₅ _ ⟨hi, hs₅⟩
      refine .pure ?_
      refine ((((ht.trans he).trans hs).trans hu').trans hf).trans hi
        |>.node (by simp [Statement.nodeIds]) (by simp [Statement.gaps]) ?_
      rintro ⟨⟨⟨⟨⟨ht, he⟩, hs⟩, hu'⟩, hf⟩, -⟩ closed hc
      rw [ht, hs₅]
      rw [hs₅] at hc
      exact .ifThenElse hk he (hu' ▸ hs true fun _ => ⟨_, _, hu', hu⟩) hu (hf closed hc)
    case isFalse hu =>
      refine meets_freshId.bind ?_
      rintro i s₃ _ ⟨hi, hs₃⟩
      refine .pure ?_
      refine ((ht.trans he).trans hs).trans hi
        |>.node (by simp [Statement.nodeIds]) (by simp [Statement.gaps]) ?_
      rintro ⟨⟨⟨ht, he⟩, hs⟩, -⟩ closed hc
      have hf : closed = false := by
        by_contra ho
        obtain ⟨u, r, hl, hk⟩ := hc (by simpa using ho)
        rw [hs₃] at hl
        exact hu (by simp [Cursor.head_eq hl, hk])
      rw [ht, hs₃, hf]
      exact .ifThen hk he (hs false nofun)
  case h_3 =>
    refine meets_condition.bind fun value s₁ _ he => ?_
    refine (Meets.below (meets_statement n s₁)).bind fun body s₂ _ hs => ?_
    refine meets_freshId.bind ?_
    rintro i s₃ _ ⟨hi, hs₃⟩
    refine .pure ?_
    refine ((ht.trans he).trans hs).trans hi
      |>.node (by simp [Statement.nodeIds]) (by simp [Statement.gaps]) ?_
    rintro ⟨⟨⟨ht, he⟩, hs⟩, -⟩ closed hc
    rw [ht, hs₃]
    exact .loop hk he (hs closed (hs₃ ▸ hc))
  case h_4 =>
    refine (meets_expectKind).bind ?_
    rintro _ s₁ _ ⟨u, hu, _, hu'⟩
    refine (meets_expectKind).bind ?_
    rintro _ s₂ _ ⟨v, hv, _, hv'⟩
    refine (meets_expectKind).bind ?_
    rintro _ s₃ _ ⟨w, hw, _, hw'⟩
    refine (meets_expectKind).bind ?_
    rintro _ s₄ _ ⟨x, hx, _, hx'⟩
    refine meets_condition.bind fun value s₅ _ he => ?_
    refine (meets_expectKind).bind ?_
    rintro _ s₆ _ ⟨y, hy, _, hy'⟩
    refine meets_freshId.bind ?_
    rintro i s₇ _ ⟨hi, hs₇⟩
    refine .pure ?_
    refine ((ht.trans hu').trans (hv'.trans hw')).trans ((hx'.trans he).trans (hy'.trans hi))
      |>.node (by simp [Statement.nodeIds]) (by simp [Statement.gaps]) ?_
    rintro ⟨⟨⟨ht, hu'⟩, hv', hw'⟩, ⟨hx', he⟩, hy', -⟩ closed _
    rw [ht, hu', hv', hw', hx', hs₇]
    exact .print hk hu hv hw hx (hy' ▸ he) hy
  case h_5 =>
    refine (meets_expression n s).lift.bind fun value s₁ _ he => ?_
    refine (meets_expectKind).bind ?_
    rintro _ s₂ _ ⟨u, hu, _, hu'⟩
    refine meets_freshId.bind ?_
    rintro i s₃ _ ⟨hi, hs₃⟩
    refine .pure ?_
    refine ((ht.trans he).trans hu').trans hi
      |>.node (by simp [Statement.nodeIds]) (by simp [Statement.gaps]) ?_
    rintro ⟨⟨⟨ht, he⟩, hu'⟩, -⟩ closed _
    rw [ht, hs₃]
    exact .ret hk (hu' ▸ he) hu
  case h_6 => exact .giveUp
termination_by 4 * n + 2

theorem meets_block (n : Nat) (s : Cursor n) (ht : Takes s₀ t s.toInput)
    (hk : t.kind = .leftBrace) :
    (block n t.position).Meets base s (BuildsStatement s₀) := by
  rw [block]
  refine (meets_statementList n s).lift.bind fun body s₁ _ hb => ?_
  refine (meets_expectKind).bind ?_
  rintro _ s₂ _ ⟨u, hu, _, hu'⟩
  refine meets_freshId.bind ?_
  rintro i s₃ _ ⟨hi, hs₃⟩
  refine .pure ?_
  refine ((ht.trans hb).trans hu').trans hi
    |>.node (by simp [Statement.nodeIds]) (by simp [Statement.gaps]) ?_
  rintro ⟨⟨⟨ht, hb⟩, hu'⟩, -⟩ closed _
  rw [ht, hs₃]
  exact .block hk (hu' ▸ hb) hu
termination_by 4 * n + 2

theorem meets_statementList (n : Nat) (s : Cursor n) :
    (statementList n).Meets s fun ss s' =>
      Built (Statement.nodeIdsOf ss) (Statement.gapsOf ss) (IsStatements s.tokens ss s'.tokens)
        s.toInput s' := by
  have hn : Built [] 0 (IsStatements s.tokens [] s.tokens) s.toInput s.toInput :=
    .node (.refl _) rfl rfl fun _ => .nil
  match n with
  | 0 =>
    rw [statementList]
    exact ⟨.refl, hn⟩
  | n + 1 =>
    rw [statementList]
    unfold Step.Meets
    dsimp only
    split
    case isTrue  => exact ⟨.refl, hn⟩
    case isFalse =>
      have hs := meets_statement (n + 1) s
      have hss := meets_statementList n (statement (n + 1) s).2
      refine ⟨hs.passes.trans hss.passes, hs.holds.trans hss.holds |>.node rfl rfl ?_⟩
      rintro ⟨hs, hss⟩
      exact .cons (hs false nofun) hss
termination_by 4 * n + 1

end

end MiniJava.Reading
