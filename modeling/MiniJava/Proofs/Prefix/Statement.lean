import MiniJava.Proofs.Prefix.Expression
import MiniJava.Proofs.Reading.Places

namespace MiniJava

namespace Reading.StatementStart

-- Behind a name that an expression starts with.
theorem kind_of_ofTokens (stop : Position) (ht : t.kind = .identifier name)
    (h : ofTokens (t :: l) = .expression) :
    (∀ x, (firstOf stop l).kind ≠ .identifier x) ∧
      ((firstOf stop l).kind = .leftBracket → (firstOf stop l.tail).kind ≠ .rightBracket) := by
  match l with
  | []          => exact ⟨nofun, nofun⟩
  | [u]         =>
    refine ⟨fun x hu => ?_, fun _ => nofun⟩
    have hu : u.kind = .identifier x := hu
    simp [ofTokens, ht, hu] at h
  | u :: v :: l =>
    refine ⟨fun x hu => ?identifier, fun hu hv => ?brackets⟩
    case identifier =>
      have hu : u.kind = .identifier x := hu
      simp [ofTokens, ht, hu] at h
    case brackets =>
      have hu : u.kind = .leftBracket := hu
      have hv : v.kind = .rightBracket := hv
      simp [ofTokens, ht, hu, hv] at h

end Reading.StatementStart

namespace Prefix

open Reading

namespace State

variable {K : List Goal}

theorem step_brackets (hk : kind ≠ .leftBracket) :
    step ⟨f, .brackets :: K⟩ kind = step ⟨false, K⟩ kind := by
  simp [step, verdict, Goal.react, hk]

theorem step_orElse (hk : kind ≠ .keyword .elseWord) :
    step ⟨f, .orElse :: K⟩ kind = step ⟨false, K⟩ kind := by
  simp [step, verdict, Goal.react, hk]

theorem step_statements (hk : kind ≠ .rightBrace) :
    step ⟨f, .statements :: K⟩ kind = step ⟨false, .statement :: .statements :: K⟩ kind := by
  have hr : Goal.react f kind .statements =
      .ofStart ((statementStart kind).map (· ++ [.statements])) := if_neg hk
  rw [step_of_ofStart hr, step_of_ofStart rfl, Verdict.ofStart_map_append]
  rfl

-- Only a call may end in a `;`.
theorem step_ending (hk : kind ≠ .assign) :
    step ⟨true, .ending :: K⟩ kind = step ⟨false, .exact .semicolon :: K⟩ kind := by
  cases kind <;> first | rfl | exact absurd rfl hk

theorem step_ending_of_not_call (hk : kind ≠ .assign) : step ⟨false, .ending :: K⟩ kind = .stuck := by
  cases kind <;> first | rfl | exact absurd rfl hk

theorem step_statement (h : StatementStart.ofTokens l = .expression)
    (hk : ∀ name, (firstOf stop l).kind ≠ .identifier name) :
    step ⟨f, .statement :: K⟩ (firstOf stop l).kind =
      step ⟨false, .expression :: .ending :: K⟩ (firstOf stop l).kind := by
  have he : statementStart (firstOf stop l).kind =
      (expressionStart (firstOf stop l).kind).map (· ++ [.ending]) := by
    cases l with
    | nil      => rfl
    | cons t l =>
      have hk : ∀ name, t.kind ≠ .identifier name := hk
      rw [show firstOf stop (t :: l) = t from rfl]
      cases ht : t.kind <;> simp_all [StatementStart.ofTokens, statementStart]
  rw [step_of_ofStart rfl, step_of_ofStart rfl, he, Verdict.ofStart_map_append]
  rfl

theorem step_afterName (hi : ∀ name, kind ≠ .identifier name) (hb : kind ≠ .leftBracket) :
    step ⟨false, .afterName :: K⟩ kind =
      step ⟨false, .tail false :: .operators false 0 :: .ending :: K⟩ kind := by
  cases kind with
  | identifier _ => exact absurd rfl (hi _)
  | leftBracket  => exact absurd rfl hb
  | operator op  =>
    have := op.precedence_le_levels
    simp [step, verdict, Goal.react, this]
  | _            => rfl

theorem step_afterBracket (hk : kind ≠ .rightBracket) :
    step ⟨false, .afterBracket :: K⟩ kind =
      step ⟨false, .expression :: .exact .rightBracket :: .tail false :: .operators false 0 ::
        .ending :: K⟩ kind := by
  have hr : Goal.react false kind .afterBracket = .ofStart ((expressionStart kind).map
      (· ++ [.exact .rightBracket, .tail false, .operators false 0, .ending])) := if_neg hk
  rw [step_of_ofStart hr, step_of_ofStart rfl, Verdict.ofStart_map_append]
  rfl

theorem exists_after_of_serves {σ σ' : State} {stop : Position}
    (hk : σ'.Serves σ (firstOf stop (l ++ r)).kind) (h : σ.after l = some σ₁) :
    ∃ σ₂, σ'.after l = some σ₂ ∧ σ₂.Serves σ₁ (firstOf stop r).kind :=
  exists_after_append (l := []) rfl hk h

-- Tokens behind a name that tell whether it is a type. Whether a statement that starts with an
-- identifier is a declaration is found out by its first three tokens. Its goals tell the two apart
-- when they see the difference, and do the same from there on.
def tellsType : TokenKind → Bool
  | .identifier _ | .leftBracket => true
  | _                            => false

-- A name may be all of what is read, unless what stands behind it tells whether it is a type.
theorem exists_after_statement (stop : Position)
    (hs : StatementStart.ofTokens (l ++ r) = .expression)
    (h : after ⟨false, .expression :: .ending :: K⟩ l = some σ)
    (hr : tellsType (firstOf stop r).kind → σ.step (firstOf stop r).kind = .stuck ∨ σ.opens) :
    ∃ σ', after ⟨f, .statement :: K⟩ l = some σ' ∧ σ'.Serves σ (firstOf stop r).kind := by
  by_cases hi : ∃ name, (firstOf stop (l ++ r)).kind = .identifier name
  case neg => exact exists_after_of_serves (.of_step (step_statement hs (not_exists.mp hi)) rfl) h
  case pos =>
    obtain ⟨name, hi⟩ := hi
    cases l with
    | nil      =>
      cases h
      have hi : (firstOf stop r).kind = .identifier name := hi
      rw [hi] at hr
      rcases hr rfl with hr | hr <;> cases hr
    | cons t l =>
      have hi : t.kind = .identifier name := hi
      obtain ⟨hu, hv⟩ := StatementStart.kind_of_ofTokens stop hi hs
      have h : after ⟨false, .tail false :: .operators false 0 :: .ending :: K⟩ l = some σ := by
        rw [after, hi] at h
        exact h
      rw [after, hi]
      show ∃ σ', after ⟨false, .afterName :: K⟩ l = some σ' ∧ _
      by_cases hb : (firstOf stop (l ++ r)).kind = .leftBracket
      case neg => exact exists_after_of_serves (.of_step (step_afterName hu hb) rfl) h
      case pos =>
        cases l with
        | nil      =>
          cases h
          have hb : (firstOf stop r).kind = .leftBracket := hb
          rw [hb] at hr
          rcases hr rfl with hr | hr <;> cases hr
        | cons u l =>
          have hb : u.kind = .leftBracket := hb
          rw [after, hb] at h ⊢
          exact exists_after_of_serves (.of_step (step_afterBracket (hv hb)) rfl) h

end State

variable {s : Input} {K : List Goal}

theorem Refuses.statement {stop : Position} (hs : StatementStart.ofTokens (l ++ r) = .expression)
    (h : Refuses ⟨false, .expression :: .ending :: K⟩ stop l r) :
    Refuses ⟨f, .statement :: K⟩ stop l r := by
  obtain ⟨σ, ha, hk⟩ := h
  obtain ⟨σ', ha', hk'⟩ := State.exists_after_statement stop (f := f) hs ha fun _ => .inl hk
  exact ⟨σ', ha', hk'.step.trans hk⟩

theorem Opens.statement (hs : StatementStart.ofTokens (l ++ r) = .expression)
    (h : Opens ⟨false, .expression :: .ending :: K⟩ l) : Opens ⟨f, .statement :: K⟩ l := by
  obtain ⟨σ, ha, ho⟩ := h
  obtain ⟨σ', ha', hk'⟩ :=
    State.exists_after_statement .start (f := f) hs ha fun _ => .inr ho
  exact ⟨σ', ha', hk'.opens ho⟩

theorem Blamed.statement (hs : StatementStart.ofTokens s.tokens = .expression)
    (h : Blamed ⟨false, .expression :: .ending :: K⟩ s s') : Blamed ⟨f, .statement :: K⟩ s s' := by
  obtain ⟨d, hd, hq⟩ := h
  refine ⟨d, ?_, hq⟩
  cases hd with
  | token ht hr he            => exact .token ht (hr.statement (ht ▸ hs)) he
  | expression ht he hk ho hr =>
    rw [ht] at hs
    refine .expression ht he hk (ho.statement hs) (hr.statement ?_)
    rwa [List.append_assoc]

theorem Reads.statement (hs : StatementStart.ofTokens s.tokens = .expression)
    (h : Reads ⟨false, .expression :: .ending :: K⟩ s ⟨c, .ending :: K⟩ s') :
    Reads ⟨f, .statement :: K⟩ s ⟨c, .ending :: K⟩ s' := by
  obtain ⟨l, σ, hl, ha, hk⟩ := h.run
  obtain ⟨σ', ha', hk'⟩ := State.exists_after_statement s'.stop (f := f) (hl ▸ hs) ha
    fun ht => by
      refine .inl (hk.step.trans ?_)
      cases hu : (firstOf s'.stop s'.tokens).kind <;> simp_all [State.tellsType] <;> rfl
  exact ⟨h.passes, h.quiet, l, σ', hl, ha', hk'.trans hk⟩

end Prefix

namespace Reading

open Prefix Attempt

theorem Cursor.kind_head_of_end {s : Cursor n}
    (h : (s.tokens.isEmpty || s.head.kind = .rightBrace) = true) :
    s.head.kind = .endOfInput ∨ s.head.kind = .rightBrace := by
  rcases (Bool.or_eq_true _ _).mp h with h | h
  case inl => exact .inl (by simp [head, List.isEmpty_iff.mp h])
  case inr => exact .inr (by simpa using h)

theorem tracks_typeAfter {s : Cursor n} :
    (typeAfter name).Tracks ⟨f, .brackets :: K⟩ s.toInput s fun _ => ⟨false, K⟩ := by
  rw [typeAfter, tracks_isAt_bind]
  split
  case isTrue hk  =>
    have hk : s.head.kind = .leftBracket := by simpa using hk
    rw [tracks_take_bind]
    refine .taken ?_ hk rfl (by simp) rfl
    exact .bind (.expectKind (by simp)) fun _ s₁ => .pure (.refl _)
  case isFalse hk => exact .pure ⟨State.step_brackets (by simpa using hk), id⟩

theorem tracks_typeRef {s : Cursor n} :
    typeRef.Tracks ⟨f, .type :: .brackets :: K⟩ s.toInput s fun _ => ⟨false, K⟩ := by
  refine .bind (.expectType (G := fun _ => .brackets :: K) ?typeName) ?declared
  case typeName =>
    rcases h : typeName? s.head.kind with _ | ⟨name, builtin⟩ <;>
      simp [State.step, State.verdict, Goal.react, h]
  case declared =>
    rintro ⟨⟨name, _⟩, p⟩ s₁
    exact .bind tracks_typeAfter fun _ s₂ => .pure (.refl _)

theorem tracks_variableAfter {s : Cursor n} :
    (variableAfter storage type position).Tracks ⟨f, .identifier :: K⟩ s.toInput s
      fun _ => ⟨false, K⟩ := by
  refine .bind .expectIdentifier ?_
  rintro ⟨name, _⟩ s₁
  exact .bind .freshId fun i s₂ => .pure (.refl _)

theorem tracks_declarationAfter {s : Cursor n} :
    (declarationAfter storage name position).Tracks
      ⟨f, .brackets :: .identifier :: .exact .semicolon :: K⟩ s.toInput s fun _ => ⟨false, K⟩ := by
  have hd : Attempt.Tracks (do variableAfter (n := n) storage (← typeAfter name) position)
      ⟨f, .brackets :: .identifier :: .exact .semicolon :: K⟩ s.toInput s
      fun _ => ⟨false, .exact .semicolon :: K⟩ :=
    .bind tracks_typeAfter fun type s₁ => tracks_variableAfter
  exact .bind (Step.Tracks.lift (hd.recover passes_skipVariable)) fun o s₁ =>
    .bind (.expectKind (by simp)) fun _ s₂ => .pure (.refl _)

theorem tracks_declarationStatement {s : Cursor n} :
    (declarationStatement name position).Tracks
      ⟨f, .brackets :: .identifier :: .exact .semicolon :: K⟩ s.toInput s fun _ => ⟨false, K⟩ :=
  .bind tracks_declarationAfter fun o s₁ => by cases o <;> exact .pure (.refl _)

-- What stands behind the name tells that it is a type.
theorem tracks_namedDeclaration {s : Cursor n}
    (hs : StatementStart.Of (t :: s.tokens) (.named type)) :
    (namedDeclaration type position).Tracks ⟨false, .afterName :: K⟩ s.toInput s
      fun _ => ⟨false, K⟩ := by
  have hc (σ) (s₁ : Cursor n)
      (hσ : σ.step s₁.head.kind = State.step ⟨false, .identifier :: .exact .semicolon :: K⟩ s₁.head.kind) :
      Attempt.Tracks (do
        let name ← expectIdentifier
        let _ ← expectKind .semicolon
        return .declare ⟨← freshId, name.1, type, .localSlot, position⟩ : Attempt n Statement)
        σ s₁.toInput s₁ fun _ => ⟨false, K⟩ :=
    .start (.bind .expectIdentifier fun _ s₂ => .bind (.expectKind (by simp)) fun _ s₃ =>
      .bind .freshId fun i s₄ => .pure (.refl _)) (.of_step hσ rfl)
  unfold namedDeclaration
  generalize hm : t :: s.tokens = m at hs
  cases hs with
  | array _ hu hv =>
    have hm := (List.cons.inj hm).2
    have hm' : s.next.2.lift.tokens = _ := congrArg List.tail hm
    have hb : s.head.kind = .leftBracket := Cursor.head_eq hm ▸ hu
    have hb' : s.next.2.lift.head.kind = .rightBracket := Cursor.head_eq hm' ▸ hv
    rw [if_pos rfl, tracks_take_bind]
    refine .taken ?_ hb rfl (by simp) rfl
    rw [tracks_take_bind]
    exact .taken (hc _ _ rfl) hb' rfl (by simp) rfl
  | plain _ hu    =>
    have hm := (List.cons.inj hm).2
    refine hc _ s ?_
    rw [Cursor.head_eq hm, hu]
    rfl

theorem tracks_condition {s : Cursor n} :
    (condition n).Tracks ⟨f, conditionGoals ++ K⟩ s.toInput s fun _ => ⟨false, K⟩ :=
  .bind (.expectKind (by simp)) fun _ s₁ => (tracks_expression n s₁).lift.bind fun value s₂ =>
    .bind (.expectKind (by simp)) fun _ s₃ => .pure (.refl _)

-- A `;` behind an expression that is no call is refused, and the expression is reported.
theorem tracks_notAStatement {s : Cursor n} {s₁ : Cursor m} {s₀ : Input}
    (hr : Reads σ s₀ ⟨false, .ending :: K⟩ s₁.toInput) (ho : σ.opens)
    (he : Grammar.IsExpression s₀.tokens first s₁.tokens) (hs : s.toInput = s₁.next.2.toInput)
    (ha : s₁.head.kind ≠ .assign) :
    Attempt.Tracks (do
      acceptToken (.token .semicolon) (ofKind .semicolon) s₁.head
      modify fun s => s.report (.notAStatement first.form) first.position
      return .malformed first.position : Attempt n Statement) σ s₀ s out := by
  have hv := State.step_ending_of_not_call (K := K) ha
  by_cases hk : s₁.head.kind = .semicolon
  case neg => exact .after hr (.refused hs (if_neg hk) hv)
  case pos =>
    intro hc
    have ht : (acceptToken (.token .semicolon) (ofKind .semicolon) s₁.head : Attempt n Unit) =
        pure () := by
      simp [acceptToken, ofKind, hk]
    have hq : s.diagnostics = s₀.diagnostics := by
      rw [hs]
      exact (Cursor.quiet_next (hc.passes hr.passes)).trans hr.quiet
    obtain ⟨l, hl, hf⟩ := hr.refuses hv
    rw [ht, pure_bind]
    refine ⟨hr.passes.trans ((hs ▸ s₁.passes_next : Passes _ s.toInput).trans ?passes), ?_⟩
    case passes => exact Passes.report ..
    refine .blamed ⟨_, .expression (l := []) hl (hl ▸ he) ?stop ⟨σ, rfl, ho⟩ hf, ?before⟩
    case stop => exact hr.passes.stop_eq ▸ hk
    case before =>
      show _ <+: (s.report (.notAStatement first.form) first.position).diagnostics.toList
      simp [Cursor.report, hq]

-- Behind a whole expression there is a `=` with a value, or the end of a call.
theorem tracks_statementAfter {s : Cursor n} {s₁ : Cursor m} {s₀ : Input}
    (hr : Reads σ s₀ ⟨first.isCall, .ending :: K⟩ s₁.toInput) (ho : σ.opens)
    (he : Grammar.IsExpression s₀.tokens first s₁.tokens) (hg : first.gaps = 0)
    (hs : s.toInput = s₁.next.2.toInput) :
    (statementAfter first s₁.head).Tracks σ s₀ s fun _ => ⟨false, K⟩ := by
  unfold statementAfter
  split
  case h_1 ha =>
    refine .after hr (.taken ?_ ha rfl (by simp) hs)
    refine (tracks_expression _ s).lift.bind fun value s₂ => ?_
    exact .bind (.expectKind (by simp)) fun _ s₃ => .bind .freshId fun i s₄ => .pure (.refl _)
  case h_2 ha =>
    cases first with
    | call id receiver method arguments position =>
      exact .after hr (.bind (.acceptKind hs (State.step_ending ha) (by simp)) fun _ s₂ => .pure (.refl _))
    | malformed position => cases hg
    | _                  => exact tracks_notAStatement hr ho he hs ha

theorem traces_closeStatement {s : Cursor n} {s₀ : Input} (h : body.Tracks σ s₀ s out) :
    Traces σ s₀ out (closeStatement start body s) :=
  h.close passes_skipStatement

theorem traces_expressionStatement {s : Cursor n}
    (hs : StatementStart.ofTokens s.tokens = .expression) :
    Traces ⟨f, .statement :: K⟩ s.toInput (fun _ => ⟨false, K⟩) (expressionStatement s) := by
  intro hc
  obtain ⟨hp, ht⟩ := tracks_expression (f := false) (K := .ending :: K) n s hc
  have hd := (meets_expression n s).holds
  have hn := Cursor.passes_next (expression n s).2
  have hl : Leads (expression n s).2.next.2.toInput (SpansStatement s.toInput)
      (expressionStatement s) :=
    (spans_statementAfter ((spans_expression n s).holds.through hn) Cursor.size_lt_next).close
      passes_skipStatement hn.size_le fun s' hp' _ => .none ((hp.trans hn).trans hp')
  have hf := hn.trans hl.passes
  cases ht with
  | read hr   =>
    have hg : (expression n s).1.gaps = 0 := by
      have hq : (expression n s).2.diagnostics = s.diagnostics := hr.quiet
      have := hd.paid
      rw [hq] at this
      omega
    have hr := hr.statement (f := f) hs
    have he := (hd.derives (congrArg Array.size hr.quiet)).1
    exact traces_closeStatement (tracks_statementAfter hr rfl he hg rfl) hc
  | blamed hb => exact ⟨hp.trans hf, .blamed ((hb.statement hs).passes hf)⟩

mutual

theorem traces_statement (n : Nat) (s : Cursor n) :
    Traces ⟨f, .statement :: K⟩ s.toInput (fun _ => ⟨false, K⟩) (statement n s) := by
  match n with
  | 0     =>
    rw [statement]
    refine traces_expressionStatement ?_
    rw [List.length_eq_zero_iff.mp (Nat.le_zero.mp s.fits)]
    rfl
  | n + 1 =>
    rw [statement]
    have hs := StatementStart.of_ofTokens s.tokens
    split <;> rename_i h <;> rw [h] at hs
    all_goals generalize hl : s.tokens = l at hs
    case h_1 =>
      cases hs with | typed hk =>
      rw [← Cursor.head_eq hl] at hk
      refine Traces.afterToken (traces_closeStatement (.taken ?_ hk rfl (by simp) rfl))
      exact tracks_declarationStatement
    case h_2 =>
      cases hs with | word hk =>
      refine Traces.afterToken (traces_closeStatement ?_)
      exact tracks_wordStatement n _ (Cursor.head_eq hl ▸ hk) rfl
    case h_3 =>
      cases hs with | brace hk =>
      rw [← Cursor.head_eq hl] at hk
      refine Traces.afterToken (traces_closeStatement (.taken ?_ hk rfl (by simp) rfl))
      exact tracks_block n _
    case h_4 =>
      have ht : ∃ name, s.head.kind = .identifier name := by
        cases hs with | array hk | plain hk => exact ⟨_, Cursor.head_eq hl ▸ hk⟩
      obtain ⟨name, hk⟩ := ht
      refine Traces.afterToken (traces_closeStatement (.taken ?_ hk rfl (by simp) rfl))
      have hm : s.tokens = s.head :: s.next.2.tokens := Cursor.tokens_eq_cons (by simp [hk])
      exact tracks_namedDeclaration (hm ▸ hl ▸ hs)
    case h_5 => exact traces_expressionStatement h
termination_by 4 * n

theorem tracks_wordStatement (n : Nat) (s : Cursor n) {s₁ : Cursor m}
    (hk : s₁.head.kind = .keyword word) (hs : s.toInput = s₁.next.2.toInput) :
    (wordStatement n word s₁.head.position).Tracks ⟨f, .statement :: K⟩ s₁.toInput s
      fun _ => ⟨false, K⟩ := by
  rw [wordStatement.eq_def]
  split
  case h_1 =>
    refine .taken ?_ hk rfl (by simp) hs
    refine .bind tracks_condition fun value s₂ => .bind (.expectKind (by simp)) fun _ s₃ => ?_
    exact .bind .freshId fun i s₄ => .pure (.refl _)
  case h_2 =>
    refine .taken ?_ hk rfl (by simp) hs
    refine .bind tracks_condition fun value s₂ => ?_
    refine .bind (.below (traces_statement n s₂)) fun onTrue s₃ => ?_
    rw [tracks_isAt_bind]
    split
    case isTrue he  =>
      have he : s₃.head.kind = .keyword .elseWord := by simpa using he
      rw [tracks_take_bind]
      refine .taken ?_ he rfl (by simp) rfl
      refine .bind (.below (traces_statement n _)) fun onFalse s₄ => ?_
      exact .bind .freshId fun i s₅ => .pure (.refl _)
    case isFalse he =>
      exact .start (.bind .freshId fun i s₄ => .pure (.refl _))
        ⟨State.step_orElse (by simpa using he), id⟩
  case h_3 =>
    refine .taken ?_ hk rfl (by simp) hs
    refine .bind tracks_condition fun value s₂ => ?_
    refine .bind (.below (traces_statement n s₂)) fun body s₃ => ?_
    exact .bind .freshId fun i s₄ => .pure (.refl _)
  case h_4 =>
    refine .taken ?_ hk rfl (by simp) hs
    refine .bind (.expectKind (by simp)) fun _ s₂ => .bind (.expectKind (by simp)) fun _ s₃ => ?_
    refine .bind (.expectKind (by simp)) fun _ s₄ => .bind (.expectKind (by simp)) fun _ s₅ => ?_
    refine .bind tracks_condition fun value s₆ => .bind (.expectKind (by simp)) fun _ s₇ => ?_
    exact .bind .freshId fun i s₈ => .pure (.refl _)
  case h_5 =>
    refine .taken ?_ hk rfl (by simp) hs
    refine (tracks_expression n s).lift.bind fun value s₂ => .bind (.expectKind (by simp)) fun _ s₃ => ?_
    exact .bind .freshId fun i s₄ => .pure (.refl _)
  case h_6 =>
    refine .giveUp (hs ▸ s₁.passes_next) (fun hc => hs ▸ Cursor.quiet_next hc) ?_ (by simp)
    rw [hk]
    cases word <;> first | rfl | contradiction
termination_by 4 * n + 2

theorem tracks_block (n : Nat) (s : Cursor n) :
    (block n position).Tracks ⟨f, .statements :: K⟩ s.toInput s fun _ => ⟨false, K⟩ := by
  rw [block]
  refine (tracks_statementList n s).lift.bind fun body s₁ => .bind (.expectKind (by simp)) fun _ s₂ => ?_
  exact .bind .freshId fun i s₃ => .pure (.refl _)
termination_by 4 * n + 2

theorem tracks_statementList (n : Nat) (s : Cursor n) :
    (statementList n).Tracks ⟨f, .statements :: K⟩ s fun _ => ⟨false, .exact .rightBrace :: K⟩ := by
  match n with
  | 0     =>
    rw [statementList]
    refine Traces.pure (.of_step ?_ rfl)
    rw [s.kind_head_of_zero]
    rfl
  | n + 1 =>
    rw [statementList]
    unfold Step.Tracks
    dsimp only
    split
    case isTrue he  =>
      refine Traces.pure (.of_step ?_ rfl)
      rcases Cursor.kind_head_of_end he with hk | hk <;> rw [hk] <;> rfl
    case isFalse he =>
      have hs : State.step ⟨f, .statements :: K⟩ s.head.kind = _ :=
        State.step_statements (by simp_all)
      exact ((traces_statement (n + 1) s).start ⟨hs, id⟩).trans (tracks_statementList n _) rfl
termination_by 4 * n + 1

end

end Reading

end MiniJava
