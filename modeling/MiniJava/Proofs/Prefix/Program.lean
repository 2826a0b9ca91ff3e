import MiniJava.Proofs.Prefix.Statement
import MiniJava.Proofs.Reading.Defects

namespace MiniJava

namespace Prefix

open Reading

namespace State

variable {K : List Goal}

theorem step_parameters (hk : kind ≠ .rightParen) :
    step ⟨f, .parameters :: K⟩ kind =
      step ⟨false, .type :: .brackets :: .identifier :: .moreParameters :: K⟩ kind := by
  cases kind <;> first | rfl | exact absurd rfl hk

theorem step_moreParameters (hk : kind ≠ .rightParen) :
    step ⟨f, .moreParameters :: K⟩ kind =
      step ⟨false, .exact .comma :: .type :: .brackets :: .identifier :: .moreParameters :: K⟩
        kind := by
  cases kind <;> first | rfl | exact absurd rfl hk

theorem step_heading (hk : kind ≠ .leftBrace) :
    step ⟨f, .heading :: K⟩ kind =
      step ⟨false, .exact (.keyword .extendsWord) :: .identifier :: .exact .leftBrace :: K⟩ kind := by
  cases kind with
  | keyword word => cases word <;> rfl
  | leftBrace    => exact absurd rfl hk
  | _            => rfl

theorem step_members_keyword :
    step ⟨f, .members :: K⟩ (.keyword word) =
      step ⟨false, .exact (.keyword .publicWord) :: (methodGoals ++ .members :: K)⟩
        (.keyword word) := by
  cases word <;> rfl

theorem step_nil (hk : kind ≠ .endOfInput) :
    step ⟨f, []⟩ kind =
      step ⟨false, [.exact (.keyword .classWord), .identifier, .heading, .members]⟩ kind := by
  cases kind with
  | keyword word => cases word <;> rfl
  | endOfInput   => exact absurd rfl hk
  | _            => rfl

end State

end Prefix

namespace Reading

open Prefix Attempt

theorem Cursor.kind_head_of_nil {s : Cursor n} (h : s.tokens = []) : s.head.kind = .endOfInput := by
  simp [head, h]

theorem Cursor.kind_head_ne {s : Cursor n} (hc : Clean s.toInput) (h : s.tokens ≠ []) :
    s.head.kind ≠ .endOfInput := by
  obtain ⟨t, l, hl⟩ := List.exists_cons_of_ne_nil h
  have ht := hc t (hl ▸ List.mem_cons_self)
  rw [head_eq hl]
  simp_all [proper]

theorem tracks_parameter {s : Cursor n} :
    (parameter n).Tracks ⟨f, .type :: .brackets :: .identifier :: K⟩ s fun _ => ⟨false, K⟩ := by
  have hd : Attempt.Tracks (do
      let type ← typeRef
      variableAfter .formal type.1 type.2) ⟨f, .type :: .brackets :: .identifier :: K⟩ s.toInput s
      fun _ => ⟨false, K⟩ :=
    .bind tracks_typeRef fun type s₁ => tracks_variableAfter
  exact hd.recover passes_skipVariable

theorem tracks_parameterList (n : Nat) (s : Cursor n) :
    (parameterList n).Tracks ⟨f, .type :: .brackets :: .identifier :: .moreParameters :: K⟩
      s.toInput s fun _ => ⟨false, .exact .rightParen :: K⟩ := by
  induction n generalizing f with
  | zero      =>
    rw [parameterList]
    refine tracks_parameter.lift.bind fun o s₁ => ?_
    have hs : State.step ⟨false, .moreParameters :: K⟩ s₁.head.kind =
        State.step ⟨false, .exact .comma :: .exact .rightParen :: K⟩ s₁.head.kind := by
      rw [s₁.kind_head_of_zero]
      rfl
    exact .bind (.start (.expectKind (by simp)) (.of_step hs rfl)) fun _ s₂ => .pure (.refl _)
  | succ n hi =>
    rw [parameterList]
    refine tracks_parameter.lift.bind fun o s₁ => ?_
    rw [tracks_isAt_bind]
    split
    case isTrue hk  =>
      have hk : s₁.head.kind = .rightParen := by simpa using hk
      exact .pure (.of_step (by rw [hk]; rfl) rfl)
    case isFalse hk =>
      rw [tracks_attemptAfter]
      have hs : State.step ⟨false, .moreParameters :: K⟩ s₁.head.kind = _ :=
        State.step_moreParameters (by simpa using hk)
      refine .bind (.acceptKind rfl hs (by simp)) fun _ s₂ => ?_
      exact (hi s₂).bind fun ds s₃ => .pure (.refl _)

theorem tracks_method {s : Cursor n} {s₁ : Cursor m} (hk : s₁.head.kind = .keyword word)
    (hs : s.toInput = s₁.next.2.toInput) :
    (method s₁.head).Tracks ⟨f, .members :: K⟩ s₁.toInput s fun _ => ⟨false, .members :: K⟩ := by
  refine .bind (.acceptKind hs (by rw [hk]; exact State.step_members_keyword) (by simp)) fun _ s₂ => ?_
  refine .bind tracks_typeRef ?_
  rintro ⟨type, _⟩ s₃
  refine .bind .expectIdentifier ?_
  rintro ⟨name, _⟩ s₄
  refine .bind (.expectKind (by simp)) fun _ s₅ => ?_
  have hc (parameters : List VariableDeclaration) (s₆ : Cursor n) :
      Attempt.Tracks (do
        let _ ← expectKind .rightParen
        let _ ← expectKind .leftBrace
        let body ← statementList n
        let _ ← expectKind .rightBrace
        return .method ⟨← freshId, name, type, parameters, body, s₁.head.position⟩ : Attempt n Member)
        ⟨false, .exact .rightParen :: .exact .leftBrace :: .statements :: .members :: K⟩ s₆.toInput s₆
        fun _ => ⟨false, .members :: K⟩ := by
    refine .bind (.expectKind (by simp)) fun _ s₇ => .bind (.expectKind (by simp)) fun _ s₈ => ?_
    refine (tracks_statementList n s₈).lift.bind fun body s₉ => ?_
    exact .bind (.expectKind (by simp)) fun _ s₁₀ => .bind .freshId fun i s₁₁ => .pure (.refl _)
  rw [tracks_isAt_bind]
  split
  case isTrue hp  =>
    have hp : s₅.head.kind = .rightParen := by simpa using hp
    exact .start (hc [] s₅) (.of_step (by rw [hp]; rfl) rfl)
  case isFalse hp =>
    have hs : State.step ⟨false, .parameters :: .exact .leftBrace :: .statements :: .members :: K⟩
        s₅.head.kind = _ := State.step_parameters (by simpa using hp)
    exact .start (.bind (tracks_parameterList n s₅) hc) (.of_step hs rfl)

theorem tracks_field {s : Cursor n} :
    (field name position).Tracks
      ⟨f, .brackets :: .identifier :: .exact .semicolon :: K⟩ s.toInput s fun _ => ⟨false, K⟩ :=
  .bind tracks_declarationAfter fun o s₁ => by cases o <;> exact .pure (.refl _)

theorem traces_closeMember {s : Cursor n} {s₀ : Input} (h : body.Tracks σ s₀ s out) :
    Traces σ s₀ out (closeMember start body s) :=
  h.close passes_skipMember

theorem traces_member {s : Cursor (n + 1)}
    (hs : ¬ (s.tokens.isEmpty || s.head.kind = .rightBrace) = true) :
    Traces ⟨f, .members :: K⟩ s.toInput (fun _ => ⟨false, .members :: K⟩) (member s) := by
  unfold member
  dsimp only
  split <;> rename_i hk
  case h_1 => exact .afterToken (traces_closeMember (.taken tracks_field hk rfl (by simp) rfl))
  case h_2 => exact .afterToken (traces_closeMember (.taken tracks_field hk rfl (by simp) rfl))
  case h_3 => exact .afterToken (traces_closeMember (tracks_method hk rfl))
  case h_4 =>
    intro hc
    have := hc.defect?_head
    simp [hk, TokenKind.defect?] at this
  case h_5 =>
    intro hc
    have hv : State.step ⟨f, .members :: K⟩ s.head.kind = .stuck := by
      cases hk : s.head.kind <;>
        simp_all [State.step, State.verdict, Goal.react, variableStart, Reaction.ofStart]
    have hb : Blames ⟨f, .members :: K⟩ s.toInput
        (.grammatical (.declarationStart s.head.kind) s.head.position) :=
      .token (List.nil_append _).symm ⟨_, rfl, hv⟩ (by simp)
    have hp := Passes.report s.toInput (.declarationStart s.head.kind) s.head.position
    have hp' := Cursor.passes_skipThrough .leftBrace
      (s.report (.declarationStart s.head.kind) s.head.position)
    refine ⟨hp.trans hp', .blamed ⟨_, hb, List.IsPrefix.trans ?_ hp'.reports_kept⟩⟩
    simp [Cursor.report]

theorem tracks_memberList (n : Nat) (s : Cursor n) :
    (memberList n).Tracks ⟨f, .members :: K⟩ s fun _ => ⟨false, .exact .rightBrace :: K⟩ := by
  induction n generalizing f with
  | zero      =>
    refine Traces.pure (.of_step ?_ rfl)
    rw [s.kind_head_of_zero]
    rfl
  | succ n hi =>
    rw [memberList]
    unfold Step.Tracks
    dsimp only
    split
    case isTrue he  =>
      refine Traces.pure (.of_step ?_ rfl)
      rcases Cursor.kind_head_of_end he with hk | hk <;> rw [hk] <;> rfl
    case isFalse he => exact (traces_member he).trans (hi _) rfl

theorem tracks_superclass {s : Cursor n} :
    superclass.Tracks ⟨f, .heading :: K⟩ s.toInput s fun _ => ⟨false, .exact .leftBrace :: K⟩ := by
  rw [superclass, tracks_isAt_bind]
  split
  case isTrue hk  =>
    have hk : s.head.kind = .leftBrace := by simpa using hk
    exact .pure (.of_step (by rw [hk]; rfl) rfl)
  case isFalse hk =>
    refine .start (.bind (.expectKind (by simp)) fun _ s₁ => .bind .expectIdentifier ?_)
      (.of_step (State.step_heading (by simpa using hk)) rfl)
    rintro ⟨name, _⟩ s₂
    exact .pure (.refl _)

theorem tracks_classDeclaration {s : Cursor n} {s₁ : Cursor m} (hk : s₁.head.kind ≠ .endOfInput)
    (hs : s.toInput = s₁.next.2.toInput) :
    (classDeclaration s₁.head).Tracks ⟨f, []⟩ s₁.toInput s fun _ => ⟨false, []⟩ := by
  refine .bind (.acceptKind hs (State.step_nil hk) (by simp)) fun _ s₂ => ?_
  refine .bind .expectIdentifier ?_
  rintro ⟨name, _⟩ s₃
  refine .bind tracks_superclass fun o s₄ => .bind (.expectKind (by simp)) fun _ s₅ => ?_
  refine (tracks_memberList n s₅).lift.bind fun members s₆ => ?_
  exact .bind (.expectKind (by simp)) fun _ s₇ => .bind .freshId fun i s₈ => .pure (.refl _)

theorem tracks_classList (n : Nat) (s : Cursor n) :
    (classList n).Tracks ⟨f, []⟩ s fun _ => ⟨false, []⟩ := by
  induction n generalizing f with
  | zero      =>
    refine Traces.pure (.of_step ?_ rfl)
    rw [s.kind_head_of_zero]
    rfl
  | succ n hi =>
    rw [classList]
    unfold Step.Tracks
    dsimp only
    split
    case isTrue he  =>
      refine Traces.pure (.of_step ?_ rfl)
      rw [Cursor.kind_head_of_nil (List.isEmpty_iff.mp he)]
      rfl
    case isFalse he =>
      have hc : Traces ⟨f, []⟩ s.toInput (fun _ => ⟨false, []⟩)
          (afterToken (fun t => recover skipClass (classDeclaration t)) s) := by
        intro hc
        have hk := Cursor.kind_head_ne hc (by simpa using he)
        have hd := tracks_classDeclaration (f := f) (s := s.next.2) hk rfl
        exact (hd.recover passes_skipClass).afterToken hc
      exact hc.trans (hi _) rfl

theorem tracks_mainClass (n : Nat) (s : Cursor n) :
    (mainClass n).Tracks .initial s.toInput s fun _ => ⟨false, []⟩ := by
  refine .bind (.expectKind (by simp)) fun _ s₁ => .bind .expectIdentifier ?_
  rintro ⟨name, _⟩ s₂
  refine .bind (.expectKind (by simp)) fun _ s₃ => .bind (.expectKind (by simp)) fun _ s₄ => ?_
  refine .bind (.expectKind (by simp)) fun _ s₅ => .bind .expectNamedType fun _ s₆ => ?_
  refine .bind (.expectKind (by simp)) fun _ s₇ => .bind (.expectKind (by simp)) fun _ s₈ => ?_
  refine .bind (.expectKind (by simp)) fun _ s₉ => .bind (.expectKind (by simp)) fun _ s₁₀ => ?_
  refine (tracks_statementList n s₁₀).lift.bind fun body s₁₁ => ?_
  refine .bind (.expectKind (by simp)) fun _ s₁₂ => .bind (.expectKind (by simp)) fun _ s₁₃ => ?_
  exact .bind .freshId fun i s₁₄ => .pure (.refl _)

theorem tracks_program (n : Nat) (s : Cursor n) :
    (program n).Tracks .initial s fun _ => ⟨false, []⟩ := by
  have hm := (tracks_mainClass n s).recover passes_skipClass
  rw [Step.Tracks, run_program]
  exact hm.trans (tracks_classList n _) rfl

end Reading

end MiniJava
