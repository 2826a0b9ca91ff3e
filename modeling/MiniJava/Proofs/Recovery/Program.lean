import MiniJava.Proofs.Recovery.Statement

namespace MiniJava.Reading

open Attempt

variable {s₀ : Input}

theorem Walk.take (s : Input) : Walk s s.tail := by
  by_cases hk : s.first.kind = .semicolon
  case pos => exact .finish hk
  case neg => exact .tread (.pass hk)

theorem Walks.skip (stop : TokenKind → Bool) (s : Input) :
    Walks s { s with
      tokens := s.tokens.dropWhile fun t => !stop t.kind
      diagnostics :=
        s.diagnostics ++ (s.tokens.takeWhile fun t => !stop t.kind).filterMap defect? } := by
  obtain ⟨tokens, stop', nextId, diagnostics⟩ := s
  induction tokens generalizing diagnostics with
  | nil         => simpa using Relation.ReflTransGen.refl
  | cons t l hi =>
    by_cases ht : stop t.kind
    case pos => simpa [ht] using Relation.ReflTransGen.refl
    case neg =>
      refine .head (.take _) ?_
      cases hd : defect? t <;> simpa [Input.tail, ht, hd] using hi _

theorem Cursor.walks_skipUntil (stop : TokenKind → Bool) (s : Cursor n) :
    Walks s.toInput (s.skipUntil stop).toInput :=
  Walks.skip stop s.toInput

theorem Cursor.walks_skipThrough (last : TokenKind) (s : Cursor n) :
    Walks s.toInput (s.skipThrough last).toInput :=
  (s.walks_skipUntil _).tail (.take _)

theorem walks_skipClass (s : Cursor n) : Walks s.toInput (skipClass s).toInput :=
  s.walks_skipUntil _

theorem walks_skipMember (s : Cursor n) : Walks s.toInput (skipMember s).toInput :=
  s.walks_skipThrough _

namespace Attempt

-- Wherever the attempt starts, `R` holds all along.
def Keeps (e : Attempt n α) (s : Cursor n) (R : Input → Prop) : Prop :=
  R s.toInput → e.Ends s R fun _ => R

variable {s : Cursor n} {R : Input → Prop} {e : Attempt n α}

theorem Keeps.pure : Keeps (pure a : Attempt n α) s R :=
  fun hs => Ends.pure hs

theorem Keeps.bind {f : α → Attempt n β} (h : e.Keeps s R) (hf : ∀ a s', (f a).Keeps s' R) :
    Keeps (e >>= f) s R :=
  fun hs => (h hs).bind hf

theorem Goes.keeps (h : e.Goes s P) (hR : Kept R) : e.Keeps s R :=
  fun hs => Ends.imp h (fun _ => hR.treads hs) fun _ _ h => hR.treads hs h.1

@[simp]
theorem keeps_isAt_bind {f : Bool → Attempt n β} :
    Keeps (isAt kind >>= f) s R ↔ (f (s.head.kind = kind)).Keeps s R :=
  Iff.rfl

theorem keeps_expectKind (hk : kind ≠ .semicolon) (hk' : kind ≠ .endOfInput) :
    (expectKind kind).Keeps s (Walks s₀) :=
  (goes_expectKind hk hk').keeps (kept_walks s₀)

theorem keeps_expectIdentifier : expectIdentifier.Keeps s (Walks s₀) :=
  Goes.keeps (goes_expect rfl rfl) (kept_walks s₀)

theorem keeps_freshId : freshId.Keeps s (Walks s₀) :=
  goes_freshId.keeps (kept_walks s₀)

theorem keeps_lift {e : Step n α} (h : Walks s.toInput (e s).2.toInput) :
    (liftM e : Attempt n α).Keeps s (Walks s₀) :=
  fun hs => .lift (hs.trans h)

-- The token before `s` is the first one of the construct.
theorem ends_acceptKind {s₁ : Cursor m} (hs : s.toInput = s₁.next.2.toInput)
    (h : Walks s₀ s₁.toInput) :
    (acceptToken expected (ofKind kind) s₁.head).Ends s (Walks s₀) fun _ => Walks s₀ :=
  ends_acceptToken (kept_walks s₀) hs h fun _ _ => hs ▸ h.tail (.take _)

end Attempt

theorem walks_recover {s : Cursor n} {body : Attempt n α} {sync : Cursor n → Cursor n}
    (h : body.Ends s (Walks s₀) fun _ => Walks s₀)
    (hs : ∀ s, Walks s.toInput (sync s).toInput) :
    Walks s₀ (recover sync body s).2.toInput :=
  h.recover fun s' h => h.trans (hs s')

theorem goes_parameter (s : Cursor n) : (parameter n).Goes s fun _ _ => True :=
  goes_recover (goes_typeRef.bind fun _ _ _ _ => goes_variableAfter) treads_skipVariable

theorem goes_parameterList (n : Nat) (s : Cursor n) :
    (parameterList n).Goes s fun _ _ => True := by
  induction n with
  | zero      =>
    rw [parameterList]
    exact (goes_parameter s).lift.bind fun _ _ _ _ =>
      (goes_expectKind (by simp) (by simp)).bind fun _ _ _ _ => .pure trivial
  | succ n hi =>
    rw [parameterList]
    refine (goes_parameter s).lift.bind fun _ s₁ _ _ => ?_
    rw [goes_isAt_bind]
    split
    case isTrue  => exact .pure trivial
    case isFalse =>
      exact .attemptAfterKind (by simp) fun s₂ _ => (hi s₂).bind fun _ _ _ _ => .pure trivial

theorem ends_method {s : Cursor n} {s₁ : Cursor m} (hs : s.toInput = s₁.next.2.toInput)
    (h : Walks s₀ s₁.toInput) :
    (method s₁.head).Ends s (Walks s₀) fun _ => Walks s₀ := by
  refine (ends_acceptKind hs h).bind fun _ s₂ => ?_
  refine (goes_typeRef.keeps (kept_walks s₀)).bind ?_
  rintro ⟨type, _⟩ s₃
  refine keeps_expectIdentifier.bind ?_
  rintro ⟨name, _⟩ s₄
  refine (keeps_expectKind (by simp) (by simp)).bind fun _ s₅ => ?_
  have hc (parameters : List VariableDeclaration) (s₆ : Cursor n) : Keeps (do
      let _ ← expectKind .rightParen
      let _ ← expectKind .leftBrace
      let body ← statementList n
      let _ ← expectKind .rightBrace
      return .method ⟨← freshId, name, type, parameters, body, s₁.head.position⟩ : Attempt n Member)
      s₆ (Walks s₀) := by
    refine (keeps_expectKind (by simp) (by simp)).bind fun _ s₇ => ?_
    refine (keeps_expectKind (by simp) (by simp)).bind fun _ s₈ => ?_
    refine (keeps_lift (walks_statementList n s₈)).bind fun body s₉ => ?_
    refine (keeps_expectKind (by simp) (by simp)).bind fun _ s₁₀ => ?_
    exact keeps_freshId.bind fun _ _ => .pure
  rw [keeps_isAt_bind]
  split
  case isTrue  => exact hc [] s₅
  case isFalse =>
    exact ((goes_parameterList n s₅).keeps (kept_walks s₀)).bind fun parameters s₆ => hc parameters s₆

theorem ends_field {s : Cursor n} (h : Walks s₀ s.toInput) :
    (field name position).Ends s (Walks s₀) fun _ => Walks s₀ := by
  refine .bind (P := fun _ => Walks s₀) ?_ fun o _ h => by cases o <;> exact .pure h
  exact (ends_declarationAfter .refl).imp (fun _ ht => h.trans (Treads.walks ht))
    fun _ _ hs => h.trans hs.walks

theorem walks_closeMember {s : Cursor n} (h : body.Ends s (Walks s₀) fun _ => Walks s₀) :
    Walks s₀ (closeMember start body s).2.toInput :=
  walks_recover h walks_skipMember

theorem walks_member (s : Cursor (n + 1)) : Walks s.toInput (member s).2.toInput := by
  have ht : Walks s.toInput s.next.2.toInput := .single (.take _)
  unfold member
  dsimp only
  split
  case h_1 => exact walks_closeMember (ends_field ht)
  case h_2 => exact walks_closeMember (ends_field ht)
  case h_3 => exact walks_closeMember (ends_method rfl .refl)
  case h_4 => exact walks_closeMember (.reported ht)
  case h_5 =>
    have hr : Walk s.toInput (s.report (.declarationStart s.head.kind) s.head.position).toInput :=
      .tread (.refuse rfl)
    exact .head hr (Cursor.walks_skipThrough .leftBrace _)

theorem walks_memberList (n : Nat) (s : Cursor n) :
    Walks s.toInput (memberList n s).2.toInput := by
  induction n with
  | zero      => exact .refl
  | succ n hi =>
    rw [memberList]
    dsimp only
    split
    case isTrue  => exact .refl
    case isFalse => exact (walks_member s).trans (hi _)

theorem keeps_superclass {s : Cursor n} : superclass.Keeps s (Walks s₀) := by
  unfold superclass
  rw [keeps_isAt_bind]
  split
  case isTrue  => exact .pure
  case isFalse =>
    exact (keeps_expectKind (by simp) (by simp)).bind fun _ _ =>
      keeps_expectIdentifier.bind fun _ _ => .pure

theorem ends_classDeclaration {s : Cursor n} {s₁ : Cursor m} (hs : s.toInput = s₁.next.2.toInput)
    (h : Walks s₀ s₁.toInput) :
    (classDeclaration s₁.head).Ends s (Walks s₀) fun _ => Walks s₀ := by
  refine (ends_acceptKind hs h).bind fun _ s₂ => ?_
  refine keeps_expectIdentifier.bind ?_
  rintro ⟨name, _⟩ s₃
  refine keeps_superclass.bind fun parent s₄ => ?_
  refine (keeps_expectKind (by simp) (by simp)).bind fun _ s₅ => ?_
  refine (keeps_lift (walks_memberList n s₅)).bind fun members s₆ => ?_
  refine (keeps_expectKind (by simp) (by simp)).bind fun _ s₇ => ?_
  exact keeps_freshId.bind fun _ _ => .pure

theorem walks_classList (n : Nat) (s : Cursor n) :
    Walks s.toInput (classList n s).2.toInput := by
  induction n with
  | zero      => exact .refl
  | succ n hi =>
    rw [classList]
    dsimp only
    split
    case isTrue  => exact .refl
    case isFalse =>
      have h : Walks s.toInput
          (afterToken (fun t => recover skipClass (classDeclaration t)) s).2.toInput :=
        walks_recover (ends_classDeclaration rfl .refl) walks_skipClass
      exact h.trans (hi _)

theorem keeps_mainClass (n : Nat) (s : Cursor n) : (mainClass n).Keeps s (Walks s₀) := by
  refine (keeps_expectKind (by simp) (by simp)).bind fun _ s₁ => ?_
  refine keeps_expectIdentifier.bind ?_
  rintro ⟨name, _⟩ s₂
  refine (keeps_expectKind (by simp) (by simp)).bind fun _ s₃ => ?_
  refine (keeps_expectKind (by simp) (by simp)).bind fun _ s₄ => ?_
  refine (keeps_expectKind (by simp) (by simp)).bind fun _ s₅ => ?_
  have hn : (expectNamedType "void").Goes s₅ fun _ _ => True :=
    (goes_expect rfl rfl).bind fun _ _ _ _ => .pure trivial
  refine (hn.keeps (kept_walks s₀)).bind fun _ s₆ => ?_
  refine (keeps_expectKind (by simp) (by simp)).bind fun _ s₇ => ?_
  refine (keeps_expectKind (by simp) (by simp)).bind fun _ s₈ => ?_
  refine (keeps_expectKind (by simp) (by simp)).bind fun _ s₉ => ?_
  refine (keeps_expectKind (by simp) (by simp)).bind fun _ s₁₀ => ?_
  refine (keeps_lift (walks_statementList n s₁₀)).bind fun body s₁₁ => ?_
  refine (keeps_expectKind (by simp) (by simp)).bind fun _ s₁₂ => ?_
  refine (keeps_expectKind (by simp) (by simp)).bind fun _ s₁₃ => ?_
  exact keeps_freshId.bind fun _ _ => .pure

theorem walks_program (n : Nat) (s : Cursor n) : Walks s.toInput (program n s).2.toInput := by
  rw [run_program]
  exact (walks_recover (keeps_mainClass n s .refl) walks_skipClass).trans (walks_classList n _)

end MiniJava.Reading
