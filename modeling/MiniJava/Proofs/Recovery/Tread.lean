import MiniJava.Proofs.Reading.Places

namespace MiniJava

-- Only an expression that is no statement is reported when it has been left behind.
def SyntaxError.isPrompt : SyntaxError → Bool
  | notAStatement _ => false
  | _               => true

namespace Reading

-- What is wrong is reported where it stands: at the next token, or at the token that was just
-- taken. No `;` is passed without a report.
inductive Tread : Input → Input → Prop
  | pass (hk : s.first.kind ≠ .semicolon) : Tread s s.tail
  | number (s : Input) : Tread s { s with nextId := s.nextId + 1 }
  -- The next token is reported and stays.
  | refuse (he : error.isPrompt) : Tread s (s.report error s.first.position)
  -- The next token is taken and reported.
  | reject (he : error.isPrompt)
      (hk : s.first.kind = .semicolon → ∃ expected, error = .unexpected expected .semicolon) :
      Tread s (s.tail.report error s.first.position)

abbrev Treads := Relation.ReflTransGen Tread

theorem Tread.passes : Tread s s' → Passes s s'
  | pass _     => .take s
  | number s   => .single (.number s)
  | refuse _   => Passes.report ..
  | reject _ _ => (Passes.take s).trans (Passes.report ..)

theorem Treads.passes (h : Treads s s') : Passes s s' := by
  induction h with
  | refl        => exact .refl
  | tail _ t hi => exact hi.trans t.passes

-- Passing over tokens up to one with `stop`.
theorem Treads.skip {stop : TokenKind → Bool} (hs : stop .semicolon) (s : Input) :
    Treads s { s with
      tokens := s.tokens.dropWhile fun t => !stop t.kind
      diagnostics :=
        s.diagnostics ++ (s.tokens.takeWhile fun t => !stop t.kind).filterMap defect? } := by
  obtain ⟨tokens, stop', nextId, diagnostics⟩ := s
  induction tokens generalizing diagnostics with
  | nil         => simpa using Relation.ReflTransGen.refl
  | cons t l hi =>
    by_cases ht : stop t.kind
    case pos => simpa [ht] using Relation.ReflTransGen.refl
    case neg =>
      have hk : t.kind ≠ .semicolon := fun hk => ht (hk ▸ hs)
      refine .head (.pass hk) ?_
      cases hd : defect? t <;> simpa [Input.tail, ht, hd] using hi _

-- What holds at an input holds wherever a reader goes inside the statement.
def Kept (R : Input → Prop) : Prop :=
  ∀ s s', R s → Tread s s' → R s'

theorem Kept.treads (hR : Kept R) (h : R s) (ht : Treads s s') : R s' := by
  induction ht with
  | refl        => exact h
  | tail _ t hi => exact hR _ _ hi t

theorem kept_treads (s : Input) : Kept (Treads s) :=
  fun _ _ => .tail

theorem Cursor.treads_skipUntil {stop : TokenKind → Bool} (s : Cursor n) (hs : stop .semicolon) :
    Treads s.toInput (s.skipUntil stop).toInput :=
  Treads.skip hs s.toInput

-- How an attempt ends: with a value, or with a failure that `R` holds of once it is reported.
inductive Ended (R : Input → Prop) (Q : α → Input → Prop) : Except Mismatch α → Input → Prop
  | value (h : Q a s)                  : Ended R Q (.ok a) s
  | reported (h : R s)                 : Ended R Q (.error .reported) s
  | because (h : R (s.report error p)) : Ended R Q (.error (.because error p)) s

def Attempt.Ends (e : Attempt n α) (s : Cursor n) (R : Input → Prop) (Q : α → Input → Prop) : Prop :=
  Ended R Q (ExceptT.run e s).1 (ExceptT.run e s).2.toInput

namespace Attempt

variable {R : Input → Prop} {e : Attempt n α} {s : Cursor n}

theorem Ends.imp (h : e.Ends s R P) (hR : ∀ s', R s' → R' s') (hi : ∀ a s', P a s' → Q a s') :
    e.Ends s R' Q := by
  unfold Ends at h ⊢
  rcases he : ExceptT.run e s with ⟨o, s'⟩
  rw [he] at h
  cases h with
  | value h    => exact .value (hi _ _ h)
  | reported h => exact .reported (hR _ h)
  | because h  => exact .because (hR _ h)

theorem Ends.pure (h : Q a s.toInput) : Ends (pure a : Attempt n α) s R Q :=
  Ended.value h

theorem Ends.bind {f : α → Attempt n β} (h : e.Ends s R P)
    (hf : ∀ a s', P a s'.toInput → (f a).Ends s' R Q) : Ends (e >>= f) s R Q := by
  unfold Ends at h ⊢
  rw [run_bind]
  rcases he : ExceptT.run e s with ⟨m | a, s'⟩ <;> rw [he] at h
  case error =>
    cases h with
    | reported h => exact .reported h
    | because h  => exact .because h
  case ok    =>
    cases h with | value h =>
    exact hf a s' h

theorem Ends.giveUp (h : R (s.toInput.report error p)) :
    Ends (giveUp error p : Attempt n α) s R Q :=
  Ended.because h

theorem Ends.reported (h : R s.toInput) : Ends (throw .reported : Attempt n α) s R Q :=
  Ended.reported h

@[simp]
theorem ends_isAt_bind {f : Bool → Attempt n β} :
    Ends (isAt kind >>= f) s R Q ↔ (f (s.head.kind = kind)).Ends s R Q :=
  Iff.rfl

theorem ends_take_bind {f : Token → Attempt n β} :
    Ends (take >>= f) s R Q ↔ (f s.head).Ends s.next.2.lift R Q :=
  Iff.rfl

theorem Ends.below {step : Cursor n → α × Cursor (n - 1)}
    (h : Q (step s).1 (step s).2.toInput) : Ends (below step) s R Q :=
  Ended.value h

theorem Ends.lift {e : Step n α} (h : Q (e s).1 (e s).2.toInput) :
    Ends (liftM e : Attempt n α) s R Q := by
  unfold Ends
  rw [run_lift]
  exact .value h

-- What is built is known as well.
theorem Ends.and_meets (h : e.Ends s R Q) (hm : e.Meets s.diagnostics.size s P) :
    e.Ends s R fun a s' => Q a s' ∧ P a s' := by
  have hm := (hm (Nat.le_refl _)).holds
  unfold Ends at h ⊢
  rcases he : ExceptT.run e s with ⟨m | a, s'⟩ <;> rw [he] at h hm
  case error =>
    cases h with
    | reported h => exact .reported h
    | because h  => exact .because h
  case ok    =>
    cases h with | value h =>
    exact .value ⟨h, hm⟩

-- A construct that cannot be read leaves what is `missing` in its place.
theorem Ends.close {body : Attempt n α} {sync : Cursor n → Cursor n} (h : body.Ends s R Q)
    (hs : ∀ s' : Cursor n, R s'.toInput → Q missing (sync s').toInput) :
    Q ((Reading.recover sync body s).1.getD missing) (Reading.recover sync body s).2.toInput := by
  rw [run_recover]
  unfold Ends at h
  match he : ExceptT.run body s with
  | (.ok a, s') =>
    rw [he] at h
    cases h with | value h =>
    exact h
  | (.error .reported, s') =>
    rw [he] at h
    cases h with | reported h =>
    exact hs s' h
  | (.error (.because e p), s') =>
    rw [he] at h
    cases h with | because h =>
    exact hs (s'.report e p) h

theorem Ends.recover {body : Attempt n α} {sync : Cursor n → Cursor n}
    (h : body.Ends s R fun _ => Q) (hs : ∀ s' : Cursor n, R s'.toInput → Q (sync s').toInput) :
    Q (Reading.recover sync body s).2.toInput := by
  rw [run_recover]
  unfold Ends at h
  match he : ExceptT.run body s with
  | (.ok a, s') =>
    rw [he] at h
    cases h with | value h =>
    exact h
  | (.error .reported, s') =>
    rw [he] at h
    cases h with | reported h =>
    exact hs s' h
  | (.error (.because e p), s') =>
    rw [he] at h
    cases h with | because h =>
    exact hs (s'.report e p) h

-- The attempt stays inside the statement.
def Goes (e : Attempt n α) (s : Cursor n) (Q : α → Input → Prop) : Prop :=
  e.Ends s (Treads s.toInput) fun a s' => Treads s.toInput s' ∧ Q a s'

theorem Goes.pure (h : Q a s.toInput) : Goes (pure a : Attempt n α) s Q :=
  Ends.pure ⟨.refl, h⟩

-- From inside the statement, whatever comes next.
theorem Goes.then {f : α → Attempt n β} (h : e.Goes s P) (hR : Kept R) (hs : R s.toInput)
    (hf : ∀ a s', Treads s.toInput s'.toInput → P a s'.toInput → (f a).Ends s' R Q) :
    Ends (e >>= f) s R Q :=
  (Ends.imp h (fun _ => hR.treads hs) fun _ _ => id).bind fun a s' h => hf a s' h.1 h.2

theorem Goes.bind {f : α → Attempt n β} (h : e.Goes s P)
    (hf : ∀ a s', Passes s.toInput s'.toInput → P a s'.toInput → (f a).Goes s' Q) :
    Goes (e >>= f) s Q :=
  h.then (kept_treads _) .refl fun a s' ht hp =>
    Ends.imp (hf a s' (Treads.passes ht) hp) (fun _ => ht.trans) fun _ _ h => ⟨ht.trans h.1, h.2⟩

@[simp]
theorem goes_head_bind {f : Token → Attempt n β} :
    Goes (head >>= f) s Q ↔ (f s.head).Goes s Q :=
  Iff.rfl

@[simp]
theorem goes_isAt_bind {f : Bool → Attempt n β} :
    Goes (isAt kind >>= f) s Q ↔ (f (s.head.kind = kind)).Goes s Q :=
  Iff.rfl

theorem goes_freshId : freshId.Goes s fun _ _ => True :=
  Ended.value ⟨.single (.number _), trivial⟩

theorem Goes.attemptAfter {s : Cursor (n + 1)} {rest : Token → Attempt n α}
    (hk : s.head.kind ≠ .semicolon) (h : (rest s.head).Goes s.next.2 Q) :
    Goes (attemptAfter rest) s Q :=
  have ht : Tread s.toInput s.next.2.toInput := .pass hk
  Ends.imp (e := rest s.head) h (fun _ => .head ht) fun _ _ h => ⟨.head ht h.1, h.2⟩

theorem Goes.take {f : Token → Attempt n α} (hk : s.head.kind ≠ .semicolon)
    (h : (f s.head).Goes s.next.2.lift Q) : Goes (take >>= f) s Q :=
  have ht : Tread s.toInput s.next.2.lift.toInput := .pass hk
  Ends.imp (e := f s.head) h (fun _ => .head ht) fun _ _ h => ⟨.head ht h.1, h.2⟩

-- The token before `s`, which is taken whether it is accepted or not.
theorem ends_acceptToken {extract : TokenKind → Option α} {s₁ : Cursor m} (hR : Kept R)
    (hs : s.toInput = s₁.next.2.toInput) (h : R s₁.toInput)
    (hq : ∀ a, extract s₁.head.kind = some a → Q a s.toInput) :
    (acceptToken expected extract s₁.head).Ends s R Q := by
  unfold acceptToken
  split
  case h_1 a ha => exact .pure (hq a ha)
  case h_2 =>
    split
    case isTrue hd  =>
      refine .reported (hs ▸ hR _ _ h (.pass fun hk => ?_))
      have hk : s₁.head.kind = .semicolon := hk
      simp [hk, TokenKind.defect?] at hd
    case isFalse hd =>
      refine .giveUp (hs ▸ hR _ _ h (.reject rfl fun hk => ?_))
      have hk : s₁.head.kind = .semicolon := hk
      exact ⟨expected, by rw [hk]⟩

-- A token between two constructs.
theorem Goes.attemptAfterKind {s : Cursor (n + 1)} {rest : Attempt n α} (hk : kind ≠ .semicolon)
    (h : ∀ s', Passes s.toInput s'.toInput → rest.Goes s' Q) :
    Goes (Reading.attemptAfter fun t => do acceptToken expected (ofKind kind) t; rest) s Q := by
  show Ends (do acceptToken expected (ofKind kind) s.head; rest) s.next.2 _ _
  have hs : s.next.2.toInput = s.next.2.toInput := rfl
  refine .bind (P := fun _ s' => Treads s.toInput s')
    (ends_acceptToken (kept_treads _) hs .refl ?taken) ?next
  case taken =>
    intro _ ha
    have ha : s.head.kind = kind := by simpa [ofKind] using ha
    exact .single (.pass (ha ▸ hk))
  case next =>
    exact fun _ s' ht => Ends.imp (h s' (Treads.passes ht)) (fun _ => ht.trans) fun _ _ h => ⟨ht.trans h.1, h.2⟩

-- An expected token other than `;` stands at the position that is told.
theorem goes_expect {extract : TokenKind → Option α} (hn : extract .semicolon = none)
    (he : extract .endOfInput = none) :
    (expect expected extract).Goes s fun a s' => Spans [a.2] s.toInput s' := by
  unfold expect Goes
  rw [ends_take_bind]
  have hs : s.next.2.lift.toInput = s.next.2.toInput := rfl
  refine .bind (P := fun _ s' => Treads s.toInput s' ∧ Spans [s.head.position] s.toInput s')
    (ends_acceptToken (kept_treads _) hs .refl fun a ha => ?_) fun _ _ h => .pure h
  have hk : s.head.kind ≠ .semicolon := fun hk => by simp [hk, hn] at ha
  have hk' : s.head.kind ≠ .endOfInput := fun hk => by simp [hk, he] at ha
  exact ⟨.single (.pass hk), Cursor.spans_next (Cursor.tokens_ne_nil hk')⟩

theorem goes_expectKind (hk : kind ≠ .semicolon) (hk' : kind ≠ .endOfInput) :
    (expectKind kind).Goes s fun p s' => Spans [p] s.toInput s' :=
  (goes_expect (by simp [ofKind, hk.symm]) (by simp [ofKind, hk'.symm])).bind fun _ _ ht hp =>
    .pure (hp.through .refl)

end Attempt

-- A step that stays inside the statement.
def Step.Goes (e : Step n α) (s : Cursor n) (Q : α → Input → Prop) : Prop :=
  Treads s.toInput (e s).2.toInput ∧ Q (e s).1 (e s).2.toInput

theorem Step.Goes.lift {e : Step n α} {s : Cursor n} (h : e.Goes s Q) :
    (liftM e : Attempt n α).Goes s Q :=
  Attempt.Ends.lift h

end Reading

end MiniJava
