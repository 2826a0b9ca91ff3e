import MiniJava.Proofs.Progress.Routine
import MiniJava.Proofs.Reading.Postcondition

namespace MiniJava.Reading

-- A computation ends with a value if all its calls return.
inductive Runs : {α : Type} → Calls α → α → Prop
  | done : Runs (.done a) a
  | call : Runs (Reader.body p s) r → Runs (next r) a → Runs (.call p s next) a

theorem Runs.bind {c : Calls α} (h : Runs c a) : ∀ {f : α → Calls β}, Runs (f a) b → Runs (c.bind f) b := by
  induction h with
  | done           => exact id
  | call h _ _ ih  => exact fun hf => .call h (ih hf)

theorem Runs.unique {c : Calls α} (h : Runs c a) : ∀ {b}, Runs c b → a = b := by
  induction h with
  | done              =>
    rintro _ ⟨⟩
    rfl
  | call _ _ ih₁ ih₂  =>
    rintro _ (_ | ⟨h₁, h₂⟩)
    obtain rfl := ih₁ h₁
    exact ih₂ h₂

-- What a reader comes to, whatever its bound.
def outcome (r : α × Cursor n) : α × Input :=
  (r.1, r.2.toInput)

-- A part of the readers that is the same for every bound, and that puts no tokens back.
structure Plain (e : {n : Nat} → Attempt n α) : Prop where
  uniform : ∀ ⦃n m⦄ (s : Cursor n) (s' : Cursor m), s.toInput = s'.toInput →
    outcome (ExceptT.run e s) = outcome (ExceptT.run e s')
  rest : ∀ ⦃n⦄ (s : Cursor n), (ExceptT.run e s).2.tokens <:+ s.tokens

namespace Plain

theorem bind {e : {n : Nat} → Attempt n α} {f : {n : Nat} → α → Attempt n β} (h : Plain e)
    (hf : ∀ a, Plain (f a)) : Plain (e >>= f) where
  uniform n m s s' hs := by
    have h := h.uniform s s' hs
    rw [Attempt.run_bind, Attempt.run_bind]
    rcases he : ExceptT.run e s with ⟨o, s₁⟩
    rcases he' : ExceptT.run e s' with ⟨o', s₁'⟩
    rw [he, he'] at h
    obtain ⟨rfl, h₁⟩ := Prod.mk.inj h
    cases o with
    | ok a    => exact (hf a).uniform s₁ s₁' h₁
    | error _ => exact congrArg (Prod.mk _) h₁
  rest n s := by
    have h := h.rest s
    rw [Attempt.run_bind]
    rcases he : ExceptT.run e s with ⟨_ | a, s₁⟩ <;> rw [he] at h
    case error => exact h
    case ok    => exact ((hf a).rest s₁).trans h

-- A part that looks at the fields of the input alone.
theorem of_fields {e : {n : Nat} → Attempt n α}
    (h : ∀ (s : Input) n (hn : s.tokens.length ≤ n),
      outcome (ExceptT.run e (⟨s, hn⟩ : Cursor n)) =
        outcome (ExceptT.run e (⟨s, Nat.le_refl _⟩ : Cursor s.tokens.length)))
    (hr : ∀ ⦃n⦄ (s : Cursor n), (ExceptT.run e s).2.tokens <:+ s.tokens) : Plain e where
  uniform := by
    rintro n m ⟨s, hn⟩ ⟨_, hm⟩ rfl
    exact (h s n hn).trans (h s m hm).symm
  rest    := hr

theorem pure (a : α) : Plain (pure a) :=
  of_fields (fun _ _ _ => rfl) fun _ _ => List.suffix_rfl

theorem throw (m : Mismatch) : Plain (throw m : {n : Nat} → Attempt n α) :=
  of_fields (fun _ _ _ => rfl) fun _ _ => List.suffix_rfl

theorem isAt (kind : TokenKind) : Plain (isAt kind) :=
  of_fields (fun _ _ _ => rfl) fun _ _ => List.suffix_rfl

theorem take : Plain take :=
  of_fields (fun _ _ _ => rfl) fun _ s => s.tokens.tail_suffix

theorem freshId : Plain freshId :=
  of_fields (fun _ _ _ => rfl) fun _ _ => List.suffix_rfl

theorem giveUp (error : SyntaxError) (p : Position) :
    Plain (giveUp error p : {n : Nat} → Attempt n α) :=
  throw _

theorem acceptToken (expected : Expectation) (extract : TokenKind → Option α) (t : Token) :
    Plain (acceptToken expected extract t) := by
  unfold Reading.acceptToken
  cases extract t.kind with
  | some a => exact pure a
  | none   =>
    cases t.kind.defect?.isSome with
    | true  => exact throw _
    | false => exact giveUp _ _

theorem expect (expected : Expectation) (extract : TokenKind → Option α) :
    Plain (expect expected extract) :=
  take.bind fun t => (acceptToken expected extract t).bind fun a => pure (a, t.position)

theorem expectKind (kind : TokenKind) : Plain (expectKind kind) :=
  (expect _ _).bind fun a => pure a.2

theorem expectNamedType (name : String) : Plain (expectNamedType name) :=
  (expect _ _).bind fun a => pure a.2

theorem noTerm (t : Token) : Plain (noTerm t : {n : Nat} → Attempt n α) := by
  unfold Reading.noTerm
  split
  case h_1 => exact giveUp _ _
  case h_2 => exact giveUp _ _

theorem typeAfter (name : String) : Plain (typeAfter name) :=
  (isAt _).bind fun b => by
    cases b with
    | true  => exact take.bind fun _ => (expectKind _).bind fun _ => pure _
    | false => exact pure _

theorem typeRef : Plain typeRef :=
  (expect _ _).bind fun _ => (typeAfter _).bind fun _ => pure _

theorem variableAfter (storage : Storage) (type : TypeRef) (p : Position) :
    Plain (variableAfter storage type p) :=
  (expect _ _).bind fun _ => freshId.bind fun _ => pure _

theorem superclass : Plain superclass :=
  (isAt _).bind fun b => by
    cases b with
    | true  => exact pure _
    | false => exact (expectKind _).bind fun _ => (expect _ _).bind fun _ => pure _

theorem namedDeclaration (type : TypeRef) (p : Position) : Plain (namedDeclaration type p) := by
  have hd : Plain (do
      let name ← expectIdentifier
      let _ ← Reading.expectKind .semicolon
      return .declare ⟨← Reading.freshId, name.1, type, .localSlot, p⟩ :
        {n : Nat} → Attempt n Statement) :=
    (expect _ _).bind fun _ => (expectKind _).bind fun _ => freshId.bind fun _ => pure _
  unfold Reading.namedDeclaration
  cases type.isArray with
  | true  => exact take.bind fun _ => take.bind fun _ => hd
  | false => exact hd

end Plain

-- A step comes to what a routine computes.
def Gives (t : Reader α) (s : Input) (out : α × Cursor n) : Prop :=
  Runs (t s) (.ok out.1, out.2.toInput)

def Attempt.Does (e : Attempt n α) (s : Cursor n) (t : Reader α) : Prop :=
  Runs (t s.toInput) (outcome (ExceptT.run e s))

theorem Runs.then {t : Reader α} {f : α → Reader β} (h : Runs (t s) (.ok a, s'))
    (hf : Runs (f a s') r) : Runs ((t >>= f) s) r :=
  h.bind hf

theorem gives_call {out : p.Value × Cursor n} (h : Gives (.body p) s out) :
    Gives (.call p) s out :=
  .call h .done

theorem gives_afterToken {rest : Token → Step n α} {s : Cursor (n + 1)} {f : Token → Reader α} :
    Gives (.of take >>= f) s.toInput (afterToken rest s) ↔
      Gives (f s.head) s.next.2.toInput (rest s.head s.next.2) :=
  Iff.rfl

-- What the rounds of a list look at first.
theorem gives_atEnd_bind {out : α × Cursor m} {s : Input} {f : Bool → Reader α} :
    Gives (.of atEnd >>= f) s out ↔ Gives (f s.tokens.isEmpty) s out :=
  Iff.rfl

theorem gives_atClose_bind {out : α × Cursor m} {s : Input} {f : Bool → Reader α} :
    Gives (.of atClose >>= f) s out ↔
      Gives (f (s.tokens.isEmpty || s.first.kind = .rightBrace)) s out :=
  Iff.rfl

namespace Attempt

variable {s : Cursor n}

theorem does_pure : Does (pure a : Attempt n α) s (pure a) :=
  .done

theorem Does.bind {e : Attempt n α} {f : α → Attempt n β} {g : α → Reader β} (h : e.Does s t)
    (hf : ∀ a s', (f a).Does s' (g a)) : Does (e >>= f) s (t >>= g) := by
  unfold Does at h ⊢
  refine Runs.bind h ?_
  rw [run_bind]
  rcases ExceptT.run e s with ⟨_ | a, s'⟩
  case error => exact .done
  case ok    => exact hf a s'

theorem does_of {e : {n : Nat} → Attempt n α} (h : Plain e) : Does e s (.of e) := by
  unfold Does
  rw [h.uniform s ⟨s.toInput, Nat.le_refl _⟩ rfl]
  exact .done

theorem does_call {e : Attempt n p.Value} (h : e.Does s (.body p)) : e.Does s (.call p) :=
  .call h .done

theorem does_lift {e : Step n α} (h : Gives t s.toInput (e s)) :
    Does (liftM e : Attempt n α) s t :=
  h

theorem does_below {step : Cursor n → α × Cursor (n - 1)} (h : Gives t s.toInput (step s)) :
    (below step).Does s t :=
  h

-- What a routine looks at, without the reader.
theorem does_of_head_bind {e : Attempt n α} {g : Token → Reader α} :
    Does e s (.of head >>= g) ↔ e.Does s (g s.head) :=
  Iff.rfl

theorem does_of_isAt_bind {e : Attempt n α} {g : Bool → Reader α} :
    Does e s (.of (isAt kind) >>= g) ↔ e.Does s (g (s.head.kind = kind)) :=
  Iff.rfl

theorem does_head_bind {f : Token → Attempt n α} {g : Token → Reader α} :
    Does (head >>= f) s (.of head >>= g) ↔ (f s.head).Does s (g s.head) :=
  Iff.rfl

theorem does_isAt_bind {f : Bool → Attempt n α} {g : Bool → Reader α} :
    Does (isAt kind >>= f) s (.of (isAt kind) >>= g) ↔
      (f (s.head.kind = kind)).Does s (g (s.head.kind = kind)) :=
  Iff.rfl

theorem does_take_bind {f : Token → Attempt n α} {g : Token → Reader α} :
    Does (take >>= f) s (.of take >>= g) ↔ (f s.head).Does s.next.2.lift (g s.head) :=
  Iff.rfl

theorem does_attemptAfter {s : Cursor (n + 1)} {rest : Token → Attempt n α} {g : Token → Reader α} :
    Does (attemptAfter rest) s (.of take >>= g) ↔ (rest s.head).Does s.next.2 (g s.head) :=
  Iff.rfl

end Attempt

-- A loop that skips tokens ends, or takes a token and goes on.
theorem body_skip (stop : TokenKind → Bool) (s : Input) :
    Reader.body (.skip stop) s =
      if s.tokens.isEmpty || stop s.first.kind then .done (.ok (), s)
      else .call (.skip stop) s.tail .done := by
  have hb : Reader.body (.skip stop) s =
      (if s.tokens.isEmpty then pure () else Reader.of head >>= fun t =>
        if stop t.kind then pure () else Reader.of take >>= fun _ => .call (.skip stop) :
          Reader Unit) s :=
    rfl
  rw [hb]
  cases s.tokens.isEmpty with
  | true  => rfl
  | false =>
    show (if stop s.first.kind then pure () else Reader.of take >>= fun _ => .call (.skip stop) :
      Reader Unit) s = _
    cases stop s.first.kind <;> rfl

theorem runs_skip (stop : TokenKind → Bool) (s : Input) :
    Runs (Reader.body (.skip stop) s) (.ok (), { s with
      tokens := s.tokens.dropWhile fun t => !stop t.kind
      diagnostics :=
        s.diagnostics ++ (s.tokens.takeWhile fun t => !stop t.kind).filterMap defect? }) := by
  obtain ⟨tokens, stop', nextId, diagnostics⟩ := s
  induction tokens generalizing diagnostics with
  | nil         => simpa [body_skip] using Runs.done
  | cons t l ih =>
    rw [body_skip]
    by_cases ht : stop t.kind
    case pos => simpa [Input.first, firstOf, ht] using Runs.done
    case neg =>
      have hi := ih (diagnostics ++ (defect? t).toList)
      rw [if_neg (by simpa [Input.first, firstOf] using ht)]
      refine .call ?_ .done
      cases hd : defect? t <;> simpa [Input.tail, ht, hd] using ih _

-- The readers skip tokens in one go.
theorem gives_skip (stop : TokenKind → Bool) (s : Cursor n) :
    Gives (.call (.skip stop)) s.toInput ((), s.skipUntil stop) :=
  .call (runs_skip stop s.toInput) .done

theorem gives_skipThrough (last : TokenKind) (s : Cursor n) :
    Gives (.skipThrough last) s.toInput ((), s.skipThrough last) :=
  Runs.then (gives_skip _ s) .done

-- A construct that cannot be read is skipped alike.
theorem gives_recover {e : Attempt n α} {sync : Cursor n → Cursor n} {t : Reader α}
    {skip : Reader Unit} {s : Cursor n} (h : e.Does s t)
    (hs : ∀ s, Gives skip s.toInput ((), sync s)) :
    Gives (.recover skip t) s.toInput (recover sync e s) := by
  rw [run_recover]
  refine Runs.bind h ?_
  rcases ExceptT.run e s with ⟨(_ | ⟨error, p⟩) | a, s'⟩
  case error.reported => exact Runs.then (hs s') .done
  case error.because  =>
    have hr : Gives (.report error p) s'.toInput ((), s'.report error p) := .done
    exact hr.then (Runs.then (hs (s'.report error p)) .done)
  case ok             => exact .done

theorem gives_close {e : Attempt n α} {sync : Cursor n → Cursor n} {t : Reader α}
    {skip : Reader Unit} {s : Cursor n} (h : e.Does s t)
    (hs : ∀ s, Gives skip s.toInput ((), sync s)) :
    Gives (do return (← Reader.recover skip t).getD missing) s.toInput
      ((recover sync e s).1.getD missing, (recover sync e s).2) :=
  Runs.then (gives_recover h hs) .done

end MiniJava.Reading
