import MiniJava.Proofs.Reading.Passage

namespace MiniJava.Reading

-- What a value and the input behind it satisfy, and that the input was passed through.
structure Leads (s : Input) (Q : α → Input → Prop) (out : α × Cursor m) : Prop where
  passes : Passes s out.2.toInput
  holds  : Q out.1 out.2.toInput

-- The outcome of an attempt. If its failure is reported, there are more than `base` diagnostics.
def Tried (base : Nat) (Q : α → Input → Prop) : Except Mismatch α → Input → Prop
  | .ok a, s'               => Q a s'
  | .error .reported, s'    => base < s'.diagnostics.size
  | .error (.because ..), _ => True

def Step.Meets (e : Step n α) (s : Cursor n) (Q : α → Input → Prop) : Prop :=
  Leads s.toInput Q (e s)

-- An attempt that fails on a malformed token has reported it; any other failure is reported by
-- whoever recovers from it.
def Attempt.Meets (base : Nat) (e : Attempt n α) (s : Cursor n) (Q : α → Input → Prop) : Prop :=
  base ≤ s.diagnostics.size → Leads s.toInput (Tried base Q) (ExceptT.run e s)

theorem Leads.imp {out : α × Cursor m} (h : Leads s P out) (hi : ∀ a s', P a s' → Q a s') :
    Leads s Q out :=
  ⟨h.passes, hi _ _ h.holds⟩

theorem Tried.imp (h : Tried base P r s') (hi : ∀ a, P a s' → Q a s') : Tried base Q r s' := by
  match r, h with
  | .ok a, h                => exact hi a h
  | .error .reported, h     => exact h
  | .error (.because ..), _ => trivial

theorem Step.run_bind (e : Step n α) (f : α → Step n β) (s : Cursor n) :
    (e >>= f) s = f (e s).1 (e s).2 :=
  rfl

theorem Step.Meets.imp {e : Step n α} (h : e.Meets s P) (hi : ∀ a s', P a s' → Q a s') :
    e.Meets s Q :=
  Leads.imp h hi

namespace Attempt

variable {e : Attempt n α} {s : Cursor n}

theorem run_bind (e : Attempt n α) (f : α → Attempt n β) (s : Cursor n) :
    ExceptT.run (e >>= f) s =
      match ExceptT.run e s with
      | (.ok a, s')    => ExceptT.run (f a) s'
      | (.error m, s') => (.error m, s') := by
  simp only [bind, ExceptT.bind, ExceptT.run, ExceptT.mk, StateT.bind]
  rcases e s with ⟨_ | _, _⟩ <;> rfl

theorem run_lift (e : Step n α) (s : Cursor n) :
    ExceptT.run (liftM e : Attempt n α) s = (.ok (e s).1, (e s).2) :=
  rfl

theorem Meets.imp (h : e.Meets base s P) (hi : ∀ a s', P a s' → Q a s') : e.Meets base s Q :=
  fun hb => ⟨(h hb).passes, (h hb).holds.imp fun a => hi a _⟩

theorem Meets.pure (h : Q a s.toInput) : Meets base (pure a : Attempt n α) s Q :=
  fun _ => ⟨.refl, h⟩

theorem Meets.bind {f : α → Attempt n β} (h : e.Meets base s P)
    (hf : ∀ a s', Passes s.toInput s'.toInput → P a s'.toInput → (f a).Meets base s' Q) :
    Meets base (e >>= f) s Q := by
  intro hb
  obtain ⟨hp, hh⟩ := h hb
  rw [run_bind]
  rcases he : ExceptT.run e s with ⟨m | a, s'⟩ <;> rw [he] at hp hh
  case error => exact ⟨hp, by cases m <;> exact hh⟩
  case ok =>
    have hf := hf a s' hp hh (hb.trans hp.size_le)
    exact ⟨hp.trans hf.passes, hf.holds⟩

theorem Meets.giveUp : Meets base (giveUp error position : Attempt n α) s Q :=
  fun _ => ⟨.refl, trivial⟩

theorem Meets.reported (h : base < s.diagnostics.size) :
    Meets base (throw .reported : Attempt n α) s Q :=
  fun _ => ⟨.refl, h⟩

@[simp]
theorem meets_head_bind {f : Token → Attempt n β} :
    Meets base (head >>= f) s Q ↔ (f s.head).Meets base s Q :=
  Iff.rfl

@[simp]
theorem meets_isAt_bind {f : Bool → Attempt n β} :
    Meets base (isAt kind >>= f) s Q ↔ (f (s.head.kind = kind)).Meets base s Q :=
  Iff.rfl

theorem Meets.below {step : Cursor n → α × Cursor (n - 1)} (h : Leads s.toInput Q (step s)) :
    Meets base (below step) s Q :=
  fun _ => ⟨h.passes, h.holds⟩

end Attempt

theorem Step.Meets.lift {e : Step n α} {s : Cursor n} (h : e.Meets s Q) :
    (liftM e : Attempt n α).Meets base s Q := by
  intro _
  rw [Attempt.run_lift]
  exact ⟨h.passes, h.holds⟩

-- A malformed token is reported when it is taken.
theorem Cursor.size_lt_next {s : Cursor n} (h : s.head.kind.defect?.isSome) :
    s.diagnostics.size < s.next.2.diagnostics.size := by
  obtain ⟨⟨_ | ⟨t, l⟩, stop, nextId, diagnostics⟩, fits⟩ := s
  case nil => simp [head, TokenKind.defect?] at h
  case cons =>
    obtain ⟨error, he⟩ := Option.isSome_iff_exists.mp h
    simp only [head, List.head?_cons, Option.getD_some] at he
    simp [next, defect?, he]

namespace Attempt

-- The token that is taken is the head.
theorem Meets.attemptAfter {s : Cursor (n + 1)} {rest : Token → Attempt n α}
    (h : (s.head.kind.defect?.isSome → base < s.next.2.diagnostics.size) →
      (rest s.head).Meets base s.next.2 Q) :
    Meets base (attemptAfter rest) s Q := by
  intro hb
  have hp := Cursor.passes_next s
  have h := h (fun hd => hb.trans_lt (Cursor.size_lt_next hd)) (hb.trans hp.size_le)
  exact ⟨hp.trans h.passes, h.holds⟩

theorem Meets.acceptToken {extract : TokenKind → Option α} {Q : α → Input → Prop}
    (hd : t.kind.defect?.isSome → base < s.diagnostics.size)
    (h : ∀ a, extract t.kind = some a → Q a s.toInput) :
    Meets base (acceptToken expected extract t : Attempt n α) s Q := by
  unfold Reading.acceptToken
  split
  case h_1 a ha => exact .pure (h a ha)
  case h_2 =>
    split
    case isTrue hm => exact .reported (hd hm)
    case isFalse   => exact .giveUp

end Attempt

theorem run_recover (sync : Cursor n → Cursor n) (body : Attempt n α) (s : Cursor n) :
    recover sync body s =
      match ExceptT.run body s with
      | (.ok a, s')                 => (some a, s')
      | (.error .reported, s')      => (none, sync s')
      | (.error (.because e p), s') => (none, sync (s'.report e p)) := by
  rw [recover, Step.run_bind]
  rcases ExceptT.run body s with ⟨(_ | _) | _, _⟩ <;> rfl

theorem Attempt.Meets.recover {body : Attempt n α} {sync : Cursor n → Cursor n}
    {Q : α → Input → Prop}
    (hs : ∀ s : Cursor n, Passes s.toInput (sync s).toInput)
    (h : body.Meets base s Q) (hb : base ≤ s.diagnostics.size) :
    (Reading.recover sync body).Meets s fun o s' =>
      match o with
      | some a => Q a s'
      | none   => base < s'.diagnostics.size := by
  obtain ⟨hp, hh⟩ := h hb
  unfold Step.Meets
  rw [run_recover]
  match he : ExceptT.run body s with
  | (.ok a, s') =>
    rw [he] at hp hh
    exact ⟨hp, hh⟩
  | (.error .reported, s') =>
    rw [he] at hp hh
    exact ⟨hp.trans (hs s'), lt_of_lt_of_le hh (hs s').size_le⟩
  | (.error (.because e p), s') =>
    rw [he] at hp
    have hr : Passes s'.toInput (s'.report e p).toInput := .report ..
    refine ⟨hp.trans (hr.trans (hs _)), ?_⟩
    calc
      base ≤ s.diagnostics.size              := hb
      _    ≤ s'.diagnostics.size             := hp.size_le
      _    < (s'.report e p).diagnostics.size := by simp [Cursor.report]
      _    ≤ (sync (s'.report e p)).diagnostics.size := (hs _).size_le

end MiniJava.Reading
