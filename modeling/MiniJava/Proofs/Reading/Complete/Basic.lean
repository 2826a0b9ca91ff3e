import MiniJava.Proofs.Reading.Postcondition

namespace MiniJava.Reading

variable {n m : Nat} {s : Cursor n} {P : α → Prop} {Q : β → Prop} {l r : List Token}

structure Finds (s : Input) (P : α → Prop) (r : List Token) (out : α × Cursor m) : Prop where
  holds  : P out.1
  tokens : out.2.tokens = r
  quiet  : out.2.diagnostics = s.diagnostics

def Step.Yields (e : Step n α) (s : Cursor n) (P : α → Prop) (r : List Token) : Prop :=
  Finds s.toInput P r (e s)

def Attempt.Yields (e : Attempt n α) (s : Cursor n) (P : α → Prop) (r : List Token) : Prop :=
  Finds s.toInput (fun o => ∃ a, o = .ok a ∧ P a) r (ExceptT.run e s)

-- The token before the tokens `l` is taken, without a report.
structure TakesTo (s : Input) (l : List Token) (s' : Input) : Prop where
  tokens : s'.tokens = l
  quiet  : s'.diagnostics = s.diagnostics

theorem Cursor.takesTo_next (hs : s.tokens = t :: l) (hd : t.kind.defect? = none) :
    TakesTo s.toInput l s.next.2.toInput where
  tokens := by simp [Input.tail, hs]
  quiet := by simp [Input.tail, hs, defect?, hd]

theorem Finds.after {out : α × Cursor m} (ht : TakesTo s₀ l s₁) (h : Finds s₁ P r out) :
    Finds s₀ P r out :=
  ⟨h.holds, h.tokens, h.quiet.trans ht.quiet⟩

-- A construct is read from behind its first token.
theorem finds_afterToken {rest : Token → Step n α} {s : Cursor (n + 1)} (hs : s.tokens = t :: l)
    (hd : t.kind.defect? = none) (h : ∀ s', s'.tokens = l → (rest t).Yields s' P r) :
    Finds s.toInput P r (afterToken rest s) := by
  have ht := Cursor.takesTo_next hs hd
  obtain rfl := Cursor.head_eq hs
  exact .after ht (h _ ht.tokens)

namespace Attempt

variable {e : Attempt n α}

theorem Yields.pure (h : P a) (hs : s.tokens = r) : Yields (pure a : Attempt n α) s P r :=
  ⟨⟨a, rfl, h⟩, hs, rfl⟩

theorem Yields.imp {P' : α → Prop} (h : e.Yields s P r) (hi : ∀ a, P a → P' a) :
    e.Yields s P' r := by
  obtain ⟨⟨a, ho, ha⟩, ht, hq⟩ := h
  exact ⟨⟨a, ho, hi a ha⟩, ht, hq⟩

theorem Yields.bind {f : α → Attempt n β} (h : e.Yields s P l)
    (hf : ∀ a s', P a → s'.tokens = l → (f a).Yields s' Q r) : Yields (e >>= f) s Q r := by
  obtain ⟨⟨a, ho, ha⟩, ht, hq⟩ := h
  rcases he : ExceptT.run e s with ⟨o, s'⟩
  rw [he] at ho ht hq
  obtain rfl : o = .ok a := ho
  have hf := hf a s' ha ht
  unfold Yields at hf ⊢
  rw [run_bind, he]
  exact ⟨hf.holds, hf.tokens, hf.quiet.trans hq⟩

theorem yields_head_bind {f : Token → Attempt n β} :
    Yields (head >>= f) s Q r ↔ (f s.head).Yields s Q r :=
  Iff.rfl

theorem yields_isAt_bind {f : Bool → Attempt n β} :
    Yields (isAt kind >>= f) s Q r ↔ (f (s.head.kind = kind)).Yields s Q r :=
  Iff.rfl

theorem Yields.below {step : Cursor n → α × Cursor (n - 1)} (h : Finds s.toInput P r (step s)) :
    Yields (below step) s P r :=
  ⟨⟨_, rfl, h.holds⟩, h.tokens, h.quiet⟩

theorem yields_freshId : freshId.Yields s (fun _ => True) s.tokens :=
  ⟨⟨_, rfl, trivial⟩, rfl, rfl⟩

theorem yields_take (hs : s.tokens = t :: l) (hd : t.kind.defect? = none) :
    take.Yields s (· = t) l :=
  have ht := Cursor.takesTo_next hs hd
  ⟨⟨_, rfl, by simp [Cursor.head, hs]⟩, ht.tokens, ht.quiet⟩

theorem Yields.attemptAfter {s : Cursor (n + 1)} {rest : Token → Attempt n α}
    (hs : s.tokens = t :: l) (hd : t.kind.defect? = none)
    (h : ∀ s', s'.tokens = l → (rest t).Yields s' P r) :
    Yields (attemptAfter rest) s P r := by
  have ht := Cursor.takesTo_next hs hd
  have h := h _ ht.tokens
  obtain rfl : t = s.head := by simp [Cursor.head, hs]
  exact ⟨h.holds, h.tokens, h.quiet.trans ht.quiet⟩

theorem yields_acceptToken {extract : TokenKind → Option α} (ha : extract t.kind = some a) :
    (acceptToken expected extract t : Attempt n α).Yields s (· = a) s.tokens := by
  unfold acceptToken
  rw [ha]
  exact .pure rfl rfl

theorem yields_expect {extract : TokenKind → Option α} (hs : s.tokens = t :: l)
    (ha : extract t.kind = some a) (hd : t.kind.defect? = none) :
    (expect expected extract).Yields s (· = (a, t.position)) l := by
  refine (yields_take hs hd).bind fun u s₁ hu hs₁ => ?_
  subst hu
  refine (yields_acceptToken ha).bind fun b s₂ hb hs₂ => .pure ?value ?rest
  case value => rw [hb]
  case rest => rw [hs₂, hs₁]

theorem yields_expectKind (hs : s.tokens = t :: l) (hk : t.kind = kind)
    (hd : kind.defect? = none := by rfl) :
    (expectKind kind).Yields s (· = t.position) l := by
  refine (yields_expect hs (a := ()) (by simp [hk, ofKind]) (hk ▸ hd)).bind fun a s₁ ha hs₁ => ?_
  exact .pure (by rw [ha]) hs₁

theorem yields_expectIdentifier (hs : s.tokens = t :: l) (hk : t.kind = .identifier name) :
    expectIdentifier.Yields s (· = (name, t.position)) l :=
  yields_expect hs (by rw [hk]) (by rw [hk]; rfl)

end Attempt

theorem Step.Yields.lift {e : Step n α} (h : e.Yields s P r) :
    (liftM e : Attempt n α).Yields s P r := by
  unfold Attempt.Yields
  rw [Attempt.run_lift]
  exact ⟨⟨_, rfl, h.holds⟩, h.tokens, h.quiet⟩

theorem Step.yields_recover {body : Attempt n α} (h : body.Yields s P r) :
    Step.Yields (recover sync body) s (fun o => ∃ a, o = some a ∧ P a) r := by
  obtain ⟨⟨a, ho, ha⟩, ht, hq⟩ := h
  unfold Step.Yields
  rw [run_recover]
  rcases hb : ExceptT.run body s with ⟨o, s'⟩
  rw [hb] at ho ht hq
  obtain rfl : o = .ok a := ho
  exact ⟨⟨a, rfl, ha⟩, ht, hq⟩

-- Nothing is put in the place of what is read.
theorem Step.yields_close {body : Attempt n α} (h : body.Yields s P r) :
    Finds s.toInput P r ((recover sync body s).1.getD missing, (recover sync body s).2) := by
  have hr : (recover sync body).Yields s _ r := Step.yields_recover h
  obtain ⟨⟨a, ho, ha⟩, ht, hq⟩ := hr
  exact ⟨ho ▸ ha, ht, hq⟩

end MiniJava.Reading
