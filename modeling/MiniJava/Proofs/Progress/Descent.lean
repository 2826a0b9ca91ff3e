import MiniJava.Proofs.Progress.Run
import MiniJava.Proofs.Reading.Places

namespace MiniJava.Reading

namespace Routine

def level : Routine → Nat
  | skip _ => 0
  | termTail _ | chainRest .. | creation _ | invocation _ => 1
  | term => 2
  | unary => 3
  | chain k => 4 + k
  | expression => 5 + BinaryOperator.levels
  | argumentList | wordStatement .. => 6 + BinaryOperator.levels
  | statement => 7 + BinaryOperator.levels
  | statementList => 8 + BinaryOperator.levels
  | block _ | parameterList => 9 + BinaryOperator.levels
  | member => 10 + BinaryOperator.levels
  | memberList => 11 + BinaryOperator.levels
  | classDeclaration => 12 + BinaryOperator.levels
  | classList => 13 + BinaryOperator.levels
  | program => 14 + BinaryOperator.levels

-- Whether a routine gives a value whatever is written.
def recovers : Routine → Bool
  | program | classList | classDeclaration | memberList | member | statementList | statement
  | expression | term | skip _ => true
  | _ => false

-- Whether a routine reads one item of a list of classes, members or statements.
def isItem : Routine → Bool
  | classDeclaration | member | statement => true
  | _ => false

end Routine

-- `s'` is further on than `s`, or just as far.
def Rest (s s' : Input) : Prop :=
  s'.tokens <:+ s.tokens

-- A token has been taken.
def Shorter (s s' : Input) : Prop :=
  Rest s s' ∧ s'.tokens.length < s.tokens.length

structure Routine.Keeps (p : Routine) (s : Input) (r : Outcome p.Value) : Prop where
  rest  : Rest s r.2
  found : p.recovers → ∃ a, r.1 = .ok a
  taken : p.isItem → s.tokens ≠ [] → Shorter s r.2

-- A call has fewer tokens before it, or as many of them and a lower level of the grammar.
def Below (c c' : Routine × Input) : Prop :=
  Shorter c'.2 c.2 ∨ c.2.tokens = c'.2.tokens ∧ c.1.level < c'.1.level

theorem wellFounded_below : WellFounded Below := by
  refine Subrelation.wf ?_ (InvImage.wf (fun c : Routine × Input => (c.2.tokens.length, c.1.level))
    (Prod.lex Nat.lt_wfRel Nat.lt_wfRel).wf)
  rintro c c' (hl | ⟨ht, hl⟩)
  case inl => exact .left _ _ hl.2
  case inr =>
    show Prod.Lex _ _ (c.2.tokens.length, c.1.level) (c'.2.tokens.length, c'.1.level)
    rw [ht]
    exact .right _ hl

section

variable {s s₁ s₂ : Input} {c : Routine × Input} {q : Routine}

theorem Rest.trans (h : Rest s s₁) (h' : Rest s₁ s₂) : Rest s s₂ :=
  List.IsSuffix.trans h' h

theorem Shorter.trans (h : Shorter s s₁) (h' : Rest s₁ s₂) : Shorter s s₂ :=
  ⟨h.1.trans h', h'.length_le.trans_lt h.2⟩

theorem Rest.shorter (h : Rest s s₁) (h' : Shorter s₁ s₂) : Shorter s s₂ :=
  ⟨h.trans h'.1, h'.2.trans_le h.length_le⟩

theorem rest_tail (s : Input) : Rest s s.tail :=
  s.tokens.tail_suffix

theorem shorter_tail (hk : s.first.kind ≠ .endOfInput) : Shorter s s.tail :=
  ⟨rest_tail s, by rw [Input.tokens_eq_cons hk]; simp⟩

-- Wherever the reading stands, a further token leads past the start.
theorem Rest.shorter_tail (h : Rest s s₁) (hs : s.tokens ≠ []) : Shorter s s₁.tail := by
  refine ⟨h.trans (rest_tail s₁), ?_⟩
  have := List.length_pos_iff.mpr hs
  have := h.length_le
  simp only [Input.tail, List.length_tail]
  omega

theorem Shorter.below (h : Shorter c.2 s) : Below (q, s) c :=
  .inl h

theorem Rest.below (h : Rest c.2 s) (hl : q.level < c.1.level) : Below (q, s) c := by
  rcases h.length_le.lt_or_eq with hn | hn
  case inl => exact .inl ⟨h, hn⟩
  case inr => exact .inr ⟨List.IsSuffix.eq_of_length h hn, hl⟩

end

-- A part that takes a token if it finds what it looks for.
structure Taking (e : {n : Nat} → Attempt n α) : Prop extends Plain e where
  taken : ∀ ⦃n⦄ (s : Cursor n) ⦃a⦄, (ExceptT.run e s).1 = .ok a →
    (ExceptT.run e s).2.tokens.length < s.tokens.length

namespace Taking

theorem bind {e : {n : Nat} → Attempt n α} {f : {n : Nat} → α → Attempt n β} (h : Taking e)
    (hf : ∀ a, Plain (f a)) : Taking (e >>= f) where
  toPlain   := h.toPlain.bind hf
  taken n s := by
    have ht := h.taken s
    rw [Attempt.run_bind]
    rcases h : ExceptT.run e s with ⟨_ | a, s₁⟩ <;> rw [h] at ht
    case error => rintro _ ⟨⟩
    case ok    => exact fun _ _ => ((hf a).rest s₁).length_le.trans_lt (ht rfl)

-- What is expected is no end of input.
theorem expect {extract : TokenKind → Option α} (he : extract .endOfInput = none) :
    Taking (expect expected extract) where
  toPlain   := .expect expected extract
  taken n s := by
    have hm : (Reading.expect expected extract).Meets 0 s _ := Attempt.spans_expect he
    have hm := (hm (Nat.zero_le _)).holds
    rcases h : ExceptT.run (Reading.expect expected extract) s with ⟨_ | a, s₁⟩ <;> rw [h] at hm
    case error => rintro _ ⟨⟩
    case ok    =>
      obtain ⟨l, hl, hp⟩ := hm
      have := hp.length_le
      rintro _ -
      show s₁.tokens.length < s.tokens.length
      rw [hl]
      simp at this ⊢
      omega

theorem expectKind (hk : kind ≠ .endOfInput) : Taking (expectKind kind) :=
  (expect (by simp [ofKind, hk.symm])).bind fun a => .pure a.2

end Taking

-- All calls are below `c` and what comes of them satisfies `Q`, if they keep what they have to.
def Calls.Descend (c : Routine × Input) (Q : α → Prop) : Calls α → Prop
  | done a => Q a
  | call q s next => Below (q, s) c ∧ ∀ r, q.Keeps s r → (next r).Descend c Q

theorem Calls.Descend.imp {t : Calls α} (h : t.Descend c P) (hi : ∀ a, P a → Q a) :
    t.Descend c Q := by
  induction t with
  | done a            => exact hi a h
  | call q s next ih  => exact ⟨h.1, fun r hr => ih r (h.2 r hr)⟩

theorem Calls.Descend.bind {t : Calls α} {f : α → Calls β} (h : t.Descend c P)
    (hf : ∀ a, P a → (f a).Descend c Q) : (t.bind f).Descend c Q := by
  induction t with
  | done a            => exact hf a h
  | call q s next ih  => exact ⟨h.1, fun r hr => ih r (h.2 r hr)⟩

-- What holds of the input behind a value or a failure.
def Settles (R Q : Input → Prop) (r : Outcome α) : Prop :=
  match r.1 with
  | .ok _    => Q r.2
  | .error _ => R r.2

namespace Reader

-- What a routine does is judged on the assumption that its calls keep what they have to keep.
def Descends (c : Routine × Input) (t : Reader α) (s : Input) (R Q : Input → Prop) : Prop :=
  (t s).Descend c (Settles R Q)

variable {c : Routine × Input} {q : Routine} {o s s₁ : Input} {R P Q : Input → Prop}

theorem descends_pure (h : Q s) : Descends c (pure a : Reader α) s R Q :=
  h

theorem Descends.imp {t : Reader α} (h : t.Descends c s R P) (hi : ∀ s', P s' → Q s') :
    t.Descends c s R Q := by
  refine Calls.Descend.imp h ?_
  rintro ⟨_ | a, s'⟩ hr
  case error => exact hr
  case ok    => exact hi s' hr

theorem Descends.bind {t : Reader α} {f : α → Reader β} (h : t.Descends c s R P)
    (hf : ∀ a s', P s' → (f a).Descends c s' R Q) : (t >>= f).Descends c s R Q := by
  refine Calls.Descend.bind h ?_
  rintro ⟨_ | a, s'⟩ hr
  case error => exact hr
  case ok    => exact hf a s' hr

-- A failure is recovered from wherever it happens.
theorem descends_recover {t : Reader α} {skip : Reader Unit} (h : t.Descends c s (Rest o) Q)
    (hs : ∀ s', Rest o s' → skip.Descends c s' R Q) : (recover skip t).Descends c s R Q := by
  refine Calls.Descend.bind h ?_
  rintro ⟨(_ | ⟨error, p⟩) | a, s'⟩ hr
  case error.reported => exact (hs s' hr).bind fun _ _ h => descends_pure h
  case error.because  => exact (hs (s'.report error p) hr).bind fun _ _ h => descends_pure h
  case ok             => exact hr

theorem descends_head_bind {f : Token → Reader α} :
    (of head >>= f).Descends c s R Q ↔ (f s.first).Descends c s R Q :=
  Iff.rfl

theorem descends_isAt_bind {f : Bool → Reader α} :
    (of (isAt kind) >>= f).Descends c s R Q ↔ (f (s.first.kind = kind)).Descends c s R Q :=
  Iff.rfl

theorem descends_atEnd_bind {f : Bool → Reader α} :
    (of atEnd >>= f).Descends c s R Q ↔ (f s.tokens.isEmpty).Descends c s R Q :=
  Iff.rfl

theorem descends_atClose_bind {f : Bool → Reader α} :
    (of atClose >>= f).Descends c s R Q ↔
      (f (s.tokens.isEmpty || s.first.kind = .rightBrace)).Descends c s R Q :=
  Iff.rfl

theorem descends_take_bind {f : Token → Reader α} :
    (of take >>= f).Descends c s R Q ↔ (f s.first).Descends c s.tail R Q :=
  Iff.rfl

theorem descends_report_bind {f : Unit → Reader α} :
    (report error p >>= f).Descends c s R Q ↔ (f ()).Descends c (s.report error p) R Q :=
  Iff.rfl

-- Where a part may fail, what is left is compared with an input `o` on the way to it.

theorem descends_of {e : {n : Nat} → Attempt n α} (h : Plain e) (hs : Rest o s) :
    (of e).Descends c s (Rest o) (Rest o) := by
  have hr := h.rest (⟨s, Nat.le_refl _⟩ : Cursor s.tokens.length)
  unfold Descends of Calls.Descend Settles
  dsimp only
  split <;> exact hs.trans hr

theorem descends_of_bind {e : {n : Nat} → Attempt n α} {f : α → Reader β} (h : Plain e)
    (hs : Rest o s) (hf : ∀ a s', Rest o s' → (f a).Descends c s' (Rest o) Q) :
    (of e >>= f).Descends c s (Rest o) Q :=
  (descends_of h hs).bind hf

theorem descends_taking_bind {e : {n : Nat} → Attempt n α} {f : α → Reader β} (h : Taking e)
    (hs : Rest o s) (hf : ∀ a s', Shorter o s' → (f a).Descends c s' (Rest o) Q) :
    (of e >>= f).Descends c s (Rest o) Q := by
  refine Descends.bind (P := Shorter o) ?_ hf
  have hr := h.rest (⟨s, Nat.le_refl _⟩ : Cursor s.tokens.length)
  have ht := h.taken (⟨s, Nat.le_refl _⟩ : Cursor s.tokens.length)
  unfold Descends of Calls.Descend Settles
  dsimp only
  split
  case h_1 ha => exact hs.shorter ⟨hr, ht ha⟩
  case h_2    => exact hs.trans hr

theorem descends_call (hb : Below (q, s) c) (hs : Rest o s) :
    (call q).Descends c s (Rest o) (Rest o) := by
  refine ⟨hb, ?_⟩
  rintro ⟨_ | a, s'⟩ hr
  case error => exact hs.trans hr.rest
  case ok    => exact hs.trans hr.rest

theorem descends_call_bind {f : q.Value → Reader α} (hb : Below (q, s) c) (hs : Rest o s)
    (hf : ∀ a s', Rest o s' → (f a).Descends c s' (Rest o) Q) :
    (call q >>= f).Descends c s (Rest o) Q :=
  (descends_call hb hs).bind hf

-- From here on the comparison may be with a later input.
theorem Descends.rebase {t : Reader α} (h : t.Descends c s (Rest s₁) (Rest s₁)) (ho : Rest o s₁)
    (hq : ∀ s', Rest s₁ s' → Q s') : t.Descends c s (Rest o) Q := by
  refine Calls.Descend.imp h ?_
  rintro ⟨_ | a, s'⟩ hr
  case error => exact ho.trans hr
  case ok    => exact hq s' hr

-- A call that cannot fail.
theorem descends_found (hq : q.recovers) (hb : Below (q, s) c) :
    (call q).Descends c s R fun s' => Rest s s' ∧ (q.isItem → s.tokens ≠ [] → Shorter s s') := by
  refine ⟨hb, ?_⟩
  rintro ⟨_ | a, s'⟩ hr
  case error => cases (hr.found hq).choose_spec
  case ok    => exact ⟨hr.rest, hr.taken⟩

theorem descends_found_bind {f : q.Value → Reader α} (hq : q.recovers) (hb : Below (q, s) c)
    (hf : ∀ a s', Rest s s' → (f a).Descends c s' R Q) : (call q >>= f).Descends c s R Q :=
  (descends_found hq hb).bind fun a s' h => hf a s' h.1

end Reader

end MiniJava.Reading
