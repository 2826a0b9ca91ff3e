import MiniJava.Proofs.Grammar.Basic
import MiniJava.Proofs.Prefix.Goal
import MiniJava.Proofs.Reading.Built

namespace MiniJava.Prefix

open Reading Grammar

namespace State

variable {σ σ' σ₁ σ₂ : State}

theorem after_append (σ : State) (l m : List Token) :
    σ.after (l ++ m) = (σ.after l).bind (·.after m) := by
  induction l generalizing σ with
  | nil         => rfl
  | cons t l hi =>
    simp only [List.cons_append, after]
    split
    case h_1 => exact hi _
    case h_2 => rfl

-- Whether a statement can start here, as a loop can wherever there can be a statement.
def opens (σ : State) : Bool :=
  match σ.step (.keyword .whileWord) with
  | .goes _ => true
  | _       => false

-- What matters of a state is what it does about the next token, and whether a statement can start.
structure Serves (σ σ' : State) (kind : TokenKind) : Prop where
  step  : σ.step kind = σ'.step kind
  opens : σ'.opens → σ.opens

theorem Serves.refl (σ : State) : Serves σ σ kind :=
  ⟨rfl, id⟩

theorem Serves.trans (h : Serves σ σ₁ kind) (h' : Serves σ₁ σ₂ kind) : Serves σ σ₂ kind :=
  ⟨h.step.trans h'.step, h.opens ∘ h'.opens⟩

theorem Serves.of_step (h : σ.step kind = σ'.step kind) (ho : σ'.opens = false) :
    Serves σ σ' kind :=
  ⟨h, fun hs => absurd (ho ▸ hs) Bool.false_ne_true⟩

theorem opens_of_step (h : σ.step (.keyword .whileWord) = σ'.step (.keyword .whileWord)) :
    σ'.opens → σ.opens := by
  simp only [opens, h]
  exact id

theorem exists_after_append {stop : Position} (h : σ.after l = some σ₁)
    (hk : Serves σ₁ σ' (firstOf stop (m ++ r)).kind) (h' : σ'.after m = some σ₂) :
    ∃ σ₃, σ.after (l ++ m) = some σ₃ ∧ Serves σ₃ σ₂ (firstOf stop r).kind := by
  cases m with
  | nil      =>
    cases h'
    exact ⟨σ₁, by simpa using h, hk⟩
  | cons t m =>
    refine ⟨σ₂, ?_, .refl σ₂⟩
    have hk : σ₁.step t.kind = σ'.step t.kind := hk.step
    rw [after_append, h, Option.bind_some, after, hk]
    exact h'

end State

-- A statement can start behind `l`.
def Opens (σ : State) (l : List Token) : Prop :=
  ∃ σ', σ.after l = some σ' ∧ σ'.opens

-- The goals refuse what stands behind `l`.
def Refuses (σ : State) (stop : Position) (l r : List Token) : Prop :=
  ∃ σ', σ.after l = some σ' ∧ σ'.step (firstOf stop r).kind = .stuck

-- Between `s` and `s'` nothing is reported, and the goals are met but for those of `σ'`.
structure Reads (σ : State) (s : Input) (σ' : State) (s' : Input) : Prop where
  passes : Passes s s'
  quiet  : s'.diagnostics = s.diagnostics
  run    : ∃ l σ₁, s.tokens = l ++ s'.tokens ∧ σ.after l = some σ₁ ∧
    σ₁.Serves σ' (firstOf s'.stop s'.tokens).kind

-- What the first report says: that the goals refuse a token, or that an expression is no statement
-- although all goals would be met but for its `;`.
inductive Blames (σ : State) (s : Input) : Diagnostic → Prop
  | token (hs : s.tokens = l ++ r) (hr : Refuses σ s.stop l r)
    (he : ∀ form, error ≠ .notAStatement form) :
    Blames σ s (.grammatical error (firstOf s.stop r).position)
  | expression (hs : s.tokens = l ++ (m ++ r)) (he : IsExpression (m ++ r) e r)
    (hk : (firstOf s.stop r).kind = .semicolon) (ho : Opens σ l) (hr : Refuses σ s.stop (l ++ m) r) :
    Blames σ s (.grammatical (.notAStatement e.form) e.position)

-- The first report between `s` and `s'`.
def Blamed (σ : State) (s s' : Input) : Prop :=
  ∃ d, Blames σ s d ∧ (s.diagnostics.toList ++ [d]) <+: s'.diagnostics.toList

-- `out` tells the goals that an attempt leaves to those after it.
inductive Tracked (σ : State) (s : Input) (out : α → State) : Except Mismatch α → Input → Prop
  | read (h : Reads σ s (out a) s') : Tracked σ s out (.ok a) s'
  | failed (h : Blames σ s (.grammatical error position)) (hq : s'.diagnostics = s.diagnostics) :
    Tracked σ s out (.error (.because error position)) s'
  | blamed (h : Blamed σ s s') : Tracked σ s out result s'

-- There are no malformed tokens.
def Clean (s : Input) : Prop :=
  ∀ t ∈ s.tokens, proper t.kind

-- A result is told by the goals before it.
def Traces (σ : State) (s : Input) (out : α → State) (result : α × Cursor m) : Prop :=
  Clean s → Leads s (fun a => Tracked σ s out (.ok a)) result

end MiniJava.Prefix

namespace MiniJava.Reading

open Prefix

-- A reader does what the goals before it ask for, and leaves those of `out`.
def Step.Tracks (e : Step n α) (σ : State) (s : Cursor n) (out : α → State) : Prop :=
  Traces σ s.toInput out (e s)

-- The attempt may have started before the cursor, at `s₀`.
def Attempt.Tracks (e : Attempt n α) (σ : State) (s₀ : Input) (s : Cursor n) (out : α → State) :
    Prop :=
  Clean s₀ → Leads s₀ (Tracked σ s₀ out) (ExceptT.run e s)

end MiniJava.Reading

namespace MiniJava.Prefix

open Reading

theorem Clean.passes (h : Clean s) (hp : Passes s s') : Clean s' :=
  fun t ht => h t (hp.suffix.subset ht)

theorem Clean.defect?_head {s : Cursor n} (h : Clean s.toInput) : s.head.kind.defect? = none := by
  cases hs : s.tokens with
  | nil      => simp [Cursor.head, hs, TokenKind.defect?]
  | cons t l =>
    have ht := h t (hs ▸ List.mem_cons_self)
    rw [Cursor.head_eq hs]
    simp_all [proper]

theorem Refuses.after (h : Reads σ s σ₁ s₁) (ht : s₁.tokens = m ++ r)
    (hr : Refuses σ₁ s₁.stop m r) :
    ∃ l, s.tokens = l ++ (m ++ r) ∧ Refuses σ s.stop (l ++ m) r := by
  obtain ⟨l, σ', hl, ha, hk⟩ := h.run
  obtain ⟨σ₂, hm, hv⟩ := hr
  rw [ht] at hl hk
  obtain ⟨σ₃, hn, he⟩ := State.exists_after_append ha hk hm
  exact ⟨l, hl, σ₃, hn, by rw [← h.passes.stop_eq, he.step, hv]⟩

theorem Blames.after (h : Reads σ s σ₁ s₁) (hb : Blames σ₁ s₁ d) : Blames σ s d := by
  cases hb with
  | token ht hr he         =>
    obtain ⟨l, hl, hr⟩ := hr.after h ht
    rw [h.passes.stop_eq]
    exact .token (by rw [hl, List.append_assoc]) hr he
  | expression ht he hk ho hr =>
    obtain ⟨l, σ', hl, ha, hs⟩ := h.run
    obtain ⟨σ₂, hm, hv⟩ := ho
    obtain ⟨σ₃, hn, ho⟩ := hr
    rw [ht] at hl hs
    obtain ⟨σ₄, hm, ho'⟩ := State.exists_after_append ha hs hm
    rw [← List.append_assoc] at hs
    obtain ⟨σ₅, hn, hr⟩ := State.exists_after_append ha hs hn
    rw [← List.append_assoc] at hl hn
    refine .expression hl he (h.passes.stop_eq ▸ hk) ⟨σ₄, hm, ho'.opens hv⟩ ⟨σ₅, hn, ?_⟩
    rw [← h.passes.stop_eq, hr.step, ho]

namespace Reads

variable {s s₁ s₂ : Input}

theorem refl (h : σ.Serves σ' (firstOf s.stop s.tokens).kind) : Reads σ s σ' s :=
  ⟨.refl, rfl, [], σ, rfl, rfl, h⟩

theorem trans (h₁ : Reads σ s σ₁ s₁) (h₂ : Reads σ₁ s₁ σ₂ s₂) : Reads σ s σ₂ s₂ where
  passes := h₁.passes.trans h₂.passes
  quiet  := h₂.quiet.trans h₁.quiet
  run    := by
    obtain ⟨l, σ', hl, ha, hk⟩ := h₁.run
    obtain ⟨m, σ'', hm, hb, hk'⟩ := h₂.run
    rw [hm] at hl hk
    rw [← h₂.passes.stop_eq] at hk
    obtain ⟨σ₃, hn, he⟩ := State.exists_after_append ha hk hb
    exact ⟨l ++ m, σ₃, by simpa using hl, hn, he.trans hk'⟩

end Reads

theorem Reads.refuses (h : Reads σ s σ' s')
    (hr : σ'.step (firstOf s'.stop s'.tokens).kind = .stuck) :
    ∃ l, s.tokens = l ++ s'.tokens ∧ Refuses σ s.stop l s'.tokens := by
  obtain ⟨l, σ₁, hl, ha, hk⟩ := h.run
  exact ⟨l, hl, σ₁, ha, by rw [← h.passes.stop_eq, hk.step, hr]⟩

theorem Blamed.after (h : Reads σ s σ₁ s₁) (hb : Blamed σ₁ s₁ s') : Blamed σ s s' :=
  have ⟨d, hd, hs⟩ := hb
  ⟨d, hd.after h, h.quiet ▸ hs⟩

theorem Blamed.passes (h : Blamed σ s s₁) (hp : Passes s₁ s') : Blamed σ s s' :=
  have ⟨d, hd, hs⟩ := h
  ⟨d, hd, hs.trans hp.reports_kept⟩

theorem Tracked.after (h : Reads σ s σ₁ s₁) (ht : Tracked σ₁ s₁ out result s') :
    Tracked σ s out result s' := by
  cases ht with
  | read hr      => exact .read (h.trans hr)
  | failed hb hq => exact .failed (hb.after h) (hq.trans h.quiet)
  | blamed hb    => exact .blamed (hb.after h)

theorem Tracked.error {out : α → State} {out' : β → State}
    (h : Tracked σ s out (.error m) s') : Tracked σ s out' (.error m) s' := by
  cases h with
  | failed hb hq => exact .failed hb hq
  | blamed hb    => exact .blamed hb

namespace Traces

variable {s : Cursor n}

theorem start (ht : Traces σ₁ s.toInput out result) (h : σ.Serves σ₁ s.head.kind) :
    Traces σ s.toInput out result :=
  fun hc => ⟨(ht hc).passes, (ht hc).holds.after (.refl h)⟩

theorem pure (h : σ.Serves (out a) s.head.kind) : Traces σ s.toInput out (a, s) :=
  fun _ => ⟨.refl, .read (.refl h)⟩

theorem afterToken {s : Cursor (n + 1)} {rest : Token → Step n α}
    (h : Traces σ s.toInput out (rest s.head s.next.2)) :
    Traces σ s.toInput out (Reading.afterToken rest s) :=
  h

theorem trans {first : α × Cursor m} {second : β × Cursor m'} {s : Input} {s' : Cursor n} {a : γ}
    (h₁ : Traces σ s (fun _ => σ₁) first) (h₂ : Traces σ₁ first.2.toInput (fun _ => σ₂) second)
    (hs : s'.toInput = second.2.toInput) : Traces σ s (fun _ => σ₂) (a, s') := by
  intro hc
  obtain ⟨hp, ht⟩ := h₁ hc
  obtain ⟨hp', ht'⟩ := h₂ (hc.passes hp)
  refine ⟨hs ▸ hp.trans hp', ?_⟩
  dsimp only
  rw [hs]
  cases ht with
  | read hr   =>
    cases ht' with
    | read hr'  => exact .read (hr.trans hr')
    | blamed hb => exact .blamed (hb.after hr)
  | blamed hb => exact .blamed (hb.passes hp')

end Traces

end MiniJava.Prefix

namespace MiniJava.Reading

open Prefix

theorem Cursor.quiet_next {s : Cursor n} (hc : Clean s.toInput) :
    s.next.2.diagnostics = s.diagnostics := by
  obtain ⟨⟨_ | ⟨t, l⟩, stop, nextId, diagnostics⟩, fits⟩ := s
  case nil  => simp [next]
  case cons =>
    have hd : t.kind.defect? = none := hc.defect?_head
    simp [next, defect?, hd]

-- The token that the goals ask for is taken.
theorem Cursor.reads_next {s : Cursor n} {s' : Cursor m} (hs : s'.toInput = s.next.2.toInput)
    (hc : Clean s.toInput) (hk : s.head.kind ≠ .endOfInput)
    (hg : σ.step s.head.kind = .goes goals) : Reads σ s.toInput ⟨false, goals⟩ s'.toInput := by
  rw [hs]
  refine ⟨s.passes_next, quiet_next hc, [s.head], _, tokens_eq_cons hk, ?_, .refl _⟩
  simp [State.after, hg]

namespace Attempt

variable {σ : State} {s : Cursor n} {s₀ : Input} {out : α → State}

theorem Tracks.after {e : Attempt n α} (h : Reads σ s₀ σ₁ s₁) (ht : e.Tracks σ₁ s₁ s out) :
    e.Tracks σ s₀ s out :=
  fun hc =>
    have ht := ht (hc.passes h.passes)
    ⟨h.passes.trans ht.passes, ht.holds.after h⟩

-- Goals that do the same about the next token are as good.
theorem Tracks.start {e : Attempt n α} (ht : e.Tracks σ₁ s.toInput s out)
    (h : σ.Serves σ₁ s.head.kind) : e.Tracks σ s.toInput s out :=
  ht.after (.refl h)

theorem Tracks.pure (h : σ.Serves (out a) s.head.kind) :
    Tracks (pure a : Attempt n α) σ s.toInput s out :=
  fun _ => ⟨.refl, .read (.refl h)⟩

theorem Tracks.bind {e : Attempt n α} {f : α → Attempt n β} {out' : β → State}
    (h : e.Tracks σ s₀ s out) (hf : ∀ a s', (f a).Tracks (out a) s'.toInput s' out') :
    Tracks (e >>= f) σ s₀ s out' := by
  intro hc
  obtain ⟨hp, ht⟩ := h hc
  rw [run_bind]
  rcases he : ExceptT.run e s with ⟨m | a, s'⟩ <;> rw [he] at hp ht
  case error => exact ⟨hp, ht.error⟩
  case ok =>
    obtain ⟨hp', hf⟩ := hf a s' (hc.passes hp)
    refine ⟨hp.trans hp', ?_⟩
    cases ht with
    | read hr   => exact hf.after hr
    | blamed hb => exact .blamed (hb.passes hp')

-- The goals that are left may be exchanged as well.
theorem Tracks.last {e : Attempt n α} {out' : α → State} (h : e.Tracks σ s₀ s out)
    (ho : ∀ a kind, (out a).step kind = (out' a).step kind) :
    e.Tracks σ s₀ s out' := by
  intro hc
  obtain ⟨hp, ht⟩ := h hc
  rcases he : ExceptT.run e s with ⟨m | a, s'⟩ <;> rw [he] at hp ht
  case error => exact ⟨hp, ht.error⟩
  case ok    =>
    refine ⟨hp, ?_⟩
    cases ht with
    | read hr   => exact .read (hr.trans (.refl ⟨ho a _, State.opens_of_step (ho a _)⟩))
    | blamed hb => exact .blamed hb

@[simp]
theorem tracks_head_bind {f : Token → Attempt n β} {out : β → State} :
    Tracks (head >>= f) σ s₀ s out ↔ (f s.head).Tracks σ s₀ s out :=
  Iff.rfl

@[simp]
theorem tracks_isAt_bind {f : Bool → Attempt n β} {out : β → State} :
    Tracks (isAt kind >>= f) σ s₀ s out ↔ (f (s.head.kind = kind)).Tracks σ s₀ s out :=
  Iff.rfl

theorem tracks_take_bind {f : Token → Attempt n β} {out : β → State} :
    Tracks (take >>= f) σ s₀ s out ↔ (f s.head).Tracks σ s₀ s.next.2.lift out :=
  Iff.rfl

theorem tracks_attemptAfter {s : Cursor (n + 1)} {rest : Token → Attempt n α} :
    Tracks (attemptAfter rest) σ s₀ s out ↔ (rest s.head).Tracks σ s₀ s.next.2 out :=
  ⟨fun h hc => ⟨(h hc).passes, (h hc).holds⟩, fun h hc => ⟨(h hc).passes, (h hc).holds⟩⟩

-- Behind a token that the goals ask for.
theorem Tracks.taken {e : Attempt n α} {s₁ : Cursor m}
    (h : e.Tracks ⟨false, goals⟩ s.toInput s out) (hk : s₁.head.kind = kind)
    (hg : σ.step kind = .goes goals) (hn : kind ≠ .endOfInput)
    (hs : s.toInput = s₁.next.2.toInput) : e.Tracks σ s₁.toInput s out :=
  fun hc =>
    have hr : Reads σ s₁.toInput ⟨false, goals⟩ s.toInput := s₁.reads_next hs hc (hk ▸ hn) (hk ▸ hg)
    Tracks.after hr h hc

theorem Tracks.below {step : Cursor n → α × Cursor (n - 1)} (h : Traces σ s.toInput out (step s)) :
    (below step).Tracks σ s.toInput s out :=
  fun hc => ⟨(h hc).passes, (h hc).holds⟩

theorem Tracks.freshId : freshId.Tracks σ s.toInput s fun _ => σ :=
  fun _ => ⟨.single (.number _), .read ⟨.single (.number _), rfl, [], σ, rfl, rfl, .refl σ⟩⟩

-- The token before `s` is blamed.
theorem Tracks.giveUp {s₁ : Cursor m} (hp : Passes s₁.toInput s.toInput)
    (hq : Clean s₁.toInput → s.diagnostics = s₁.diagnostics) (hr : σ.step s₁.head.kind = .stuck) (he : ∀ form, error ≠ .notAStatement form) :
    (giveUp error s₁.head.position : Attempt n α).Tracks σ s₁.toInput s out :=
  fun hc => ⟨hp, .failed (.token (List.nil_append _).symm ⟨σ, rfl, hr⟩ he) (hq hc)⟩

theorem acceptToken_of_none {extract : TokenKind → Option α} (hn : extract t.kind = none)
    (hd : t.kind.defect? = none) :
    (acceptToken expected extract t : Attempt n α) =
      Reading.giveUp (.unexpected expected t.kind) t.position := by
  simp [acceptToken, hn, hd]

theorem Tracks.acceptToken {extract : TokenKind → Option α} {G : α → List Goal}
    {s₁ : Cursor m} (hs : s.toInput = s₁.next.2.toInput)
    (h : match extract s₁.head.kind with
      | some a => s₁.head.kind ≠ .endOfInput ∧ σ.step s₁.head.kind = .goes (G a)
      | none   => σ.step s₁.head.kind = .stuck) :
    (acceptToken expected extract s₁.head).Tracks σ s₁.toInput s fun a => ⟨false, G a⟩ := by
  intro hc
  have hp : Passes s₁.toInput s.toInput := hs ▸ s₁.passes_next
  split at h <;> rename_i ha
  case h_1 a =>
    unfold Reading.acceptToken
    rw [ha]
    exact ⟨hp, .read (s₁.reads_next hs hc h.1 h.2)⟩
  case h_2   =>
    rw [acceptToken_of_none ha hc.defect?_head]
    exact Tracks.giveUp hp (fun hc => hs ▸ Cursor.quiet_next hc) h (by simp) hc

-- A token that the goals either ask for or refuse.
theorem Tracks.expect {extract : TokenKind → Option α} {G : α → List Goal}
    (h : match extract s.head.kind with
      | some a => s.head.kind ≠ .endOfInput ∧ σ.step s.head.kind = .goes (G a)
      | none   => σ.step s.head.kind = .stuck) :
    (expect expected extract).Tracks σ s.toInput s fun a => ⟨false, G a.1⟩ := by
  unfold Reading.expect
  rw [tracks_take_bind]
  exact .bind (Tracks.acceptToken (s := s.next.2.lift) rfl h) fun a s' => .pure (.refl _)

theorem Tracks.refused {extract : TokenKind → Option α} {f : α → Attempt n β} {out : β → State}
    {s₁ : Cursor m} (hs : s.toInput = s₁.next.2.toInput) (hn : extract s₁.head.kind = none)
    (hr : σ.step s₁.head.kind = .stuck) :
    Tracks (Reading.acceptToken expected extract s₁.head >>= f) σ s₁.toInput s out := by
  intro hc
  rw [acceptToken_of_none hn hc.defect?_head]
  exact Tracks.giveUp (hs ▸ s₁.passes_next) (fun hc => hs ▸ Cursor.quiet_next hc) hr (by simp) hc

theorem Tracks.acceptKind {s₁ : Cursor m} (hs : s.toInput = s₁.next.2.toInput)
    (h : σ.step s₁.head.kind = State.step ⟨false, .exact kind :: K⟩ s₁.head.kind)
    (hk : kind ≠ .endOfInput) :
    (Reading.acceptToken expected (ofKind kind) s₁.head).Tracks σ s₁.toInput s
      fun _ => ⟨false, K⟩ := by
  refine Tracks.acceptToken (G := fun _ => K) hs ?_
  rw [h]
  by_cases h : s₁.head.kind = kind <;>
    simp [ofKind, h, hk, State.step, State.verdict, Goal.react]

theorem Tracks.expectKind (hk : kind ≠ .endOfInput) :
    (expectKind kind).Tracks ⟨f, .exact kind :: K⟩ s.toInput s fun _ => ⟨false, K⟩ := by
  unfold Reading.expectKind Reading.expect
  refine .bind (tracks_take_bind.mpr ?_) fun a s' => .pure (.refl _)
  exact .bind (Tracks.acceptKind (s := s.next.2.lift) rfl rfl hk) fun a s' => .pure (.refl _)

theorem Tracks.expectIdentifier :
    expectIdentifier.Tracks ⟨f, .identifier :: K⟩ s.toInput s fun _ => ⟨false, K⟩ := by
  refine Tracks.expect (G := fun _ => K) ?_
  cases s.head.kind <;> simp [State.step, State.verdict, Goal.react]

theorem Tracks.expectNamedType :
    (expectNamedType name).Tracks ⟨f, .namedType name :: K⟩ s.toInput s fun _ => ⟨false, K⟩ := by
  refine (Tracks.expect (G := fun _ => K) ?_).bind fun a s' => .pure (.refl _)
  cases s.head.kind <;> simp [State.step, State.verdict, Goal.react]
  split <;> simp_all

theorem Tracks.expectType {G : (String × Bool) → List Goal}
    (h : match typeName? s.head.kind with
      | some a => σ.step s.head.kind = .goes (G a)
      | none   => σ.step s.head.kind = .stuck) :
    expectType.Tracks σ s.toInput s fun a => ⟨false, G a.1⟩ := by
  refine Tracks.expect ?_
  cases hk : s.head.kind <;> simp_all [typeName?]

end Attempt

theorem Step.Tracks.lift {e : Step n α} {s : Cursor n} (h : e.Tracks σ s out) :
    (liftM e : Attempt n α).Tracks σ s.toInput s out := by
  intro hc
  rw [Attempt.run_lift]
  exact ⟨(h hc).passes, (h hc).holds⟩

-- A failure is reported before anything else.
theorem Attempt.Tracks.recover_cases {s₀ : Input} {body : Attempt n α} {sync : Cursor n → Cursor n}
    (h : body.Tracks σ s₀ s out) (hs : ∀ s : Cursor n, Passes s.toInput (sync s).toInput)
    (hc : Clean s₀) :
    Passes s₀ (Reading.recover sync body s).2.toInput ∧
      match Reading.recover sync body s with
      | (some a, s') => Tracked σ s₀ out (.ok a) s'.toInput
      | (none, s')   => Blamed σ s₀ s'.toInput := by
  obtain ⟨hp, ht⟩ := h hc
  rw [run_recover]
  match he : ExceptT.run body s with
  | (.ok a, s') =>
    rw [he] at hp ht
    exact ⟨hp, ht⟩
  | (.error .reported, s') =>
    rw [he] at hp ht
    cases ht with | blamed hb =>
    exact ⟨hp.trans (hs s'), hb.passes (hs s')⟩
  | (.error (.because e p), s') =>
    rw [he] at hp ht
    have hr : Passes s'.toInput (sync (s'.report e p)).toInput :=
      (Passes.report s'.toInput e p).trans (hs (s'.report e p))
    refine ⟨hp.trans hr, ?_⟩
    cases ht with
    | failed hb hq =>
      have hq : s'.diagnostics = s₀.diagnostics := hq
      refine ⟨_, hb, List.IsPrefix.trans ?_ (hs _).reports_kept⟩
      simp [Cursor.report, hq]
    | blamed hb    => exact hb.passes hr

theorem Attempt.Tracks.recover {s₀ : Input} {body : Attempt n α} {sync : Cursor n → Cursor n}
    (h : body.Tracks σ s₀ s fun _ => σ')
    (hs : ∀ s : Cursor n, Passes s.toInput (sync s).toInput) :
    Traces σ s₀ (fun _ => σ') (Reading.recover sync body s) := by
  intro hc
  obtain ⟨hp, ht⟩ := h.recover_cases hs hc
  refine ⟨hp, ?_⟩
  split at ht <;> rename_i hr <;> rw [hr]
  case h_1 =>
    cases ht with
    | read hr   => exact .read hr
    | blamed hb => exact .blamed hb
  case h_2 => exact .blamed ht

theorem Attempt.Tracks.close {s₀ : Input} {body : Attempt n α} {sync : Cursor n → Cursor n}
    (h : body.Tracks σ s₀ s out) (hs : ∀ s : Cursor n, Passes s.toInput (sync s).toInput) :
    Traces σ s₀ out
      ((Reading.recover sync body s).1.getD missing, (Reading.recover sync body s).2) := by
  intro hc
  obtain ⟨hp, ht⟩ := h.recover_cases hs hc
  refine ⟨hp, ?_⟩
  split at ht <;> rename_i hr <;> rw [hr]
  case h_1 => exact ht
  case h_2 => exact .blamed ht

end MiniJava.Reading
