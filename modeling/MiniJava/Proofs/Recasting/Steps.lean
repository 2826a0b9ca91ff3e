import MiniJava.Proofs.Reading.Postcondition
import MiniJava.Proofs.Recasting.Basic
import MiniJava.Proofs.Token.Words

namespace MiniJava

variable {ρ : Recasting}

namespace TokenKind

theorem recast_eq_iff {kind k : TokenKind} (h : kind.isType = false) :
    k.recast ρ = kind ↔ k = kind := by
  cases k with
  | identifier name =>
    refine iff_of_false ?_ ?_ <;>
      · rintro rfl
        cases h
  | _               => exact Iff.rfl

theorem defect?_recast (k : TokenKind) : (k.recast ρ).defect? = k.defect? := by
  cases k <;> rfl

end TokenKind

namespace Reading

theorem defect?_recast (t : Token) : defect? (t.recast ρ) = (defect? t).map (·.recast ρ) := by
  simp only [defect?, Token.recast, TokenKind.defect?_recast]
  cases t.kind.defect? <;> rfl

-- What the tokens are reported for.
theorem append_defects (ds : Array Diagnostic) (l : List Token) :
    ds.map (·.recast ρ) ++ (l.map (·.recast ρ)).filterMap defect? =
      (ds ++ l.filterMap defect?).map (·.recast ρ) := by
  have hl : (l.map (·.recast ρ)).filterMap defect? = (l.filterMap defect?).map (·.recast ρ) := by
    rw [List.filterMap_map, List.map_filterMap]
    exact congrArg (l.filterMap ·) (funext defect?_recast)
  rw [hl]
  simp [← Array.toList_inj]

-- Inputs that only differ in names and positions.
structure Input.Recast (ρ : Recasting) (s s' : Input) : Prop where
  tokens      : s'.tokens = s.tokens.map (·.recast ρ)
  builtin     : ∀ t ∈ s.tokens, t.kind.NamesBuiltin
  stop        : s'.stop = ρ.place s.stop
  nextId      : s'.nextId = s.nextId
  diagnostics : s'.diagnostics = s.diagnostics.map (·.recast ρ)

namespace Input.Recast

variable {s s' : Input}

theorem tail (h : s.Recast ρ s') : s.tail.Recast ρ s'.tail where
  tokens      := by simp [Input.tail, h.tokens]
  builtin     := fun t ht => h.builtin t (List.mem_of_mem_tail ht)
  stop        := h.stop
  nextId      := h.nextId
  diagnostics := by
    simp only [Input.tail, h.tokens, h.diagnostics, ← List.map_take]
    exact append_defects _ _

theorem report (h : s.Recast ρ s') (e : SyntaxError) (p : Position) :
    (s.report e p).Recast ρ (s'.report (e.recast ρ) (ρ.place p)) where
  tokens      := h.tokens
  builtin     := h.builtin
  stop        := h.stop
  nextId      := h.nextId
  diagnostics := by
    simp [Input.report, h.diagnostics, Diagnostic.recast, Diagnostic.grammatical, Problem.recast]

end Input.Recast

def Mismatch.recast (ρ : Recasting) : Mismatch → Mismatch
  | reported  => reported
  | because e p => because (e.recast ρ) (ρ.place p)

-- Outcomes that only differ in names and positions, where `f` recasts values.
structure Alike (ρ : Recasting) (f : α → β) (out : α × Cursor n) (out' : β × Cursor m) : Prop where
  value : out'.1 = f out.1
  input : out.2.toInput.Recast ρ out'.2.toInput

def recastResult (ρ : Recasting) (f : α → β) : Except Mismatch α → Except Mismatch β
  | .ok a    => .ok (f a)
  | .error m => .error (m.recast ρ)

-- Steps and attempts that only differ in names and positions.
def Step.Recasts (ρ : Recasting) (f : α → β) (e : Step n α) (e' : Step n β) : Prop :=
  ∀ s s', s.toInput.Recast ρ s'.toInput → Alike ρ f (e s) (e' s')

def Attempt.Recasts (ρ : Recasting) (f : α → β) (e : Attempt n α) (e' : Attempt n β) : Prop :=
  Step.Recasts ρ (recastResult ρ f) (ExceptT.run e) (ExceptT.run e')

namespace Cursor

variable {s s' : Cursor n}

theorem head_recast (h : s.toInput.Recast ρ s'.toInput) : s'.head = s.head.recast ρ := by
  rw [head, head, h.tokens, h.stop]
  cases s.tokens <;> rfl

theorem namesBuiltin_head (h : s.toInput.Recast ρ s'.toInput) : s.head.kind.NamesBuiltin := by
  have hb := h.builtin
  rw [head]
  revert hb
  cases s.tokens with
  | nil      => exact fun _ => trivial
  | cons t l => exact fun hb => hb t List.mem_cons_self

theorem skipUntil_recast {stop : TokenKind → Bool}
    (hs : ∀ k : TokenKind, stop (k.recast ρ) = stop k) (h : s.toInput.Recast ρ s'.toInput) :
    (s.skipUntil stop).toInput.Recast ρ (s'.skipUntil stop).toInput where
  tokens       := by
    simp only [skipUntil, h.tokens, List.dropWhile_map, Function.comp_def, Token.recast, hs]
  builtin t ht := h.builtin t ((List.dropWhile_sublist _).mem ht)
  stop         := h.stop
  nextId       := h.nextId
  diagnostics  := by
    simp only [skipUntil, h.tokens, h.diagnostics, List.takeWhile_map, Function.comp_def,
      Token.recast, hs]
    exact append_defects _ _

theorem skipThrough_recast {last : TokenKind} (hl : last.isType = false)
    (h : s.toInput.Recast ρ s'.toInput) :
    (s.skipThrough last).toInput.Recast ρ (s'.skipThrough last).toInput :=
  (skipUntil_recast (fun _ => decide_eq_decide.mpr (TokenKind.recast_eq_iff hl)) h).tail

end Cursor

namespace Attempt

theorem Recasts.pure {f : α → β} (h : b = f a) :
    Recasts ρ f (pure a : Attempt n α) (pure b : Attempt n β) :=
  fun _ _ hs => ⟨congrArg Except.ok h, hs⟩

theorem Recasts.bind {e : Attempt n α} {e' : Attempt n α'} {k : α → Attempt n β}
    {k' : α' → Attempt n β'} {f : α → α'} {g : β → β'} (h : e.Recasts ρ f e')
    (hk : ∀ a, (k a).Recasts ρ g (k' (f a))) : Recasts ρ g (e >>= k) (e' >>= k') := by
  intro s s' hs
  obtain ⟨hv, hi⟩ := h s s' hs
  rw [run_bind, run_bind]
  generalize ExceptT.run e s = out at hv hi
  generalize ExceptT.run e' s' = out' at hv hi
  obtain ⟨m | a, s₁⟩ := out <;> obtain ⟨_, s₁'⟩ := out' <;> cases hv
  case error => exact ⟨rfl, hi⟩
  case ok    => exact hk a s₁ s₁' hi

theorem Recasts.throw (m : Mismatch) (f : α → β) :
    Recasts ρ f (throw m : Attempt n α) (throw (m.recast ρ) : Attempt n β) :=
  fun _ _ hs => ⟨rfl, hs⟩

theorem Recasts.giveUp (e : SyntaxError) (p : Position) (f : α → β) :
    Recasts ρ f (giveUp e p : Attempt n α) (giveUp (e.recast ρ) (ρ.place p) : Attempt n β) :=
  .throw (.because e p) f

theorem Recasts.head_bind {k : Token → Attempt n α} {k' : Token → Attempt n β} {f : α → β}
    (h : ∀ t : Token, t.kind.NamesBuiltin → (k t).Recasts ρ f (k' (t.recast ρ))) :
    Recasts ρ f (head >>= k) (head >>= k') := by
  intro s s' hs
  have hk := h s.head (Cursor.namesBuiltin_head hs) s s' hs
  rw [← Cursor.head_recast hs] at hk
  exact hk

theorem Recasts.isAt_bind {kind : TokenKind} {k : Bool → Attempt n α} {k' : Bool → Attempt n β}
    {f : α → β} (h : ∀ b, (k b).Recasts ρ f (k' b)) (hn : kind.isType = false := by rfl) :
    Recasts ρ f (isAt kind >>= k) (isAt kind >>= k') := by
  intro s s' hs
  have hb : decide (s'.head.kind = kind) = decide (s.head.kind = kind) := by
    rw [Cursor.head_recast hs]
    exact decide_eq_decide.mpr (TokenKind.recast_eq_iff hn)
  show Alike ρ _ _ (ExceptT.run (k' (decide (s'.head.kind = kind))) s')
  rw [hb]
  exact h _ s s' hs

theorem Recasts.attemptAfter {k : Token → Attempt n α} {k' : Token → Attempt n β} {f : α → β}
    (h : ∀ t : Token, t.kind.NamesBuiltin → (k t).Recasts ρ f (k' (t.recast ρ))) :
    Recasts ρ f (attemptAfter k) (attemptAfter k') := by
  intro s s' hs
  have hk := h s.head (Cursor.namesBuiltin_head hs) s.next.2 s'.next.2 hs.tail
  rw [← Cursor.head_recast hs] at hk
  exact ⟨hk.value, hk.input⟩

theorem Recasts.below {step step' : Cursor n → α × Cursor (n - 1)} {f : α → α}
    (h : ∀ s s', s.toInput.Recast ρ s'.toInput → Alike ρ f (step s) (step' s')) :
    Recasts ρ f (below step) (below step') :=
  fun s s' hs => ⟨congrArg Except.ok (h s s' hs).value, (h s s' hs).input⟩

theorem Recasts.take_bind {k : Token → Attempt n α} {k' : Token → Attempt n β} {f : α → β}
    (h : ∀ t : Token, t.kind.NamesBuiltin → (k t).Recasts ρ f (k' (t.recast ρ))) :
    Recasts ρ f (take >>= k) (take >>= k') := by
  intro s s' hs
  have hk := h s.head (Cursor.namesBuiltin_head hs) s.next.2.lift s'.next.2.lift hs.tail
  rw [← Cursor.head_recast hs] at hk
  exact hk

theorem recasts_freshId : Recasts ρ id (freshId : Attempt n NodeId) freshId :=
  fun _ _ hs => ⟨congrArg Except.ok hs.nextId, hs.tokens, hs.builtin, hs.stop,
    congrArg (· + 1) hs.nextId, hs.diagnostics⟩

theorem recasts_report (e : SyntaxError) (p : Position) : Recasts ρ id
    (modify (Cursor.report e p) : Attempt n Unit)
    (modify (Cursor.report (e.recast ρ) (ρ.place p))) :=
  fun _ _ hs => ⟨rfl, hs.report e p⟩

theorem Recasts.acceptToken {extract : TokenKind → Option α} {f : α → α}
    (h : extract (t.kind.recast ρ) = (extract t.kind).map f) :
    Recasts ρ f (acceptToken expected extract t : Attempt n α)
      (acceptToken expected extract (t.recast ρ)) := by
  simp only [Reading.acceptToken, Token.recast, TokenKind.defect?_recast, h]
  cases extract t.kind with
  | some a => exact .pure rfl
  | none   =>
    show Recasts ρ f (if _ then _ else _) (if _ then _ else _)
    split
    case isTrue  => exact .throw .reported f
    case isFalse => exact .giveUp (.unexpected expected t.kind) t.position f

theorem recasts_acceptKind {kind : TokenKind} (hn : kind.isType = false := by rfl) :
    Recasts ρ id (acceptToken (.token kind) (ofKind kind) t : Attempt n Unit)
      (acceptToken (.token kind) (ofKind kind) (t.recast ρ)) := by
  refine .acceptToken ?_
  simp only [ofKind, TokenKind.recast_eq_iff hn, Option.map_id, id]

theorem Recasts.expect {extract : TokenKind → Option α} {f : α → α}
    (h : ∀ k : TokenKind, k.NamesBuiltin → extract (k.recast ρ) = (extract k).map f) :
    Recasts ρ (fun a => (f a.1, ρ.place a.2)) (expect expected extract : Attempt n (α × Position))
      (expect expected extract) :=
  .take_bind fun t ht => (acceptToken (h t.kind ht)).bind fun _ => .pure rfl

theorem recasts_expectKind {kind : TokenKind} (hn : kind.isType = false := by rfl) :
    Recasts ρ ρ.place (expectKind kind : Attempt n Position) (expectKind kind) := by
  refine .bind (.expect (f := id) fun k _ => ?_) fun _ => .pure rfl
  simp only [ofKind, TokenKind.recast_eq_iff hn, Option.map_id, id]

theorem recasts_expectIdentifier : Recasts ρ (fun a => (ρ.name a.1, ρ.place a.2))
    (expectIdentifier : Attempt n (String × Position)) expectIdentifier :=
  .expect fun k _ => by cases k <;> rfl

-- The name of a built-in type stays.
theorem typeName?_recast {k : TokenKind} (h : k.NamesBuiltin) :
    typeName? (k.recast ρ) = (typeName? k).map fun a => (ρ.name a.1, a.2) := by
  cases k with
  | typeName name builtin =>
    have hn : ρ.name name = name := ρ.builtin name h
    simp [TokenKind.recast, typeName?, hn]
  | _                     => rfl

theorem recasts_expectType : Recasts ρ (fun a => ((ρ.name a.1.1, a.1.2), ρ.place a.2))
    (expectType : Attempt n ((String × Bool) × Position)) expectType :=
  .expect fun _ => typeName?_recast

theorem recasts_expectNamedType : Recasts ρ ρ.place (expectNamedType name : Attempt n Position)
    (expectNamedType name) := by
  refine .bind (.expect (f := id) fun k _ => ?_) fun _ => .pure rfl
  cases k <;> simp [TokenKind.recast]

end Attempt

theorem Step.Recasts.lift {e : Step n α} {e' : Step n β} {f : α → β} (h : e.Recasts ρ f e') :
    Attempt.Recasts ρ f (liftM e : Attempt n α) (liftM e' : Attempt n β) :=
  fun s s' hs => ⟨congrArg Except.ok (h s s' hs).value, (h s s' hs).input⟩

theorem Attempt.Recasts.recover {body : Attempt n α} {body' : Attempt n β} {f : α → β}
    {sync : Cursor n → Cursor n}
    (hsync : ∀ s s', s.toInput.Recast ρ s'.toInput → (sync s).toInput.Recast ρ (sync s').toInput)
    (h : body.Recasts ρ f body') :
    Step.Recasts ρ (Option.map f) (Reading.recover sync body) (Reading.recover sync body') := by
  intro s s' hs
  obtain ⟨hv, hi⟩ := h s s' hs
  rw [run_recover, run_recover]
  generalize ExceptT.run body s = out at hv hi
  generalize ExceptT.run body' s' = out' at hv hi
  obtain ⟨m | a, s₁⟩ := out <;> obtain ⟨_, s₁'⟩ := out' <;> cases hv
  case error =>
    cases m with
    | reported    => exact ⟨rfl, hsync _ _ hi⟩
    | because e p => exact ⟨rfl, hsync _ _ (hi.report e p)⟩
  case ok    => exact ⟨rfl, hi⟩

theorem Attempt.Recasts.close {body : Attempt n α} {body' : Attempt n β} {f : α → β}
    {sync : Cursor n → Cursor n}
    (hsync : ∀ s s', s.toInput.Recast ρ s'.toInput → (sync s).toInput.Recast ρ (sync s').toInput)
    (h : body.Recasts ρ f body') {s s' : Cursor n} (hs : s.toInput.Recast ρ s'.toInput)
    (hm : missing' = f missing) :
    Alike ρ f ((Reading.recover sync body s).1.getD missing, (Reading.recover sync body s).2)
      ((Reading.recover sync body' s').1.getD missing', (Reading.recover sync body' s').2) := by
  obtain ⟨hv, hi⟩ := h.recover hsync s s' hs
  refine ⟨?_, hi⟩
  rw [hv, hm, Option.getD_map]

end Reading

end MiniJava
