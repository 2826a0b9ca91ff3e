import MiniJava.Proofs.Reading.Placeholder
import MiniJava.Proofs.Reading.Postcondition
import MiniJava.Tree.Nodes

namespace MiniJava.Reading

-- `D` is what the grammar says of the tokens and the tree. The nodes are numbered in order and
-- every placeholder is paid for by a diagnostic. If there are no new diagnostics, the tokens are
-- those of a phrase of the grammar and no number is left out.
structure Built (ids : List NodeId) (gaps : Nat) (D : Prop) (s s' : Input) : Prop where
  passes  : Passes s s'
  ordered : ids.Sublist (List.range' s.nextId (s'.nextId - s.nextId))
  paid    : s.diagnostics.size + gaps ≤ s'.diagnostics.size
  derives : s'.diagnostics.size = s.diagnostics.size →
    D ∧ s'.nextId = s.nextId + ids.length

theorem sublist_range'_append {lo mid hi : Nat} {a b : List Nat} (hl : lo ≤ mid) (hr : mid ≤ hi)
    (ha : a.Sublist (List.range' lo (mid - lo))) (hb : b.Sublist (List.range' mid (hi - mid))) :
    (a ++ b).Sublist (List.range' lo (hi - lo)) := by
  have hm : lo + 1 * (mid - lo) = mid := by omega
  have he : mid - lo + (hi - mid) = hi - lo := by omega
  have happ : List.range' lo (mid - lo) ++ List.range' (lo + 1 * (mid - lo)) (hi - mid) =
      List.range' lo (mid - lo + (hi - mid)) := List.range'_append
  rw [hm, he] at happ
  exact happ ▸ ha.append hb

namespace Built

theorem refl (s : Input) : Built [] 0 True s s :=
  ⟨.refl, by simp, Nat.le_refl _, fun _ => ⟨trivial, rfl⟩⟩

theorem trans (h₁ : Built a g D s s₁) (h₂ : Built b h E s₁ s₂) :
    Built (a ++ b) (g + h) (D ∧ E) s s₂ where
  passes := h₁.passes.trans h₂.passes
  ordered := sublist_range'_append h₁.passes.nextId_le h₂.passes.nextId_le h₁.ordered h₂.ordered
  paid := by
    have := h₁.paid
    have := h₂.paid
    omega
  derives hq := by
    have hl := h₁.passes.size_le
    have hr := h₂.passes.size_le
    obtain ⟨hd, hi⟩ := h₁.derives (by omega)
    obtain ⟨he, hj⟩ := h₂.derives (by omega)
    refine ⟨⟨hd, he⟩, ?_⟩
    rw [hj, hi, List.length_append, Nat.add_assoc]

-- The tree that is made of the parts.
theorem node (h : Built ids g D s s') (hi : ids = ids') (hg : g = g') (hd : D → D') :
    Built ids' g' D' s s' := by
  subst hi hg
  exact ⟨h.passes, h.ordered, h.paid, fun hq => (h.derives hq).imp_left hd⟩

-- A placeholder for what was passed.
theorem gap (hp : Passes s s') (hs : s.diagnostics.size < s'.diagnostics.size) :
    Built [] 1 D s s' :=
  ⟨hp, by simp, hs, fun hq => absurd hq (by omega)⟩

theorem number (s : Input) :
    Built [s.nextId] 0 True s { s with nextId := s.nextId + 1 } where
  passes := .single (.number s)
  ordered := by simp
  paid := Nat.le_refl _
  derives _ := ⟨trivial, rfl⟩

theorem omitted (hp : Passes s s') (hs : s.diagnostics.size < s'.diagnostics.size) :
    Built [] 0 D s s' :=
  ⟨hp, by simp, hs.le, fun hq => absurd hq (by omega)⟩

end Built

-- Taking a token that the grammar asks for.
def Takes (s : Input) (t : Token) (s' : Input) : Prop :=
  Built [] 0 (s.tokens = t :: s'.tokens) s s'

theorem Cursor.tokens_eq_cons {s : Cursor n} (h : s.head.kind ≠ .endOfInput) :
    s.tokens = s.head :: s.next.2.tokens := by
  obtain ⟨⟨_ | ⟨t, l⟩, stop, nextId, diagnostics⟩, fits⟩ := s
  case nil  => exact absurd rfl h
  case cons => rfl

theorem Cursor.takes_next {s : Cursor n} (h : s.head.kind ≠ .endOfInput) :
    Takes s.toInput s.head s.next.2.toInput where
  passes := s.passes_next
  ordered := List.nil_sublist _
  paid := s.passes_next.size_le
  derives _ := ⟨tokens_eq_cons h, rfl⟩

namespace Attempt

variable {s : Cursor n}

theorem meets_freshId :
    freshId.Meets base s fun i s' => Built [i] 0 True s.toInput s' ∧ s'.tokens = s.tokens :=
  fun _ => ⟨.single (.number _), .number _, rfl⟩

theorem meets_take :
    take.Meets base s fun t s' => t = s.head ∧ s' = s.next.2.toInput :=
  .below ⟨s.passes_next, rfl, rfl⟩

theorem meets_expect {extract : TokenKind → Option α} (he : extract .endOfInput = none) :
    (expect expected extract).Meets base s fun a s' =>
      ∃ t, extract t.kind = some a.1 ∧ a.2 = t.position ∧ Takes s.toInput t s' := by
  intro hb
  refine Meets.bind meets_take (fun t s' _ ht => ?_) hb
  obtain ⟨rfl, ht⟩ := ht
  refine Meets.bind (P := fun a s'' => extract s.head.kind = some a ∧ s'' = s'.toInput)
    (.acceptToken (fun hd => ?lt) fun a ha => ⟨ha, rfl⟩) fun a s'' _ ha => .pure ?accepted
  case lt => exact ht ▸ hb.trans_lt (Cursor.size_lt_next hd)
  case accepted =>
    obtain ⟨ha, hs⟩ := ha
    rw [hs, ht]
    exact ⟨s.head, ha, rfl, Cursor.takes_next fun hk => by simp [hk, he] at ha⟩

theorem meets_expectKind (hk : kind ≠ .endOfInput := by simp) :
    (expectKind kind).Meets base s fun p s' =>
      ∃ t, t.kind = kind ∧ p = t.position ∧ Takes s.toInput t s' := by
  refine (meets_expect (by simp [ofKind, hk.symm])).bind fun a s' _ ha => .pure ?_
  obtain ⟨t, ht, hp, h⟩ := ha
  exact ⟨t, by simpa [ofKind] using ht, hp, h⟩

theorem meets_expectIdentifier :
    expectIdentifier.Meets base s fun a s' =>
      ∃ t, t.kind = .identifier a.1 ∧ a.2 = t.position ∧ Takes s.toInput t s' := by
  refine (meets_expect rfl).imp fun a s' ⟨t, ht, hp, h⟩ => ⟨t, ?_, hp, h⟩
  split at ht <;> simp_all

theorem meets_expectType :
    expectType.Meets base s fun a s' =>
      ∃ t, typeName? t.kind = some a.1 ∧ a.2 = t.position ∧ Takes s.toInput t s' :=
  meets_expect rfl

theorem meets_expectNamedType :
    (expectNamedType name).Meets base s fun p s' =>
      ∃ t, (∃ builtin, t.kind = .typeName name builtin) ∧ p = t.position ∧
        Takes s.toInput t s' := by
  refine (meets_expect rfl).bind fun a s' _ ha => .pure ?_
  obtain ⟨t, ht, hp, h⟩ := ha
  refine ⟨t, ?_, hp, h⟩
  split at ht
  case h_1 found builtin hk =>
    split at ht
    case isTrue hf  => exact ⟨builtin, hf ▸ hk⟩
    case isFalse    => cases ht
  case h_2 => cases ht

-- The token before `s`, if it is of the kind that the grammar asks for.
theorem meets_acceptKind {s₁ : Cursor m} (hs : s.toInput = s₁.next.2.toInput)
    (hd : s₁.head.kind.defect?.isSome → base < s.diagnostics.size)
    (hk : kind ≠ .endOfInput := by simp) :
    (acceptToken expected (ofKind kind) s₁.head).Meets base s fun _ s' =>
      s₁.head.kind = kind ∧ Takes s₁.toInput s₁.head s' := by
  refine .acceptToken hd fun a ha => ?_
  have ha : s₁.head.kind = kind := by simpa [ofKind] using ha
  exact ⟨ha, hs ▸ Cursor.takes_next (ha ▸ hk)⟩

-- What is missing is put in the place of a construct that cannot be read.
theorem Meets.close {body : Attempt n α} {sync : Cursor n → Cursor n} {Q : α → Input → Prop}
    (hs : ∀ s : Cursor n, Passes s.toInput (sync s).toInput) (h : body.Meets base s Q)
    (hb : base ≤ s.diagnostics.size)
    (hd : ∀ s', Passes s.toInput s' → base < s'.diagnostics.size → Q missing s') :
    Leads s.toInput Q
      ((Reading.recover sync body s).1.getD missing, (Reading.recover sync body s).2) := by
  obtain ⟨hp, hh⟩ := h.recover hs hb
  refine ⟨hp, ?_⟩
  match hr : Reading.recover sync body s with
  | (some a, s') => exact (hr ▸ hh : _)
  | (none, s')   =>
    rw [hr] at hp hh
    exact hd _ hp hh

end Attempt

end MiniJava.Reading
