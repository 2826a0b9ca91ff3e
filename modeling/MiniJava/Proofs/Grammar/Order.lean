import MiniJava.Proofs.Grammar.Frame
import MiniJava.Proofs.Token.Partition
import MiniJava.Proofs.Typing.Basic

namespace MiniJava.Grammar

theorem suffix_of_cons {t : Token} {r l : List Token} (h : t :: r <:+ l) : r <:+ l :=
  (List.suffix_cons t r).trans h

theorem Frames.suffix (h : Frames P l r) : r <:+ l := by
  obtain ⟨m, rfl, _⟩ := h
  exact List.suffix_append m r

theorem IsParameters.suffix (h : IsParameters l ds r) : r <:+ l := by
  induction h with
  | one h         => exact h.frames.suffix
  | more h _ _ hi => exact hi.trans (suffix_of_cons h.frames.suffix)

theorem IsSignature.suffix : IsSignature l ds r → r <:+ l
  | .none _ _   => List.suffix_append [_, _] _
  | .some _ h _ => (suffix_of_cons h.suffix).trans (List.suffix_cons _ _)

theorem IsBody.suffix : IsBody l ss r → r <:+ l
  | .intro _ h _ => (suffix_of_cons h.frames.suffix).trans (List.suffix_cons _ _)

theorem IsSuperclass.suffix : IsSuperclass l parent r → r <:+ l
  | .none     => List.suffix_rfl
  | .some _ _ => List.suffix_append [_, _] _

-- Tokens between `l` and `r` stand at the positions, in the order of the list.
def Passes (ps : List Position) (l r : List Token) : Prop :=
  ∃ m, l = m ++ r ∧ ps.Sublist (m.map (·.position))

namespace Passes

theorem of_suffix (h : r <:+ l) : Passes [] l r := by
  obtain ⟨m, rfl⟩ := h
  exact ⟨m, rfl, List.nil_sublist _⟩

theorem head (h : r <:+ l) : Passes [t.position] (t :: l) r := by
  obtain ⟨m, rfl⟩ := h
  exact ⟨t :: m, rfl, (List.nil_sublist _).cons_cons _⟩

theorem append (h : Passes ps l m) (h' : Passes qs m r) : Passes (ps ++ qs) l r := by
  obtain ⟨a, rfl, ha⟩ := h
  obtain ⟨b, rfl, hb⟩ := h'
  exact ⟨a ++ b, (List.append_assoc ..).symm, by rw [List.map_append]; exact ha.append hb⟩

-- The tokens around those that stand at the positions.
theorem widen (hl : m <:+ l) (h : Passes ps m m') (hr : r <:+ m') : Passes ps l r := by
  have h := ((of_suffix hl).append h).append (of_suffix hr)
  rwa [List.nil_append, List.append_nil] at h

end Passes

theorem IsMember.passes : IsMember l d r → Passes (d.method?.toList.map (·.position)) l r
  | .field h _           => .of_suffix (suffix_of_cons h.frames.suffix)
  | .method _ ht _ hs hb =>
    .head (hb.suffix.trans (hs.suffix.trans (suffix_of_cons ht.frames.suffix)))

theorem IsMembers.passes (h : IsMembers l ds r) :
    Passes ((ds.filterMap Member.method?).map (·.position)) l r := by
  induction h with
  | nil          => exact .of_suffix List.suffix_rfl
  | cons h _ hi =>
    have hd (d : Member) (ds) : ((d :: ds).filterMap Member.method?).map (·.position) =
        d.method?.toList.map (·.position) ++ (ds.filterMap Member.method?).map (·.position) := by
      cases d <;> rfl
    exact hd _ _ ▸ h.passes.append hi

theorem IsClass.passes : IsClass l c r → Passes (c.methods.map (·.position)) l r
  | .intro _ _ hp _ hm _ =>
    hm.passes.widen ((suffix_of_cons hp.suffix).trans (List.suffix_append [_, _] _))
      (List.suffix_cons _ _)

theorem IsClass.name : IsClass l c r → ∃ t ∈ l, t.kind = .identifier c.name
  | .intro _ h _ _ _ _ => ⟨_, List.mem_cons_of_mem _ List.mem_cons_self, h⟩

theorem IsMainClass.suffix : IsMainClass l c r → r <:+ l
  | .intro _ _ _ _ _ _ _ _ _ hb _ =>
    (suffix_of_cons hb.suffix).trans (List.suffix_append [_, _, _, _, _, _, _, _, _] _)

theorem IsMainClass.name : IsMainClass l c r → ∃ t ∈ l, t.kind = .identifier c.name
  | .intro _ h _ _ _ _ _ _ _ _ _ => ⟨_, List.mem_cons_of_mem _ List.mem_cons_self, h⟩

theorem IsClasses.passes (h : IsClasses l cs) :
    Passes (cs.flatMap fun c => c.methods.map (·.position)) l [] := by
  induction h with
  | nil         => exact .of_suffix List.suffix_rfl
  | cons h _ hi => exact List.flatMap_cons ▸ h.passes.append hi

theorem IsClasses.name (h : IsClasses l cs) (hc : c ∈ cs) :
    ∃ t ∈ l, t.kind = .identifier c.name := by
  induction h with
  | nil         => cases hc
  | cons h _ hi =>
    cases hc with
    | head      => exact h.name
    | tail _ hc =>
      obtain ⟨t, ht, hk⟩ := hi hc
      obtain ⟨m, rfl, _⟩ := h.passes
      exact ⟨t, List.mem_append_right m ht, hk⟩

theorem IsProgram.passes : IsProgram l p →
    Passes (p.classes.flatMap fun c => c.methods.map (·.position)) l []
  | .intro hm hc => hc.passes.widen hm.suffix List.suffix_rfl

theorem IsProgram.className (h : IsProgram l p) (hc : c ∈ Resolve.allClasses p) :
    ∃ t ∈ l, t.kind = .identifier c.name := by
  cases h with | intro hm hcs =>
  rcases List.mem_append.mp hc with hc | hc
  case inl =>
    obtain rfl := List.mem_singleton.mp hc
    exact hm.name
  case inr =>
    obtain ⟨c', hc', rfl⟩ := List.mem_map.mp hc
    obtain ⟨t, ht, hk⟩ := hcs.name hc'
    exact ⟨t, hm.suffix.subset ht, hk⟩

end MiniJava.Grammar
