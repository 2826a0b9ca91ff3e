import MiniJava.Proofs.Grammar.Frame
import MiniJava.Proofs.Recovery.Statement

namespace MiniJava.Reading

open Grammar

def Blames (ds : List Diagnostic) (l : List Token) : Prop :=
  ∃ d ∈ ds, ∃ t ∈ l, d.position = some t.position

-- The token stands where another one has to.
def Misplaces (ds : List Diagnostic) (t : Token) : Prop :=
  ∃ expected, .grammatical (.unexpected expected t.kind) t.position ∈ ds

section

variable {s s' : Input} {a b l r : List Token} {u : Token}

theorem Blames.kept (h : Passes s s') (hb : Blames s.diagnostics.toList l) :
    Blames s'.diagnostics.toList l :=
  have ⟨d, hd, ht⟩ := hb
  ⟨d, h.reports_kept.subset hd, ht⟩

theorem Blames.mono (hl : l ⊆ r) (hb : Blames ds l) : Blames ds r :=
  have ⟨d, hd, t, ht, hp⟩ := hb
  ⟨d, hd, t, hl ht, hp⟩

theorem Misplaces.kept (h : Passes s s') (hm : Misplaces s.diagnostics.toList u) :
    Misplaces s'.diagnostics.toList u :=
  have ⟨e, he⟩ := hm
  ⟨e, h.reports_kept.subset he⟩

theorem blames_report (ht : t ∈ l) : Blames (s.report error t.position).diagnostics.toList l :=
  ⟨.grammatical error t.position, by simp [Input.report], t, ht, rfl⟩

theorem misplaces_report :
    Misplaces (s.report (.unexpected expected u.kind) u.position).diagnostics.toList u :=
  ⟨expected, by simp [Input.report]⟩

-- What is left of the tokens `a` in front of `b`.
theorem Passes.rest_of_suffix (h : Passes s s') (hs : s.tokens = a ++ b) (hb : b <:+ s'.tokens) :
    ∃ c, s'.tokens = c ++ b ∧ c <:+ a := by
  obtain ⟨c, hc⟩ := hb
  obtain ⟨x, hx⟩ := h.suffix
  refine ⟨c, hc.symm, x, ?_⟩
  rw [← hc, hs, ← List.append_assoc] at hx
  exact List.append_cancel_right hx

theorem Input.first_mem (hs : s.tokens = a ++ u :: b) : s.first ∈ a ++ [u] := by
  cases a with
  | nil  => simp [first_of_cons hs]
  | cons => simp [first_of_cons hs]

-- A `;` is taken inside a statement only where something else has to stand.
theorem Tread.misplaces (t : Tread s s') (hs : u :: b <:+ s.tokens) (hu : u.kind = .semicolon) :
    Misplaces s'.diagnostics.toList u ∨ u :: b <:+ s'.tokens := by
  obtain ⟨_ | ⟨v, a⟩, hc⟩ := hs
  case nil  =>
    have hf : s.first = u := first_of_cons hc.symm
    cases t with
    | number | refuse => exact .inr (hc ▸ List.suffix_rfl)
    | pass hk         => exact absurd (hf ▸ hu) hk
    | reject _ hk     =>
      obtain ⟨expected, rfl⟩ := hk (hf ▸ hu)
      rw [hf, ← hu]
      exact .inl misplaces_report
  case cons =>
    have ht : u :: b <:+ s.tail.tokens := ⟨a, congrArg List.tail hc⟩
    cases t with
    | number | refuse => exact .inr ⟨v :: a, hc⟩
    | pass | reject   => exact .inr ht

theorem Treads.misplaces (h : Treads s s') (hs : u :: b <:+ s.tokens) (hu : u.kind = .semicolon) :
    Misplaces s'.diagnostics.toList u ∨ u :: b <:+ s'.tokens := by
  induction h with
  | refl        => exact .inr hs
  | tail _ t hi =>
    rcases hi with hm | hs
    case inl => exact .inl (hm.kept t.passes)
    case inr => exact t.misplaces hs hu

-- Up to a `;`, what is not taken in silence is reported.
def Silent (s : Input) (a : List Token) (l : List Token) (s' : Input) : Prop :=
  s'.diagnostics = s.diagnostics ∧ ∃ c, s'.tokens = c ++ l ∧ c <:+ a

theorem Tread.blames (t : Tread s s') (hs : s.tokens = a ++ u :: b) (hu : u.kind = .semicolon) :
    Blames s'.diagnostics.toList (a ++ [u]) ∨ Silent s a (u :: b) s' := by
  cases t with
  | number            => exact .inr ⟨rfl, a, hs, List.suffix_rfl⟩
  | refuse | reject _ => exact .inl (blames_report (Input.first_mem hs))
  | pass hk           =>
    cases a with
    | nil      => exact absurd (first_of_cons hs ▸ hu) hk
    | cons v a =>
      cases hd : defect? v with
      | none   =>
        exact .inr ⟨by simp [Input.tail, hs, hd], a, congrArg List.tail hs, List.suffix_cons v a⟩
      | some d =>
        refine .inl ⟨d, by simp [Input.tail, hs, hd], v, by simp, ?_⟩
        obtain ⟨error, -, rfl⟩ := Option.map_eq_some_iff.mp hd
        rfl

theorem Treads.blames (h : Treads s s') (hs : s.tokens = a ++ u :: b) (hu : u.kind = .semicolon) :
    Blames s'.diagnostics.toList (a ++ [u]) ∨ Silent s a (u :: b) s' := by
  induction h with
  | refl        => exact .inr ⟨rfl, a, hs, List.suffix_rfl⟩
  | tail _ t hi =>
    rcases hi with hb | ⟨hd, c, hc, hca⟩
    case inl => exact .inl (hb.kept t.passes)
    case inr =>
      rcases t.blames hc hu with hb | ⟨hd', c', hc', hcc⟩
      case inl =>
        exact .inl (hb.mono (List.append_subset.mpr
          ⟨List.subset_append_of_subset_left _ hca.subset, List.subset_append_right _ _⟩))
      case inr => exact .inr ⟨hd'.trans hd, c', hc', hcc.trans hca⟩

-- There is an `else` behind the tokens, and an `if` among them that it can belong to.
def Resumes (a b : List Token) : Prop :=
  StartsElse b ∧ ∃ t ∈ a, t.kind = .keyword .ifWord

theorem Resumes.mono (h : Resumes a b) (hl : a ⊆ l) : Resumes l b :=
  have ⟨hb, t, ht, hk⟩ := h
  ⟨hb, t, hl ht, hk⟩

theorem Input.suffix_tail (h : u :: b <:+ s.tokens) : b <:+ s.tail.tokens := by
  obtain ⟨_ | ⟨v, a⟩, hc⟩ := h
  case nil  => exact ⟨[], congrArg List.tail hc⟩
  case cons => exact ⟨a ++ [u], by simp [tail, ← hc]⟩

-- A statement without a block ends behind the next `;`, at the latest.
theorem Strides.misplaces (h : Strides s s') (hs : s.tokens = a ++ u :: b)
    (hu : u.kind = .semicolon) (ha : ∀ t ∈ a, t.kind ≠ .leftBrace) :
    Misplaces s'.diagnostics.toList u ∨ Resumes a b ∨ b <:+ s'.tokens := by
  induction h generalizing a with
  | stop ht _               =>
    refine (Treads.misplaces ht ⟨a, hs.symm⟩ hu).imp id fun h => .inr ?_
    exact (List.suffix_cons u b).trans h
  | finish ht _             =>
    exact (Treads.misplaces ht ⟨a, hs.symm⟩ hu).imp (·.kept (.take _))
      fun h => .inr (Input.suffix_tail h)
  | complain ht h' _ _ _    =>
    exact (Treads.misplaces (ht.trans h') ⟨a, hs.symm⟩ hu).imp
      (·.kept ((Passes.take _).trans (Passes.report ..))) fun h => .inr (Input.suffix_tail h)
  | block ht hk hw          =>
    refine (Treads.misplaces ht ⟨a, hs.symm⟩ hu).imp (·.kept ((Passes.take _).trans hw.passes))
      fun h => absurd hk ?_
    obtain ⟨c, hc, hca⟩ := (Treads.passes ht).rest_of_suffix hs h
    rcases List.mem_append.mp (Input.first_mem hc) with hf | hf
    case inl => exact ha _ (hca.subset hf)
    case inr => simp [List.mem_singleton.mp hf, hu]
  | @resume s s₁ _ h₁ hk hi _ h₂ ih₁ ih₂ =>
    rcases ih₁ hs ha with hm | hr | hb
    case inl        => exact .inl (hm.kept ((Passes.take _).trans h₂.passes))
    case inr.inl    => exact .inr (.inl hr)
    case inr.inr    =>
      have hs' : s.tokens = (a ++ [u]) ++ b := by simpa using hs
      obtain ⟨c, hc, hca⟩ := h₁.passes.rest_of_suffix hs' hb
      rcases List.suffix_concat_iff.mp hca with rfl | ⟨c, rfl, hc'⟩
      case inl =>
        -- The `else` is the first token behind the `;`.
        obtain ⟨l, hl, t, ht, hk'⟩ := hi
        have hb : b = s₁.first :: s₁.tail.tokens :=
          hc.symm.trans (Input.tokens_eq_cons (by simp [hk]))
        obtain rfl : l = a ++ [u] := List.append_cancel_right (hl.symm.trans (hc ▸ hs'))
        have ht : t ∈ a := (List.mem_append.mp ht).resolve_right fun ht => by
          simp [List.mem_singleton.mp ht, hu] at hk'
        exact .inr (.inl ⟨⟨_, _, hb, hk⟩, t, ht, hk'⟩)
      case inr =>
        have hc : s₁.tokens = c ++ u :: b := by simpa using hc
        cases c with
        | nil      => simp [first_of_cons hc, hu] at hk
        | cons v c =>
          have hca : c ⊆ a := fun t ht => hc'.subset (List.mem_cons_of_mem v ht)
          refine (ih₂ (congrArg List.tail hc) fun t ht => ha t (hca ht)).imp id (Or.imp ?_ id)
          exact (·.mono hca)
  | number _ ih             => exact ih hs ha

-- Without a block, a statement ends behind a `;` or at the end of input.
theorem Strides.lands (h : Strides s s') :
    s'.tokens = [] ∨ Holds .leftBrace s s' ∨
      ∃ x u, s.tokens = x ++ u :: s'.tokens ∧ u.kind = .semicolon := by
  have hf (s s₁ : Input) (h : Treads s s₁) (hk : s₁.first.kind = .semicolon) :
      ∃ x u, s.tokens = x ++ u :: s₁.tail.tokens ∧ u.kind = .semicolon := by
    obtain ⟨x, hx⟩ := (Treads.passes h).suffix
    exact ⟨x, s₁.first, by rw [← hx, Input.tokens_eq_cons (s := s₁) (by simp [hk])], hk⟩
  induction h with
  | stop _ hs                    => exact .inl hs
  | finish h hk                  => exact .inr (.inr (hf _ _ h hk))
  | complain h h' hk _ _         => exact .inr (.inr (hf _ _ (h.trans h') hk))
  | @block s s₁ s' h hk hw       =>
    have hh : Holds .leftBrace s₁ s₁.tail :=
      ⟨[s₁.first], Input.tokens_eq_cons (by simp [hk]), s₁.first, by simp, hk⟩
    exact .inr (.inl ((hh.before (Treads.passes h)).through hw.passes))
  | resume h _ _ _ _ _ ih        =>
    have hp := h.passes.trans (Passes.take _)
    refine ih.imp id (Or.imp (·.before hp) ?_)
    rintro ⟨x, u, hx, hu⟩
    obtain ⟨y, hy⟩ := Passes.suffix hp
    exact ⟨y ++ x, u, by rw [← hy, hx, List.append_assoc], hu⟩
  | number _ ih                  => exact ih

-- A statement that ends at the next `;` in silence is one by itself.
theorem Begins.isStatement (hb : Begins s s') (hd : s'.diagnostics = s.diagnostics)
    (hs : s.tokens = a ++ u :: s'.tokens) : ∃ st, IsStatement false (a ++ [u]) st [] := by
  obtain ⟨st, hst⟩ := hb (by rw [hd])
  obtain ⟨m, hm, hf⟩ := hst.frames
  obtain rfl : m = a ++ [u] := List.append_cancel_right (hm.symm.trans (by simpa using hs))
  exact ⟨st, by simpa using hf []⟩

-- What is no statement up to the next `;` is reported.
theorem Strides.blames (h : Strides s s') (hb : Begins s s') (hs : s.tokens = a ++ u :: b)
    (hu : u.kind = .semicolon) (ha : ∀ t ∈ a, t.kind ≠ .semicolon ∧ t.kind ≠ .leftBrace) :
    Blames s'.diagnostics.toList (a ++ [u]) ∨ ∃ st, IsStatement false (a ++ [u]) st [] := by
  -- A `;` that is reached in silence is the next one.
  have hn (s s₁ : Input) (h : Silent s a (u :: b) s₁) (hk : s₁.first.kind = .semicolon) :
      s₁.tokens = u :: b := by
    obtain ⟨-, _ | ⟨v, c⟩, hc, hca⟩ := h
    case nil  => exact hc
    case cons => exact absurd (first_of_cons hc ▸ hk) (ha v (hca.subset (by simp))).1
  induction h with
  | stop ht hs'             =>
    refine (Treads.blames ht hs hu).imp id ?_
    rintro ⟨-, c, hc, -⟩
    simp [hs'] at hc
  | @finish s s₁ ht hk      =>
    refine (Treads.blames ht hs hu).imp (·.kept (.take _)) fun hq => ?_
    have hc := hn _ _ hq hk
    have hd : s₁.tail.diagnostics = s.diagnostics := by
      simp [Input.tail, hc, defect?, hu, TokenKind.defect?, hq.1]
    exact hb.isStatement hd (by simpa [Input.tail, hc] using hs)
  | complain ht h' hk hp _  =>
    rcases Treads.blames (ht.trans h') hs hu with hr | hq
    case inl => exact .inl (hr.kept ((Passes.take _).trans (Passes.report ..)))
    case inr =>
      obtain ⟨l, hl, hm⟩ := Spans.before (Treads.passes ht) hp
      obtain rfl : l = a := List.append_cancel_right (hl.symm.trans (hn _ _ hq hk ▸ hs))
      obtain ⟨t, ht, he⟩ := List.mem_map.mp (List.singleton_sublist.mp hm)
      exact .inl (he ▸ blames_report (List.mem_append_left _ ht))
  | @block s s₁ s' ht hk hw =>
    refine (Treads.blames ht hs hu).imp (·.kept ((Passes.take _).trans hw.passes)) fun hq => ?_
    obtain ⟨-, c, hc, hca⟩ := hq
    rcases List.mem_append.mp (Input.first_mem hc) with hf | hf
    case inl => exact absurd hk (ha _ (hca.subset hf)).2
    case inr => simp [List.mem_singleton.mp hf, hu] at hk
  | resume h _ _ hb₁ h' ih _  =>
    exact (ih hb₁ hs).imp (·.kept ((Passes.take _).trans h'.passes)) id
  | number _ ih             => exact ih hb hs

end

end MiniJava.Reading
