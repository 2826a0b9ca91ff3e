import MiniJava.Proofs.Grammar.Start
import MiniJava.Proofs.Grammar.Unnumbered
import MiniJava.Proofs.Reading.Complete.Basic
import MiniJava.Proofs.Reading.Expression

namespace MiniJava.Reading

open Grammar Attempt

theorem Cursor.exists_succ (s : Cursor n) (hs : s.tokens = t :: l) : ∃ m, n = m + 1 := by
  have := s.fits
  rw [hs, List.length_cons] at this
  exact ⟨n - 1, by omega⟩

-- The tokens that go on with an expression of the `k` tightest levels. The readers take the
-- operators and calls behind an operand in a loop, so what they read is told from both ends: a
-- phrase is read as far as the loop then goes on with it.
def Continues (k : Nat) : TokenKind → Prop
  | .leftBracket | .dot => True
  | .operator op => ∃ j < k, op ∈ tier j
  | _ => False

def Stops (k : Nat) (r : List Token) : Prop :=
  ∀ t ∈ r.head?, ¬Continues k t.kind

theorem Stops.mono (h : Stops k r) (hj : j ≤ k) : Stops j r := by
  intro t ht hc
  refine h t ht ?_
  unfold Continues at hc ⊢
  split at hc
  case h_3 => exact have ⟨i, hi, ho⟩ := hc; ⟨i, hi.trans_le hj, ho⟩
  all_goals trivial

abbrev Like (e e' : Expression) : Prop :=
  e'.unnumbered = e.unnumbered

-- Behind `e` and before `r` the loop of a term goes on to `e'` and `r'`.
def TailReads (e : Expression) (r : List Token) (e' : Expression) (r' : List Token) : Prop :=
  ∀ ⦃n⦄ (s : Cursor n) inner, s.tokens = r → Like e inner → (termTail n inner).Yields s (Like e') r'

-- The same for the loop of a level above the `k` tightest.
def RestReads (k : Nat) (e : Expression) (r : List Token) (e' : Expression) (r' : List Token) :
    Prop :=
  ∀ ⦃n⦄ (s : Cursor n) left, s.tokens = r → Like e left → (chainRest n k left).Yields s (Like e') r'

def LevelReads (k : Nat) (l : List Token) (e : Expression) (r : List Token) : Prop :=
  match k with
  | 0 => Stops 0 r → ∀ ⦃n⦄ (s : Cursor n), s.tokens = l → (unary n).Yields s (Like e) r
  | k + 1 =>
    ∀ ⦃e' r'⦄, Stops k r → RestReads k e r e' r' →
      ∀ ⦃n⦄ (s : Cursor n), s.tokens = l → (chain n (k + 1)).Yields s (Like e') r'

theorem TailReads.stop (h : Stops 0 r) : TailReads e r e r := by
  intro n s inner hs hi
  cases n with
  | zero =>
    rw [termTail]
    exact .pure hi hs
  | succ n =>
    rw [termTail, yields_head_bind]
    split <;> rename_i hk
    case h_3 => exact .pure hi hs
    all_goals
      cases r with
      | nil => simp [Cursor.head, hs] at hk
      | cons t r => exact absurd (by simp [Cursor.head_eq hs ▸ hk, Continues]) (h t rfl)

theorem RestReads.stop (h : Stops (k + 1) r) : RestReads k e r e r := by
  intro n s left hs hl
  cases n with
  | zero =>
    rw [chainRest]
    exact .pure hl hs
  | succ n =>
    rw [chainRest, yields_head_bind]
    split
    case h_1 => exact .pure hl hs
    case h_2 op ho =>
      obtain ⟨hk, hm⟩ := operatorAbove?_eq_some_iff.mp ho
      cases r with
      | nil => simp [Cursor.head, hs] at hk
      | cons t r =>
        refine absurd ?_ (h t rfl)
        rw [← Cursor.head_eq hs, hk]
        exact ⟨k, Nat.lt_succ_self k, hm⟩

theorem LevelReads.chain (h : LevelReads k l e r) (hr : Stops k r) (s : Cursor n)
    (hs : s.tokens = l) : (chain n k).Yields s (Like e) r := by
  match k with
  | 0 =>
    rw [Reading.chain]
    exact h hr s hs
  | k + 1 => exact h (hr.mono (Nat.le_succ k)) (RestReads.stop hr) s hs

theorem LevelReads.expression (h : LevelReads BinaryOperator.levels l e r)
    (hr : Stops BinaryOperator.levels r) (s : Cursor n) (hs : s.tokens = l) :
    (expression n).Yields s (Like e) r := by
  rw [Reading.expression]
  exact Step.yields_close (h.chain hr s hs)

theorem yields_termAfter {make : NodeId → Expression}
    (hm : ∀ i, (make i).unnumbered = e.unnumbered) (ht : TailReads e r e' r') (s : Cursor n)
    (hs : s.tokens = r) :
    Attempt.Yields (do termTail n (make (← freshId))) s (Like e') r' :=
  yields_freshId.bind fun i s₁ _ hs₁ => ht s₁ _ (hs₁.trans hs) (hm i)

theorem stops_of_kind (hu : u.kind = kind) (hk : ¬Continues k kind) : Stops k (u :: r) := by
  simpa [Stops, hu] using hk

theorem yields_expectType (s : Cursor n) (hs : s.tokens = t :: l) (hn : NamesType t name) :
    expectType.Yields s (fun a => a.1.1 = name ∧ a.2 = t.position) l := by
  obtain ⟨builtin, hk⟩ : ∃ builtin, typeName? t.kind = some (name, builtin) := by
    cases hn with | identifier hk | typeName hk => exact ⟨_, by rw [hk]; rfl⟩
  refine (yields_expect hs hk ?accepts).imp ?rest
  case accepts => cases hn with | identifier hk | typeName hk => rw [hk]; rfl
  case rest =>
    rintro _ rfl
    exact ⟨rfl, rfl⟩

theorem yields_expectClass (s : Cursor n) (hs : s.tokens = t :: l) (hn : NamesClass t name) :
    expectType.Yields s (·.1 = (name, false)) l := by
  cases hn with | identifier hk | typeName hk =>
  refine (yields_expect hs (a := (name, false)) (by rw [hk]; rfl) (by rw [hk]; rfl)).imp ?_
  rintro _ rfl
  rfl

theorem yields_term {s : Cursor n} (h : (termBody n).Yields s P r) : (term n).Yields s P r := by
  rw [term]
  exact Step.yields_close h

abbrev LikeAll (es es' : List Expression) : Prop :=
  Expression.unnumberedOf es' = Expression.unnumberedOf es

-- The end of a call, from behind its arguments.
theorem yields_closeCall {inner : Expression} (he : Like e inner) (hes : LikeAll es arguments) (s : Cursor n)
    (hs : s.tokens = w :: r) (hw : w.kind = .rightParen) :
    Attempt.Yields (do
      let _ ← expectKind .rightParen
      return .call (← freshId) inner name arguments p) s (Like (.call i e name es p)) r := by
  refine (yields_expectKind hs hw).bind fun _ s₁ _ hs₁ => ?_
  refine yields_freshId.bind fun j s₂ _ hs₂ => .pure ?_ (hs₂.trans hs₁)
  simp [Like, Expression.unnumbered, he, hes]

end MiniJava.Reading

namespace MiniJava.Grammar

open Reading Attempt

mutual

theorem IsTerm.reads : IsTerm l e r → TailReads e r e' r' → ∀ ⦃n⦄ (s : Cursor n), s.tokens = l →
    (termBody n).Yields s (Like e') r'
  | .self hk, ht, n, s, hs | .yes hk, ht, n, s, hs | .no hk, ht, n, s, hs
  | .integer hk, ht, n, s, hs | .reference hk, ht, n, s, hs => by
    obtain ⟨n, rfl⟩ := s.exists_succ hs
    rw [termBody, yields_head_bind, Cursor.head_eq hs, hk]
    exact .attemptAfter hs (by rw [hk]; rfl) (yields_termAfter (fun _ => rfl) ht)
  | .parentheses hk he hu, ht, n, s, hs => by
    obtain ⟨n, rfl⟩ := s.exists_succ hs
    rw [termBody, yields_head_bind, Cursor.head_eq hs, hk]
    refine .attemptAfter hs (by rw [hk]; rfl) fun s₁ hs₁ => ?_
    refine (he.reads.expression (stops_of_kind hu id) s₁ hs₁).lift.bind fun inner s₂ hi hs₂ => ?_
    exact (yields_expectKind hs₂ hu).bind fun _ s₃ _ hs₃ => ht s₃ inner hs₃ hi
  | .newObject hk hn hv hw, ht, n, s, hs => by
    obtain ⟨n, rfl⟩ := s.exists_succ hs
    rw [termBody, yields_head_bind, Cursor.head_eq hs, hk]
    refine .attemptAfter hs (by rw [hk]; rfl) fun s₁ hs₁ => ?_
    refine .bind (P := Like (.newObject 0 _ _)) ?_ fun a s' ha hs' => ht s' a hs' ha
    rw [creation]
    refine (yields_expectClass s₁ hs₁ hn).bind ?_
    rintro ⟨⟨name, builtin⟩, _⟩ s₂ ha hs₂
    obtain ⟨rfl, rfl⟩ := Prod.mk.inj ha
    rw [yields_isAt_bind, Cursor.head_eq hs₂, if_neg (by simp [hv])]
    refine (yields_expectKind hs₂ hv).bind fun _ s₃ _ hs₃ => ?_
    refine (yields_expectKind hs₃ hw).bind fun _ s₄ _ hs₄ => ?_
    exact yields_freshId.bind fun i s₅ _ hs₅ => .pure rfl (hs₅.trans hs₄)
  | .newArray hk hn hv he hw, ht, n, s, hs => by
    obtain ⟨n, rfl⟩ := s.exists_succ hs
    rw [termBody, yields_head_bind, Cursor.head_eq hs, hk]
    refine .attemptAfter hs (by rw [hk]; rfl) fun s₁ hs₁ => ?_
    refine .bind (P := Like (.newArray 0 _ _ _)) ?_ fun a s' ha hs' => ht s' a hs' ha
    rw [creation]
    refine (yields_expectType s₁ hs₁ hn).bind ?_
    rintro ⟨⟨name, builtin⟩, _⟩ s₂ ha hs₂
    obtain rfl : name = _ := ha.1
    rw [yields_isAt_bind, Cursor.head_eq hs₂, if_pos (by simp [hv])]
    refine (yields_expectKind hs₂ hv).bind fun _ s₃ _ hs₃ => ?_
    refine (he.reads.expression (stops_of_kind hw id) s₃ hs₃).lift.bind fun x s₄ hx hs₄ => ?_
    refine (yields_expectKind hs₄ hw).bind fun _ s₅ _ hs₅ => ?_
    refine yields_freshId.bind fun i s₆ _ hs₆ => .pure ?_ (hs₆.trans hs₅)
    simp [Like, Expression.unnumbered, hx]
  | .index ha hk he hu, ht, n, s, hs => by
    refine ha.reads (fun n s inner hs hi => ?_) s hs
    obtain ⟨n, rfl⟩ := s.exists_succ hs
    rw [termTail, yields_head_bind, Cursor.head_eq hs, hk]
    refine .attemptAfter hs (by rw [hk]; rfl) fun s₁ hs₁ => ?_
    refine (he.reads.expression (stops_of_kind hu id) s₁ hs₁).lift.bind fun x s₂ hx hs₂ => ?_
    refine (yields_expectKind hs₂ hu).bind fun _ s₃ _ hs₃ => ?_
    exact yields_termAfter (fun _ => by simp [Expression.unnumbered, hi, hx]) ht s₃ hs₃
  | .length hr hk hu, ht, n, s, hs => by
    refine hr.reads (fun n s inner hs hi => ?_) s hs
    obtain ⟨n, rfl⟩ := s.exists_succ hs
    rw [termTail, yields_head_bind, Cursor.head_eq hs, hk]
    refine .attemptAfter hs (by rw [hk]; rfl) fun s₁ hs₁ => ?_
    refine .bind (P := Like (.call 0 _ "length" [] _)) ?_ fun a s' ha hs' => ht s' a hs' ha
    rw [invocation, yields_head_bind, Cursor.head_eq hs₁, hu]
    refine (yields_expectKind hs₁ hu).bind fun p s₂ hp hs₂ => ?_
    refine yields_freshId.bind fun i s₃ _ hs₃ => .pure ?_ (hs₃.trans hs₂)
    simp [Like, Expression.unnumbered, hi, hp, Keyword.spelling]
  | .call hr hk hu hv ha hw, ht, n, s, hs => by
    refine hr.reads (fun n s inner hs hi => ?_) s hs
    obtain ⟨n, rfl⟩ := s.exists_succ hs
    rw [termTail, yields_head_bind, Cursor.head_eq hs, hk]
    refine .attemptAfter hs (by rw [hk]; rfl) fun s₁ hs₁ => ?_
    refine .bind (P := Like (.call 0 _ _ _ _)) ?_ fun a s' ha hs' => ht s' a hs' ha
    rw [invocation, yields_head_bind, Cursor.head_eq hs₁, hu]
    refine (yields_expectIdentifier hs₁ hu).bind ?_
    rintro ⟨_, _⟩ s₂ hp hs₂
    obtain ⟨rfl, rfl⟩ := Prod.mk.inj hp
    refine (yields_expectKind hs₂ hv).bind fun _ s₃ _ hs₃ => ?_
    rw [yields_isAt_bind]
    rcases ha.reads rfl hw s₃ hs₃ with ⟨he, rfl, hr⟩ | ⟨he, hy⟩
    case inl =>
      rw [if_pos (by simpa using he)]
      exact yields_closeCall hi rfl s₃ (hs₃.trans hr) hw
    case inr =>
      rw [if_neg (by simpa using he)]
      exact hy.bind fun arguments s₄ hes hs₄ => yields_closeCall hi hes s₄ hs₄ hw

theorem IsLevel.reads : IsLevel k l e r → LevelReads k l e r
  | .term h => by
    intro hr n s hs
    have hy := (yields_term (h.reads (.stop hr) s hs)).lift
    obtain ⟨t, m, hl, ht⟩ := h.start
    obtain ⟨n, rfl⟩ := s.exists_succ (hs.trans hl)
    rw [unary, yields_isAt_bind, Cursor.head_eq (hs.trans hl), if_neg]
    case hnc => simpa using ne_of_startsTerm ht
    exact hy
  | .not hk h => by
    intro hr n s hs
    obtain ⟨n, rfl⟩ := s.exists_succ hs
    rw [unary, yields_isAt_bind, Cursor.head_eq hs, if_pos (by simp [hk])]
    refine .attemptAfter hs (by rw [hk]; rfl) fun s₁ hs₁ => ?_
    refine (yields_term (h.reads (.stop hr) s₁ hs₁)).lift.bind fun operand s₂ ho hs₂ => ?_
    refine yields_freshId.bind fun i s₃ _ hs₃ => .pure ?_ (hs₃.trans hs₂)
    simp [Like, Expression.unnumbered, ho]
  | .tighter h => by
    intro e' r' hr hc n s hs
    rw [chain]
    exact (h.reads.chain hr s hs).bind fun left s₁ hl hs₁ => hc s₁ left hs₁ hl
  | .binary hl hk hm hr => by
    intro e' r' hr' hc n s hs
    refine hl.reads ?stops (fun n s left hs hl => ?joins) s hs
    case stops =>
      refine stops_of_kind hk ?_
      rintro ⟨j, hj, ho⟩
      rw [mem_tier] at hm ho
      omega
    case joins =>
      obtain ⟨n, rfl⟩ := s.exists_succ hs
      rw [chainRest, yields_head_bind, Cursor.head_eq hs, operatorAbove?_eq_some_iff.mpr ⟨hk, hm⟩]
      refine .attemptAfter hs (by rw [hk]; rfl) fun s₁ hs₁ => ?_
      refine (hr.reads.chain hr' s₁ hs₁).bind fun right s₂ hr hs₂ => ?_
      refine yields_freshId.bind fun i s₃ _ hs₃ => hc s₃ _ (hs₃.trans hs₂) ?_
      simp [Like, Expression.unnumbered, hl, hr]

theorem IsArguments.reads : IsArguments l es r → r = w :: m → w.kind = .rightParen →
    ∀ ⦃n⦄ (s : Cursor n), s.tokens = l →
      (s.head.kind = .rightParen ∧ es = [] ∧ l = r) ∨
      (s.head.kind ≠ .rightParen ∧ (argumentList n).Yields s (LikeAll es) r)
  | .none, hr, hw, n, s, hs => .inl ⟨Cursor.head_eq (hs.trans hr) ▸ hw, rfl, rfl⟩
  | .some h, hr, hw, n, s, hs =>
    have ⟨t, m, hl, ht⟩ := h.start
    .inr ⟨Cursor.head_eq (hs.trans hl) ▸ ne_of_startsExpression ht, h.reads hr hw s hs⟩

theorem IsArgumentList.reads : IsArgumentList l es r → r = w :: m → w.kind = .rightParen → ∀ ⦃n⦄ (s : Cursor n), s.tokens = l →
    (argumentList n).Yields s (LikeAll es) r
  | .one h, hr, hw, n, s, hs => by
    obtain ⟨t, m, hl, _⟩ := h.start
    obtain ⟨n, rfl⟩ := s.exists_succ (hs.trans hl)
    rw [argumentList]
    refine (h.reads.expression (hr ▸ stops_of_kind hw id) s hs).lift.bind fun a s₁ ha hs₁ => ?_
    rw [yields_isAt_bind, Cursor.head_eq (hs₁.trans hr), if_pos (by simp [hw])]
    exact .pure (by simp [LikeAll, Expression.unnumberedOf, ha]) hs₁
  | .more h hk hes, hr, hw, n, s, hs => by
    obtain ⟨t, m, hl, _⟩ := h.start
    obtain ⟨n, rfl⟩ := s.exists_succ (hs.trans hl)
    rw [argumentList]
    refine (h.reads.expression (stops_of_kind hk id) s hs).lift.bind fun a s₁ ha hs₁ => ?_
    rw [yields_isAt_bind, Cursor.head_eq hs₁, if_neg (by simp [hk])]
    refine .attemptAfter hs₁ (by rw [hk]; rfl) fun s₂ hs₂ => ?_
    refine (yields_acceptToken (a := ()) (by simp [hk, ofKind])).bind fun _ s₃ _ hs₃ => ?_
    refine (hes.reads hr hw s₃ (hs₃.trans hs₂)).bind fun as s₄ has hs₄ => .pure ?_ hs₄
    simp [LikeAll, Expression.unnumberedOf, ha, has]

end

end MiniJava.Grammar
