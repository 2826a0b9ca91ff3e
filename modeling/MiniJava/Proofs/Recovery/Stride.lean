import MiniJava.Proofs.Recovery.Expression
import MiniJava.Proofs.Reading.Statement

namespace MiniJava.Reading

open Grammar

-- An expression is read between `s` and `s'`, well written or not.
def Expresses (e : Expression) (s s' : Input) : Prop :=
  ∃ n, ∃ c : Cursor n, c.toInput = s ∧ (expression n c).1 = e ∧ (expression n c).2.toInput = s'

-- The reader of a statement stays inside the statement up to a `;`, which it takes, and goes on
-- behind it only if there is an `else`. In a block there are further statements.
inductive Walk : Input → Input → Prop
  | tread (h : Tread s s') : Walk s s'
  -- The `;` at the end of a statement.
  | finish (hk : s.first.kind = .semicolon) : Walk s s.tail
  -- An expression stands where a statement has to. It is reported behind its `;`.
  | complain (h : Treads s s') (hk : s'.first.kind = .semicolon) (hp : Spans [e.position] s s')
      (he : Expresses e s s') : Walk s (s'.tail.report (.notAStatement e.form) e.position)

abbrev Walks := Relation.ReflTransGen Walk

-- Between `s` and `s'` there is a token of that kind.
def Holds (kind : TokenKind) (s s' : Input) : Prop :=
  ∃ l, s.tokens = l ++ s'.tokens ∧ ∃ t ∈ l, t.kind = kind

-- If nothing is reported between `s` and `s'`, there is a statement.
def Begins (s s' : Input) : Prop :=
  s'.diagnostics.size = s.diagnostics.size → ∃ st, IsStatement false s.tokens st s'.tokens

inductive Strides : Input → Input → Prop
  | stop (h : Treads s s') (hs : s'.tokens = []) : Strides s s'
  | finish (h : Treads s s') (hk : s'.first.kind = .semicolon) : Strides s s'.tail
  | complain (h : Treads s s₁) (h' : Treads s₁ s') (hk : s'.first.kind = .semicolon)
      (hp : Spans [e.position] s₁ s') (he : Expresses e s₁ s') :
      Strides s (s'.tail.report (.notAStatement e.form) e.position)
  | block (h : Treads s s₁) (hk : s₁.first.kind = .leftBrace) (hw : Walks s₁.tail s') :
      Strides s s'
  | resume (h : Strides s s₁) (hk : s₁.first.kind = .keyword .elseWord)
      (hi : Holds (.keyword .ifWord) s s₁) (hb : Begins s s₁) (h' : Strides s₁.tail s') :
      Strides s s'
  | number (h : Strides s s') : Strides s { s' with nextId := s'.nextId + 1 }

variable {s s₀ s₁ s' : Input}

theorem Walk.passes : Walk s s' → Passes s s'
  | tread h       => h.passes
  | finish _      => .take s
  | complain h .. => (Treads.passes h).trans ((Passes.take _).trans (Passes.report ..))

theorem Walks.passes (h : Walks s s') : Passes s s' := by
  induction h with
  | refl        => exact .refl
  | tail _ w hi => exact hi.trans w.passes

theorem kept_walks (s : Input) : Kept (Walks s) :=
  fun _ _ h t => h.tail (.tread t)

theorem Treads.walks (h : Treads s s') : Walks s s' :=
  (kept_walks s).treads .refl h

theorem Strides.walks (h : Strides s s') : Walks s s' := by
  induction h with
  | stop h _                => exact Treads.walks h
  | finish h hk             => exact (Treads.walks h).tail (.finish hk)
  | complain h h' hk hp he  => exact (Treads.walks h).tail (.complain h' hk hp he)
  | block h hk hw           =>
    exact ((Treads.walks h).tail (.tread (.pass (by simp [hk])))).trans hw
  | resume _ hk _ _ _ hi hj => exact (hi.tail (.tread (.pass (by simp [hk])))).trans hj
  | number _ hi             => exact hi.tail (.tread (.number _))

theorem Strides.passes (h : Strides s s') : Passes s s' :=
  h.walks.passes

theorem Holds.before (h : Passes s₀ s) (hh : Holds kind s s') : Holds kind s₀ s' := by
  obtain ⟨l, hl⟩ := h.suffix
  obtain ⟨m, hm, t, ht, hk⟩ := hh
  exact ⟨l ++ m, by rw [← hl, hm, List.append_assoc], t, List.mem_append_right l ht, hk⟩

theorem Holds.through (hh : Holds kind s s₁) (h : Passes s₁ s') : Holds kind s s' := by
  obtain ⟨l, hl⟩ := h.suffix
  obtain ⟨m, hm, t, ht, hk⟩ := hh
  exact ⟨m ++ l, by rw [hm, ← hl, List.append_assoc], t, List.mem_append_left l ht, hk⟩

-- What makes a statement of each statement that starts at `s`.
def Wraps (s₀ s : Input) : Prop :=
  s.diagnostics.size = s₀.diagnostics.size →
    ∀ st r, IsStatement false s.tokens st r → ∃ st', IsStatement false s₀.tokens st' r

theorem Begins.before (hp : Passes s₀ s) (hw : Wraps s₀ s) (hp' : Passes s s') (hb : Begins s s') :
    Begins s₀ s' := by
  intro hq
  have := hp.size_le
  have := hp'.size_le
  obtain ⟨st, hst⟩ := hb (by omega)
  exact hw (by omega) st _ hst

-- A statement that ends in a statement.
theorem Strides.before (h : Treads s₀ s) (hw : Wraps s₀ s) (hs : Strides s s') : Strides s₀ s' := by
  have hp := Treads.passes h
  induction hs with
  | stop ht hs              => exact .stop (h.trans ht) hs
  | finish ht hk            => exact .finish (h.trans ht) hk
  | complain ht h' hk hx he => exact .complain (h.trans ht) h' hk hx he
  | block ht hk h'          => exact .block (h.trans ht) hk h'
  | resume hs hk hh hb h' hi _ =>
    exact .resume (hi h hw hp) hk (hh.before hp) (hb.before hp hw hs.passes) h'
  | number _ hi             => exact .number (hi h hw hp)

-- A statement that cannot be read is passed over up to its `;`.
theorem Strides.skip {s : Cursor n} (h : Treads s₀ s.toInput) :
    Strides s₀ (skipStatement s).toInput := by
  have ht : Treads s₀ (s.skipUntil (· = .semicolon)).toInput := h.trans (s.treads_skipUntil rfl)
  show Strides s₀ (s.skipUntil (· = .semicolon)).toInput.tail
  cases hs : (s.skipUntil (· = .semicolon)).tokens with
  | nil       =>
    refine .stop (ht.tail (.pass ?_)) (by simp [Input.tail, hs])
    simp [Input.first, firstOf, hs]
  | cons t l =>
    refine .finish ht ?_
    rw [first_of_cons hs]
    have hd : s.tokens.dropWhile (fun t => !decide (t.kind = .semicolon)) = t :: l := hs
    have hn := List.head?_dropWhile_not (fun t : Token => !decide (t.kind = .semicolon)) s.tokens
    rw [hd] at hn
    simpa using hn

end MiniJava.Reading
