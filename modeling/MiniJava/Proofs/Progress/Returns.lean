import Mathlib.Logic.Relation
import MiniJava.Proofs.Progress.Bodies
import MiniJava.Proofs.Progress.Readers

namespace MiniJava.Reading

-- That a computation comes to a call of `q` at `s`, once the calls before it have returned.
inductive Makes (q : Routine) (s : Input) : {α : Type} → Calls α → Prop
  | here : Makes q s (.call q s next)
  | later : Runs (Reader.body p s₁) r → Makes q s (next r) → Makes q s (.call p s₁ next)

def Nests (c c' : Routine × Input) : Prop :=
  Makes c'.1 c'.2 (Reader.body c.1 c.2)

inductive NextRound : Routine → Routine → Prop
  | classList : NextRound .classList .classList
  | memberList : NextRound .memberList .memberList
  | statementList : NextRound .statementList .statementList
  | parameterList : NextRound .parameterList .parameterList
  | argumentList : NextRound .argumentList .argumentList
  | termTail : NextRound (.termTail e) (.termTail e')
  | chainRest : NextRound (.chainRest k left) (.chainRest k left')
  | skip : NextRound (.skip stop) (.skip stop)

theorem NextRound.level_eq (h : NextRound p q) : p.level = q.level := by
  cases h <;> rfl

variable {c c' : Routine × Input} {p q : Routine} {s s' : Input}

-- The calls answer one by one.
theorem Calls.Descend.runs {t : Calls α} (h : t.Descend c Q)
    (hc : ∀ q s, Below (q, s) c → ∃ r, Runs (Reader.body q s) r ∧ q.Keeps s r) :
    ∃ a, Runs t a ∧ Q a := by
  induction t with
  | done a => exact ⟨a, .done, h⟩
  | call q s next ih =>
    obtain ⟨r, hr, hk⟩ := hc q s h.1
    obtain ⟨a, ha, hq⟩ := ih r (h.2 r hk)
    exact ⟨a, .call hr ha, hq⟩

theorem returns (p : Routine) (s : Input) : ∃ r, Runs (Reader.body p s) r ∧ p.Keeps s r := by
  induction h : (p, s) using wellFounded_below.induction generalizing p s with
  | _ c ih =>
    subst h
    exact (body_descends p s).runs fun q s' hb => ih (q, s') hb q s' rfl

theorem Runs.keeps (h : Runs (Reader.body p s) r) : p.Keeps s r := by
  obtain ⟨r', hr, hk⟩ := returns p s
  exact h.unique hr ▸ hk

theorem Makes.descends {t : Calls α} (h : Makes q s t) (ht : t.Descend c Q) : Below (q, s) c := by
  induction h with
  | here             => exact ht.1
  | later hr _ ih    => exact ih (ht.2 _ hr.keeps)

theorem Nests.below (h : Nests c c') : Below c' c :=
  Makes.descends h (body_descends c.1 c.2)

-- No chain of nested calls goes on for ever.
theorem wellFounded_nests : WellFounded fun c c' => Nests c' c :=
  Subrelation.wf Nests.below wellFounded_below

theorem Below.rest (h : Below c' c) : Rest c.2 c'.2 := by
  rcases h with h | h
  case inl => exact h.1
  case inr =>
    show c'.2.tokens <:+ c.2.tokens
    rw [h.1]

theorem rest_of_nested (h : Relation.ReflTransGen Nests c c') : Rest c.2 c'.2 := by
  induction h with
  | refl        => exact List.suffix_rfl
  | tail _ h ih => exact ih.trans h.below.rest

-- A round has the level of the one before, so it has fewer tokens before it.
theorem Nests.shorter_of_nextRound (h : Nests (p, s) (q, s')) (hr : NextRound p q) :
    Shorter s s' := by
  rcases h.below with h | h
  case inl => exact h
  case inr => exact absurd hr.level_eq h.2.ne'

end MiniJava.Reading

namespace MiniJava.ParsedProgram

open Reading

-- The routines read what the readers read, and every call on the way goes on.
theorem always_progresses (tokens : List Token) :
    let parsed := ofStream (.ofTokens tokens)
    let start := (Cursor.ofStream (.ofTokens tokens)).toInput
    (∃ s', Runs (Reader.body .program start) (.ok parsed.program, s') ∧
        s'.diagnostics.toList = parsed.diagnostics) ∧
      WellFounded (fun c c' => Nests c' c) ∧
      ∀ p s, Relation.ReflTransGen Nests (.program, start) (p, s) →
        (∀ t ∈ s.tokens, t.kind ≠ .endOfInput) ∧
        (∃ r, Runs (Reader.body p s) r ∧ Rest s r.2 ∧
          (p.isItem → s.first.kind ≠ .endOfInput → Shorter s r.2)) ∧
        (∀ q s', Nests (p, s) (q, s') →
          Shorter s s' ∨ s'.tokens = s.tokens ∧ q.level < p.level) ∧
        (∀ q s', NextRound p q → Nests (p, s) (q, s') → Shorter s s') := by
  intro parsed start
  refine ⟨⟨_, gives_program _ (Cursor.ofStream (.ofTokens tokens)), rfl⟩, wellFounded_nests,
    fun p s hs => ⟨fun t ht => ?kind, ?returns, fun q s' h => h.below, fun q s' hr h =>
      h.shorter_of_nextRound hr⟩⟩
  case kind => exact TokenStream.kind_ne_of_mem_ofTokens ((rest_of_nested hs).mem ht)
  case returns =>
    obtain ⟨r, hr, hk⟩ := returns p s
    refine ⟨r, hr, hk.rest, fun hi hn => hk.taken hi ?_⟩
    rw [Input.tokens_eq_cons hn]
    simp

end MiniJava.ParsedProgram
