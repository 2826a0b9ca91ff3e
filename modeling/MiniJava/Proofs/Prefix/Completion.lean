import Mathlib.Algebra.BigOperators.Group.List.Basic
import Mathlib.Algebra.Order.Ring.Nat
import MiniJava.Proofs.Prefix.Goal

namespace MiniJava.Prefix

-- Tokens that continue an expression or a statement wherever they stand.
def continues : TokenKind → Bool
  | .leftBracket | .dot | .operator _ | .keyword .elseWord => true
  | _                                                      => false

namespace Goal

def isExact : Goal → Bool
  | exact _ => true
  | _       => false

def isProper : Goal → Bool
  | exact kind => proper kind
  | _          => true

-- Whether the goal can stand below any other one.
def follows : Goal → Bool
  | exact kind => !continues kind
  | _          => true

-- The next token on a short way to the end, unless the goal is met by nothing.
def hint? : Goal → Option TokenKind
  | exact kind                               => some kind
  | identifier | type | creation             => some (.identifier "a")
  | namedType name                           => some (.typeName name true)
  | expression | unary | term                => some (.integer 0)
  | close | arguments | moreArguments | parameters | moreParameters => some .rightParen
  | selector                                 => some (.keyword .lengthWord)
  | creationEnd                              => some .leftParen
  | statement | heading                      => some .leftBrace
  | afterName | ending                            => some .assign
  | afterBracket                             => some .rightBracket
  | statements | members                     => some .rightBrace
  | brackets | operators .. | tail _ | orElse => none

-- The number of tokens on that way.
def cost : Goal → Nat
  | brackets | operators .. | tail _ | orElse => 0
  | statement | creationEnd                  => 2
  | creation | afterName | afterBracket | ending => 3
  | _                                        => 1

end Goal

def cost (goals : List Goal) : Nat :=
  (goals.map Goal.cost).sum

-- A token that continues what stands before it is asked for only behind a token that is asked for as
-- well.
def fit : List Goal → Bool
  | []           => true
  | [g]          => g.isProper
  | g :: g' :: l => g.isProper && (g.isExact || g'.follows) && fit (g' :: l)

theorem fit_of_cons (h : fit (g :: l)) : fit l := by
  cases l with
  | nil      => rfl
  | cons g l => simp_all [fit]

theorem isProper_of_fit (h : fit (g :: l)) : g.isProper := by
  cases l <;> simp_all [fit]

theorem follows_of_fit (h : fit (g :: g' :: l)) (hg : g.isExact = false) : g'.follows := by
  simp_all [fit]

theorem fit_append {new l : List Goal} (hn : fit new) (hl : fit l)
    (hf : ∀ g ∈ l.head?, g.follows) : fit (new ++ l) := by
  induction new with
  | nil           => exact hl
  | cons g new hi =>
    cases new with
    | cons g' new =>
      have h := hi (fit_of_cons hn)
      simp_all [fit]
    | nil         =>
      cases l with
      | nil      => exact hn
      | cons b l => simp_all [fit]

section

variable {goals : List Goal}

theorem fit_termStart (h : termStart kind = some goals) : fit goals := by
  unfold termStart at h
  split at h <;> cases h <;> rfl

theorem fit_unaryStart (h : unaryStart kind = some goals) : fit goals := by
  unfold unaryStart at h
  split at h
  case h_1 => cases h; rfl
  case h_2 => exact fit_termStart h

theorem fit_map_append {o : Option (List Goal)} (ho : ∀ l, o = some l → fit l) {l : List Goal}
    (hl : fit l) (hf : ∀ g ∈ l.head?, g.follows) (h : o.map (· ++ l) = some goals) : fit goals := by
  obtain ⟨new, hn, rfl⟩ := Option.map_eq_some_iff.mp h
  exact fit_append (ho new hn) hl hf

theorem fit_expressionStart (h : expressionStart kind = some goals) : fit goals :=
  fit_map_append (fun _ => fit_unaryStart) rfl (by simp [Goal.follows]) h

theorem fit_variableStart (h : variableStart kind = some goals) : fit goals := by
  unfold variableStart at h
  split at h <;> cases h <;> rfl

theorem fit_statementStart (h : statementStart kind = some goals) : fit goals := by
  unfold statementStart at h
  split at h
  case h_10 => exact fit_map_append (fun _ => fit_expressionStart) rfl (by simp [Goal.follows]) h
  all_goals cases h <;> rfl

theorem ofStart_eq_take {o : Option (List Goal)} :
    Reaction.ofStart o = .take goals ↔ o = some goals := by
  cases o <;> simp [Reaction.ofStart]

theorem fit_of_ofStart {o : Option (List Goal)} (ho : ∀ l, o = some l → fit l) {l : List Goal}
    (h : Reaction.ofStart (o.map (· ++ l)) = .take goals) (hl : fit l)
    (hf : ∀ g ∈ l.head?, g.follows) : fit goals :=
  fit_map_append ho hl hf (ofStart_eq_take.mp h)

theorem fit_of_react {g : Goal} (h : g.react call kind = .take goals) :
    fit goals ∧ (g.isExact → goals = []) := by
  have he {l} (h : expressionStart kind = some l) : fit l := fit_expressionStart h
  cases g with
  | exact expected =>
    simp only [Goal.react] at h
    split at h <;> cases h
    exact ⟨rfl, fun _ => rfl⟩
  | expression     => exact ⟨he (ofStart_eq_take.mp h), nofun⟩
  | unary          => exact ⟨fit_unaryStart (ofStart_eq_take.mp h), nofun⟩
  | term           => exact ⟨fit_termStart (ofStart_eq_take.mp h), nofun⟩
  | statement      => exact ⟨fit_statementStart (ofStart_eq_take.mp h), nofun⟩
  | arguments      =>
    refine ⟨?_, nofun⟩
    simp only [Goal.react] at h
    split at h
    case isTrue  => cases h; rfl
    case isFalse => exact fit_of_ofStart (fun _ => he) h rfl (by simp [Goal.follows, continues])
  | afterBracket   =>
    refine ⟨?_, nofun⟩
    simp only [Goal.react] at h
    split at h
    case isTrue  => cases h; rfl
    case isFalse => exact fit_of_ofStart (fun _ => he) h rfl (by simp [Goal.follows, continues])
  | statements     =>
    refine ⟨?_, nofun⟩
    simp only [Goal.react] at h
    split at h
    case isTrue  => cases h; rfl
    case isFalse => exact fit_of_ofStart (fun _ => fit_statementStart) h rfl (by simp [Goal.follows, continues])
  | parameters     =>
    refine ⟨?_, nofun⟩
    simp only [Goal.react] at h
    split at h
    case isTrue  => cases h; rfl
    case isFalse => exact fit_of_ofStart (fun _ => fit_variableStart) h rfl (by simp [Goal.follows, continues])
  | members        =>
    refine ⟨?_, nofun⟩
    simp only [Goal.react] at h
    split at h
    case h_1 => cases h; rfl
    case h_2 => cases h; rfl
    case h_3 => exact fit_of_ofStart (fun _ => fit_variableStart) h rfl (by simp [Goal.follows, continues])
  | _              =>
    refine ⟨?_, nofun⟩
    simp only [Goal.react] at h
    repeat' split at h
    all_goals cases h <;> rfl

end

-- The goals that a token leads to are as fit as those before it.
theorem fit_of_verdict (h : State.verdict call kind l = .goes goals) (hl : fit l) : fit goals := by
  induction l generalizing call with
  | nil         =>
    unfold State.verdict at h
    split at h <;> cases h
    rfl
  | cons g l hi =>
    unfold State.verdict at h
    split at h
    case h_1 new hr =>
      cases h
      obtain ⟨hn, he⟩ := fit_of_react hr
      cases hx : g.isExact with
      | true  => exact he hx ▸ fit_of_cons hl
      | false =>
        refine fit_append hn (fit_of_cons hl) fun b hb => ?_
        obtain ⟨l, rfl⟩ := List.head?_eq_some_iff.mp hb
        exact follows_of_fit hl hx
    case h_2 => exact hi h (fit_of_cons hl)
    case h_3 => cases h

theorem fit_of_after {σ σ' : State} (h : σ.after l = some σ') (hf : fit σ.goals) :
    fit σ'.goals := by
  induction l generalizing σ with
  | nil         => cases h; exact hf
  | cons t l hi =>
    unfold State.after at h
    split at h
    case h_1 hv => exact hi h (fit_of_verdict hv hf)
    case h_2    => cases h

theorem proper_of_hint? {g : Goal} (h : g.hint? = some kind) (hg : g.isProper) : proper kind := by
  cases g <;> cases h <;> exact hg

theorem continues_of_hint? {g : Goal} (h : g.hint? = some kind) (hg : g.follows) :
    continues kind = false := by
  cases g <;> cases h <;> first | simpa [Goal.follows] using hg | rfl

theorem react_of_hint? {g : Goal} (h : g.hint? = some kind) (call : Bool) :
    ∃ new, g.react call kind = .take new ∧ cost new < g.cost := by
  cases g <;> cases h
  case exact     => exact ⟨[], if_pos rfl, Nat.zero_lt_one⟩
  case namedType => exact ⟨[], if_pos rfl, Nat.zero_lt_one⟩
  all_goals exact ⟨_, rfl, by simp [cost, Goal.cost]⟩

-- What may be missing gives way to any token but one that would continue what stands before it.
theorem react_of_hint?_eq_none {g : Goal} (h : g.hint? = none) (hk : continues kind = false)
    (call : Bool) : ∃ call', g.react call kind = .leave call' := by
  cases g with
  | brackets  => exact ⟨_, if_neg (by rintro rfl; cases hk)⟩
  | orElse    => exact ⟨_, if_neg (by rintro rfl; cases hk)⟩
  | operators => cases kind <;> first | exact ⟨_, rfl⟩ | cases hk
  | tail      => cases kind <;> first | exact ⟨_, rfl⟩ | cases hk
  | _         => cases h

-- Either nothing more is needed, or a token brings the end nearer. The token may stand below any other
-- goal if the nearest one may.
theorem exists_verdict (hl : fit l) :
    (∀ call, State.verdict call .endOfInput l = .ends) ∨
    ∃ kind, proper kind ∧ ((∀ g ∈ l.head?, g.follows) → continues kind = false) ∧
      ∀ call, ∃ goals, State.verdict call kind l = .goes goals ∧ cost goals < cost l := by
  induction l with
  | nil         => exact .inl fun _ => rfl
  | cons g l hi =>
    cases hg : g.hint? with
    | some kind =>
      refine .inr ⟨kind, proper_of_hint? hg (isProper_of_fit hl), fun hf => ?continues,
        fun call => ?call⟩
      case continues => exact continues_of_hint? hg (hf g rfl)
      case call =>
        obtain ⟨new, hr, hc⟩ := react_of_hint? hg call
        refine ⟨new ++ l, by simp [State.verdict, hr], ?_⟩
        simpa [cost] using hc
    | none      =>
      have hx : g.isExact = false := by cases g <;> first | rfl | cases hg
      have hf (g') (h : g' ∈ l.head?) : g'.follows := by
        obtain ⟨l, rfl⟩ := List.head?_eq_some_iff.mp h
        exact follows_of_fit hl hx
      rcases hi (fit_of_cons hl) with he | ⟨kind, hp, hk, hv⟩
      case inl =>
        refine .inl fun call => ?_
        obtain ⟨call', hr⟩ := react_of_hint?_eq_none hg (rfl : continues .endOfInput = false) call
        simpa [State.verdict, hr] using he call'
      case inr =>
        refine .inr ⟨kind, hp, fun _ => hk hf, fun call => ?_⟩
        obtain ⟨call', hr⟩ := react_of_hint?_eq_none hg (hk hf) call
        obtain ⟨goals, hv, hc⟩ := hv call'
        exact ⟨goals, by simpa [State.verdict, hr] using hv, Nat.lt_of_lt_of_le hc (by simp [cost])⟩

-- All goals that are left can be met.
theorem exists_after {goals : List Goal} (hf : fit goals) (call : Bool) :
    ∃ l σ, (∀ t ∈ l, proper t.kind) ∧ State.after ⟨call, goals⟩ l = some σ ∧
      σ.step .endOfInput = .ends := by
  induction hn : cost goals using Nat.strongRecOn generalizing call goals with | ind n hi =>
  rcases exists_verdict hf with he | ⟨kind, hp, -, hv⟩
  case inl => exact ⟨[], _, nofun, rfl, he call⟩
  case inr =>
    obtain ⟨goals', hv, hc⟩ := hv call
    obtain ⟨l, σ, hl, ha, he⟩ := hi _ (hn ▸ hc) (fit_of_verdict hv hf) false rfl
    refine ⟨⟨kind, .start⟩ :: l, σ, List.forall_mem_cons.mpr ⟨hp, hl⟩, ?_, he⟩
    rw [State.after, State.step, hv]
    exact ha

theorem fit_initial : fit State.initial.goals := by
  decide

end MiniJava.Prefix
