import MiniJava.Proofs.Recovery.Program
import MiniJava.Proofs.Token.Partition

namespace MiniJava

namespace Diagnostic

-- Whether the report comes behind the `;` of an expression.
def isLate (d : Diagnostic) : Bool :=
  match d.problem with
  | .grammatical error => !error.isPrompt
  | _                  => false

-- Both have their places, and that of `d'` is not before that of `d`.
def Precedes (d d' : Diagnostic) : Prop :=
  ∃ p q, d.position = some p ∧ d'.position = some q ∧ p ≤ q

-- An expression with a `;` behind it is read somewhere in the tokens. What is reported within it is
-- `ds`, and then `d` is that it is no statement.
def Complains (tokens : List Token) (ds : List Diagnostic) (d : Diagnostic) : Prop :=
  ∃ e s s', Reading.Expresses e s s' ∧ s.tokens <:+ tokens ∧ s'.first.kind = .semicolon ∧
    s'.diagnostics.toList = s.diagnostics.toList ++ ds ∧
    d = .grammatical (.notAStatement e.form) e.position

-- What is true of any two reports on the tokens, of which `d` comes first.
def Ordered (tokens : List Token) (d d' : Diagnostic) : Prop :=
  d.Precedes d' ∨ d.isLate = false ∧ ∃ ds, d ∈ ds ∧ Complains tokens ds d'

theorem not_isLate_of_defect? {d : Diagnostic} (h : Reading.defect? t = some d) :
    d.isLate = false ∧ d.position = some t.position := by
  obtain ⟨error, -, rfl⟩ := Option.map_eq_some_iff.mp h
  exact ⟨rfl, rfl⟩

end Diagnostic

namespace Reading

open Diagnostic

variable {tokens : List Token} {s s' : Input}

-- The tokens to come, and the end of input.
def Input.ahead (s : Input) : List Token :=
  s.tokens ++ [⟨.endOfInput, s.stop⟩]

theorem Input.ahead_eq (s : Input) : ∃ l, s.ahead = s.first :: l := by
  obtain ⟨_ | ⟨t, l⟩, stop, nextId, diagnostics⟩ := s
  case nil  => exact ⟨[], rfl⟩
  case cons => exact ⟨_, rfl⟩

-- What is added is told of the place where the reading stands.
def Input.Adds (s s' : Input) : Prop :=
  ∃ ds, s'.diagnostics.toList = s.diagnostics.toList ++ ds ∧
    ∀ d ∈ ds, d.isLate = false ∧ d.position = some s.first.position

theorem Input.adds_tail (s : Input) : s.Adds s.tail := by
  refine ⟨(s.tokens.take 1).filterMap defect?, by simp [Input.tail], ?_⟩
  obtain ⟨_ | ⟨t, l⟩, stop, nextId, diagnostics⟩ := s
  case nil  => simp
  case cons =>
    intro d hd
    have hd : defect? t = some d := by simpa using hd
    exact not_isLate_of_defect? hd

theorem Input.Adds.report {error : SyntaxError} (h : s.Adds s') (he : error.isPrompt) :
    s.Adds (s'.report error s.first.position) := by
  obtain ⟨ds, hs, hd⟩ := h
  refine ⟨ds ++ [.grammatical error s.first.position], by simp [Input.report, hs], ?_⟩
  refine List.forall_mem_append.mpr ⟨hd, ?_⟩
  simp [isLate, Diagnostic.grammatical, he]

theorem Tread.adds (h : Tread s s') : s.Adds s' := by
  cases h with
  | pass _      => exact s.adds_tail
  | number      => exact ⟨[], by simp⟩
  | refuse he   => exact Input.Adds.report ⟨[], by simp⟩ he
  | reject he _ => exact s.adds_tail.report he

theorem Treads.added (h : Treads s s') :
    ∃ ds, s'.diagnostics.toList = s.diagnostics.toList ++ ds ∧ ∀ d ∈ ds, d.isLate = false := by
  induction h with
  | refl        => exact ⟨[], by simp⟩
  | tail _ t hi =>
    obtain ⟨ds, hs, hd⟩ := hi
    obtain ⟨ds', hs', hd'⟩ := t.adds
    refine ⟨ds ++ ds', by rw [hs', hs, List.append_assoc], ?_⟩
    exact List.forall_mem_append.mpr ⟨hd, fun d h => (hd' d h).1⟩

-- The tokens to come are in order, and so are the reports, none of which stands further on.
structure InOrder (tokens : List Token) (s : Input) : Prop where
  suffix  : s.tokens <:+ tokens
  places  : s.ahead.Pairwise (·.position ≤ ·.position)
  reports : s.diagnostics.toList.Pairwise (Ordered tokens)
  past    : ∀ d ∈ s.diagnostics.toList, ∃ p, d.position = some p ∧ p ≤ s.first.position

theorem InOrder.first_le (h : InOrder tokens s) (ht : t ∈ s.ahead) :
    s.first.position ≤ t.position := by
  obtain ⟨l, hl⟩ := s.ahead_eq
  have hp := h.places
  rw [hl] at hp ht
  rcases List.mem_cons.mp ht with rfl | ht
  case inl => exact Position.le_refl _
  case inr => exact (List.pairwise_cons.mp hp).1 t ht

theorem Passes.ahead_suffix (h : Passes s s') : s'.ahead <:+ s.ahead := by
  obtain ⟨l, hl⟩ := h.suffix
  exact ⟨l, by rw [Input.ahead, Input.ahead, ← hl, h.stop_eq, List.append_assoc]⟩

theorem Input.first_mem_ahead (s : Input) : s.first ∈ s.ahead := by
  obtain ⟨l, hl⟩ := s.ahead_eq
  exact hl ▸ List.mem_cons_self

-- What is reported next stands where the reading does, or further on.
theorem InOrder.add (h : InOrder tokens s) (hp : Passes s s')
    (hs : s'.diagnostics.toList = s.diagnostics.toList ++ ds) (hd : ds.Pairwise (Ordered tokens))
    (hr : ∀ d ∈ s.diagnostics.toList, ∀ d' ∈ ds, d.Ordered tokens d')
    (hf : ∀ d ∈ ds, ∃ p, d.position = some p ∧ p ≤ s'.first.position) : InOrder tokens s' where
  suffix  := hp.suffix.trans h.suffix
  places  := h.places.sublist hp.ahead_suffix.sublist
  reports := hs ▸ List.pairwise_append.mpr ⟨h.reports, hd, hr⟩
  past    := by
    rw [hs]
    refine List.forall_mem_append.mpr ⟨fun d hd => ?before, hf⟩
    case before =>
      obtain ⟨p, hdp, hp'⟩ := h.past d hd
      have hl := h.first_le (hp.ahead_suffix.subset s'.first_mem_ahead)
      exact ⟨p, hdp, Position.le_trans hp' hl⟩

theorem InOrder.adds (h : InOrder tokens s) (hp : Passes s s') (ha : s.Adds s') :
    InOrder tokens s' := by
  obtain ⟨ds, hs, hd⟩ := ha
  have hl := h.first_le (hp.ahead_suffix.subset s'.first_mem_ahead)
  refine h.add hp hs ?among ?after fun d hm => ⟨_, (hd d hm).2, hl⟩
  case among =>
    refine List.pairwise_of_forall_mem_list fun d hm d' hm' => .inl ?_
    exact ⟨_, _, (hd d hm).2, (hd d' hm').2, Position.le_refl _⟩
  case after =>
    intro d hm d' hm'
    obtain ⟨p, hp, hl⟩ := h.past d hm
    exact .inl ⟨p, _, hp, (hd d' hm').2, hl⟩

theorem InOrder.tread (h : InOrder tokens s) (t : Tread s s') : InOrder tokens s' :=
  h.adds t.passes t.adds

theorem InOrder.treads (h : InOrder tokens s) (ht : Treads s s') : InOrder tokens s' := by
  induction ht with
  | refl        => exact h
  | tail _ t hi => exact hi.tread t

theorem Input.diagnostics_tail (hk : s.first.kind = .semicolon) :
    s.tail.diagnostics = s.diagnostics := by
  have hs : s.tokens = s.first :: s.tail.tokens := Input.tokens_eq_cons (by simp [hk])
  have hd : defect? s.first = none := by simp [defect?, hk, TokenKind.defect?]
  rw [Input.tail, hs]
  simp [hd]

-- The expression stands behind what was reported before it. What was reported within it comes first.
theorem InOrder.complain (h : InOrder tokens s) (ht : Treads s s')
    (hk : s'.first.kind = .semicolon) (hp : Spans [e.position] s s') (he : Expresses e s s') :
    InOrder tokens (s'.tail.report (.notAStatement e.form) e.position) := by
  obtain ⟨ds, hs, hd⟩ := Treads.added ht
  have h' := (h.treads ht).adds (.take s') s'.adds_tail
  obtain ⟨l, hl, hm⟩ := hp
  obtain ⟨t, htl, hte⟩ := List.mem_map.mp (List.singleton_sublist.mp hm)
  have ha : s.ahead = l ++ s'.ahead := by
    rw [Input.ahead, Input.ahead, hl, (Treads.passes ht).stop_eq, List.append_assoc]
  have hq : e.position ≤ s'.tail.first.position := by
    have hx := (Passes.take s').ahead_suffix.subset s'.tail.first_mem_ahead
    have hw := h.places
    rw [ha] at hw
    exact hte ▸ (List.pairwise_append.mp hw).2.2 t htl _ hx
  have hr : (s'.tail.report (.notAStatement e.form) e.position).diagnostics.toList =
      s'.tail.diagnostics.toList ++ [.grammatical (.notAStatement e.form) e.position] := by
    simp [Input.report]
  refine h'.add (.report ..) hr (List.pairwise_singleton ..) ?after ?here
  case after =>
    have hc : Complains tokens ds (.grammatical (.notAStatement e.form) e.position) :=
      ⟨e, s, s', he, h.suffix, hk, hs, rfl⟩
    rw [Input.diagnostics_tail hk, hs]
    refine List.forall_mem_append.mpr ⟨fun d hm => ?before, fun d hm => ?within⟩
    case before =>
      obtain ⟨q, hq, hle⟩ := h.past d hm
      have hf := hte ▸ h.first_le (ha ▸ List.mem_append_left _ htl)
      simpa using .inl ⟨q, _, hq, rfl, Position.le_trans hle hf⟩
    case within => simpa using .inr ⟨hd d hm, ds, hm, hc⟩
  case here => simpa using ⟨_, rfl, hq⟩

theorem InOrder.walk (h : InOrder tokens s) (w : Walk s s') : InOrder tokens s' := by
  cases w with
  | tread t               => exact h.tread t
  | finish _              => exact h.adds (.take s) s.adds_tail
  | complain ht hk hp he => exact h.complain ht hk hp he

theorem InOrder.walks (h : InOrder tokens s) (w : Walks s s') : InOrder tokens s' := by
  induction w with
  | refl        => exact h
  | tail _ w hi => exact hi.walk w

theorem inOrder_ofText (text : String) :
    InOrder (TokenStream.ofText text).tokens (Cursor.ofStream (.ofText text)).toInput where
  suffix  := List.suffix_refl _
  places  := (Scan.consists_ofText text).pairwise_before.imp fun h => Position.le_def.mpr (by
    unfold Position.Before at h
    omega)
  reports := .nil
  past    := by simp [Cursor.ofStream]

end Reading

namespace ParsedProgram

open Diagnostic

-- The diagnostics of a text are in order, except that the one behind the `;` of an expression may
-- stand before those within the expression.
theorem diagnostics_ordered (text : String) :
    (ofStream (.ofText text)).diagnostics.Pairwise (Ordered (TokenStream.ofText text).tokens) :=
  ((Reading.inOrder_ofText text).walks (Reading.walks_program _ _)).reports

-- The missing operand is reported at the `;`, and then the sum at its operator.
theorem diagnostics_disordered :
    ¬ (ofStream (.ofText "class A{public static void main(){1+;}}")).diagnostics.Pairwise
      Precedes := by
  have hd : (ofStream (.ofText "class A{public static void main(){1+;}}")).diagnostics =
      [.grammatical (.termStart .semicolon) ⟨1, 37⟩,
        .grammatical (.notAStatement .binaryOperator) ⟨1, 36⟩] := by
    decide +kernel
  rw [hd]
  intro h
  obtain ⟨p, q, hp, hq, hle⟩ := (List.pairwise_pair.mp h)
  cases hp
  cases hq
  exact absurd hle (by decide)

end ParsedProgram

end MiniJava
