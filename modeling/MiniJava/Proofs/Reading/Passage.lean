import Mathlib.Data.List.Infix
import Mathlib.Logic.Relation
import MiniJava.Tree.Cursor

namespace MiniJava.Reading

-- The next token, if the end of input is at `stop`.
def firstOf (stop : Position) (l : List Token) : Token :=
  l.head?.getD ⟨.endOfInput, stop⟩

def Input.first (s : Input) : Token :=
  firstOf s.stop s.tokens

-- The input behind the next token, which is reported if it is malformed.
def Input.tail (s : Input) : Input :=
  { s with
    tokens := s.tokens.tail
    diagnostics := s.diagnostics ++ (s.tokens.take 1).filterMap defect? }

def Input.report (error : SyntaxError) (position : Position) (s : Input) : Input :=
  { s with diagnostics := s.diagnostics.push (.grammatical error position) }

theorem first_of_cons {s : Input} (h : s.tokens = t :: l) : s.first = t := by
  simp [Input.first, firstOf, h]

theorem Input.tokens_eq_cons {s : Input} (hk : s.first.kind ≠ .endOfInput) :
    s.tokens = s.first :: s.tail.tokens := by
  cases hs : s.tokens with
  | nil  => simp [first, firstOf, hs] at hk
  | cons => simp [first_of_cons hs, tail, hs]

-- A reader is a passage of single moves. What every move keeps is kept by every reader.
inductive Move : Input → Input → Prop
  | take (s : Input)            : Move s s.tail
  | number (s : Input)          : Move s { s with nextId := s.nextId + 1 }
  | report (s : Input) (e) (p)  : Move s (s.report e p)

abbrev Passes := Relation.ReflTransGen Move

namespace Move

theorem size_le : Move s s' → s.diagnostics.size ≤ s'.diagnostics.size
  | take _     => by simp [Input.tail, ← Array.length_toList]
  | number _   => Nat.le_refl _
  | report ..  => by simp [Input.report]

theorem nextId_le : Move s s' → s.nextId ≤ s'.nextId
  | take _ | report .. => Nat.le_refl _
  | number _           => Nat.le_succ _

theorem stop_eq : Move s s' → s'.stop = s.stop
  | take _ | number _ | report .. => rfl

theorem suffix : Move s s' → s'.tokens <:+ s.tokens
  | take s               => s.tokens.tail_suffix
  | number _ | report .. => List.suffix_refl _

theorem reports_kept (m : Move s s') :
    s.diagnostics.toList <+: s'.diagnostics.toList := by
  cases m with
  | take       => simp [Input.tail]
  | number     => exact List.prefix_rfl
  | report _ _ => simp [Input.report]

end Move

namespace Passes

theorem size_le (h : Passes s s') : s.diagnostics.size ≤ s'.diagnostics.size := by
  induction h with
  | refl => exact Nat.le_refl _
  | tail _ m hi => exact hi.trans m.size_le

theorem nextId_le (h : Passes s s') : s.nextId ≤ s'.nextId := by
  induction h with
  | refl => exact Nat.le_refl _
  | tail _ m hi => exact hi.trans m.nextId_le

theorem stop_eq (h : Passes s s') : s'.stop = s.stop := by
  induction h with
  | refl => rfl
  | tail _ m hi => exact m.stop_eq.trans hi

theorem suffix (h : Passes s s') : s'.tokens <:+ s.tokens := by
  induction h with
  | refl => exact List.suffix_refl _
  | tail _ m hi => exact m.suffix.trans hi

theorem reports_kept (h : Passes s s') :
    s.diagnostics.toList <+: s'.diagnostics.toList := by
  induction h with
  | refl        => exact List.prefix_rfl
  | tail _ m hi => exact hi.trans m.reports_kept

end Passes

theorem Passes.take (s : Input) : Passes s s.tail :=
  .single (.take s)

theorem Passes.report (s : Input) (e : SyntaxError) (p : Position) : Passes s (s.report e p) :=
  .single (.report s e p)

-- Passing over tokens is taking them one by one.
theorem Passes.skip (stop : TokenKind → Bool) (s : Input) :
    Passes s { s with
      tokens := s.tokens.dropWhile fun t => !stop t.kind
      diagnostics :=
        s.diagnostics ++ (s.tokens.takeWhile fun t => !stop t.kind).filterMap defect? } := by
  obtain ⟨tokens, stop', nextId, diagnostics⟩ := s
  induction tokens generalizing diagnostics with
  | nil => simpa using Relation.ReflTransGen.refl
  | cons t l hi =>
    by_cases ht : stop t.kind
    case pos => simpa [ht] using Relation.ReflTransGen.refl
    case neg =>
      refine .head (.take _) ?_
      cases hd : defect? t <;> simpa [Input.tail, ht, hd] using hi _

namespace Cursor

@[simp]
theorem toInput_widen (h : m ≤ n) (s : Cursor m) : (s.widen h).toInput = s.toInput :=
  rfl

@[simp]
theorem toInput_lift (s : Cursor (n - 1)) : s.lift.toInput = s.toInput :=
  rfl

@[simp]
theorem first_toInput (s : Cursor n) : s.toInput.first = s.head :=
  rfl

@[simp]
theorem toInput_next (s : Cursor n) : s.next.2.toInput = s.toInput.tail :=
  rfl

@[simp]
theorem toInput_report (s : Cursor n) : (s.report e p).toInput = s.toInput.report e p :=
  rfl

theorem passes_next (s : Cursor n) : Passes s.toInput s.next.2.toInput :=
  .take _

theorem passes_skipUntil (stop : TokenKind → Bool) (s : Cursor n) :
    Passes s.toInput (s.skipUntil stop).toInput :=
  Passes.skip stop s.toInput

theorem passes_skipThrough (last : TokenKind) (s : Cursor n) :
    Passes s.toInput (s.skipThrough last).toInput :=
  (s.passes_skipUntil _).trans (passes_next _)

theorem head_eq {s : Cursor n} (h : s.tokens = t :: r) : s.head = t := by
  simp [head, h]

end Cursor

end MiniJava.Reading
