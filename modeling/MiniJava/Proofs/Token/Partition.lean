import Mathlib.Data.List.Induction
import MiniJava.Proofs.Token.Cut

namespace MiniJava

-- One place comes strictly before another one.
def Position.Before (p q : Position) : Prop :=
  p.line < q.line ∨ p.line = q.line ∧ p.column < q.column

namespace Position

theorem Before.trans {p q r : Position} (h₁ : p.Before q) (h₂ : q.Before r) : p.Before r := by
  unfold Before at *
  omega

theorem Before.ne {p q : Position} (h : p.Before q) : p ≠ q := by
  rintro rfl
  unfold Before at h
  omega

theorem before_step (p : Position) (c : Char) : p.Before (p.step c) := by
  unfold step Before
  split <;> simp

theorem before_advance (p : Position) {text : List Char} (h : text ≠ []) :
    p.Before (p.advance text) := by
  induction text generalizing p with
  | nil            => exact absurd rfl h
  | cons c text hi =>
    rw [advance_cons]
    cases text with
    | nil    => exact before_step p c
    | cons _ => exact (before_step p c).trans (hi (p.step c) (by simp))

theorem before_advance_of_before {p q : Position} (h : p.Before q) (text : List Char) :
    p.Before (q.advance text) := by
  cases text with
  | nil    => exact h
  | cons _ => exact h.trans (before_advance q (by simp))

-- Where a text stands that comes after another one: line feeds are counted, and the characters
-- behind the last of them.
def behind (text : List Char) : Position where
  line   := 1 + text.count '\n'
  column := 1 + (text.reverse.takeWhile (· ≠ '\n')).length

theorem behind_concat (text : List Char) (c : Char) :
    behind (text ++ [c]) = (behind text).step c := by
  by_cases hc : c = '\n'
  case pos =>
    subst hc
    simp [behind, step]
    omega
  case neg =>
    simp [behind, step, hc]
    omega

theorem advance_start (text : List Char) : start.advance text = behind text := by
  induction text using List.reverseRecOn with
  | nil                        => rfl
  | append_singleton text c hi =>
    rw [advance_append, hi, behind_concat]
    rfl

theorem advance_behind (before text : List Char) :
    (behind before).advance text = behind (before ++ text) := by
  rw [← advance_start, ← advance_append, advance_start]

theorem behind_le (text : List Char) :
    (behind text).line ≤ text.length + 1 ∧ (behind text).column ≤ text.length + 1 := by
  have hl : text.count '\n' ≤ text.length := List.count_le_length
  have hc := (List.takeWhile_sublist (· ≠ '\n') (l := text.reverse)).length_le
  rw [List.length_reverse] at hc
  simp only [behind]
  omega

end Position

namespace Scan

open Position

-- The pieces of a text that comes after the text `before`, and where it ends.
inductive Consists : (before text : List Char) → List Token → (stop : Position) → Prop
  | done : Blanks blanks [] → Consists before blanks [] (behind (before ++ blanks))
  | cons :
    Blanks blanks (lexeme ++ rest) → lexeme ≠ [] → IsLexeme kind lexeme rest →
      Consists (before ++ blanks ++ lexeme) rest tokens stop →
      Consists before (blanks ++ lexeme ++ rest) (⟨kind, behind (before ++ blanks)⟩ :: tokens) stop

theorem Consists.stream_eq {before text : List Char} {tokens : List Token} {stop : Position}
    (h : Consists before text tokens stop) :
    Cursor.stream ⟨text, behind before⟩ = ⟨tokens, stop⟩ := by
  induction h with
  | @done blanks before hb              =>
    have hs : splitBlanks blanks = (blanks, []) := by
      simpa using hb.splitBlanks_eq splitBlanks.eq_1
    rw [Cursor.stream, if_pos (by rw [hs])]
    simp only [Cursor.next, hs, advance_behind]
  | @cons blanks lexeme rest kind before tokens stop hb hn hl _ hi =>
    have hs : splitBlanks (blanks ++ lexeme ++ rest) = (blanks, lexeme ++ rest) := by
      rw [List.append_assoc]
      exact hb.splitBlanks_eq hl.cut.blanks
    have hr : (splitBlanks (blanks ++ lexeme ++ rest)).2 ≠ [] := by rw [hs]; simp [hn]
    rw [Cursor.stream, if_neg hr]
    simp only [Cursor.next, hs, hl.cut.cut, advance_behind, hi]

theorem consists_stream (before : List Char) (c : Cursor) (h : c.position = behind before) :
    Consists before c.rest c.stream.tokens c.stream.stop := by
  fun_induction Cursor.stream c generalizing before with
  | case1 c hr =>
    have hb := blanks_splitBlanks c.rest
    have ht := splitBlanks_append c.rest
    simp only [hr, List.append_nil] at hb ht
    simp only [Cursor.next, h, advance_behind, ht]
    exact .done (ht ▸ hb)
  | case2 c hr following hi =>
    have ht := splitBlanks_append c.rest
    have hc := cutLexeme_append (splitBlanks c.rest).2
    have hp : (⟨c.next.1.kind, behind (before ++ (splitBlanks c.rest).1)⟩ : Token) = c.next.1 := by
      simp only [Cursor.next, h, advance_behind]
    rw [← hp]
    have hn : c.next.2.position =
        behind (before ++ (splitBlanks c.rest).1 ++ (cutLexeme (splitBlanks c.rest).2).1.text) := by
      simp only [Cursor.next, h, advance_behind]
    have hl := isLexeme_cutLexeme (splitBlanks_splitBlanks c.rest) hr
    have hb : Blanks (splitBlanks c.rest).1 ((cutLexeme (splitBlanks c.rest).2).1.text ++
        (cutLexeme (splitBlanks c.rest).2).2) := hc.symm ▸ blanks_splitBlanks c.rest
    have hm := Consists.cons hb (cutLexeme_text_ne_nil hr) hl (hi _ hn)
    rwa [List.append_assoc, hc, ht] at hm

theorem Consists.before {before text : List Char} {tokens : List Token} {stop : Position}
    (h : Consists before text tokens stop) {p : Position} (hp : p.Before (behind before)) :
    ∀ t ∈ tokens ++ [⟨.endOfInput, stop⟩], p.Before t.position := by
  induction h with
  | done =>
    simpa [← advance_behind] using before_advance_of_before hp _
  | @cons blanks lexeme rest kind before tokens stop _ _ _ _ hi =>
    have hb := before_advance_of_before hp blanks
    have hl := before_advance_of_before hb lexeme
    rw [advance_behind] at hb hl
    rw [advance_behind] at hl
    exact List.forall_mem_cons.mpr ⟨hb, hi hl⟩

theorem Consists.pairwise_before {before text : List Char} {tokens : List Token} {stop : Position}
    (h : Consists before text tokens stop) :
    (tokens ++ [(⟨.endOfInput, stop⟩ : Token)]).Pairwise
      fun t u => t.position.Before u.position := by
  induction h with
  | done => simp
  | @cons blanks lexeme rest kind before tokens stop _ hn _ hr hi =>
    have hl := before_advance (behind (before ++ blanks)) hn
    rw [advance_behind] at hl
    exact List.pairwise_cons.mpr ⟨hr.before hl, hi⟩

-- A line and a column are no more than the characters up to the end of the lexeme.
theorem Consists.le_length {before text : List Char} {tokens : List Token} {stop : Position}
    (h : Consists before text tokens stop) : ∀ t ∈ tokens,
      t.position.line ≤ (before ++ text).length ∧ t.position.column ≤ (before ++ text).length := by
  induction h with
  | done => simp
  | @cons blanks lexeme rest kind before tokens stop _ hn _ _ hi =>
    have hl := List.length_pos_iff.mpr hn
    have hb := behind_le (before ++ blanks)
    simp only [List.append_assoc, List.length_append] at hb hi ⊢
    refine List.forall_mem_cons.mpr ⟨?here, hi⟩
    case here => dsimp only; omega

theorem IsLexeme.kind_ne {lexeme rest : List Char} (h : IsLexeme kind lexeme rest) :
    kind ≠ .endOfInput := by
  rintro rfl
  cases h with
  | word h _ _ _ => cases h
  | mark h _     => cases h

theorem Consists.kind_ne {before text : List Char} {tokens : List Token} {stop : Position}
    (h : Consists before text tokens stop) : ∀ t ∈ tokens, t.kind ≠ .endOfInput := by
  induction h with
  | done              => simp
  | cons _ _ hl _ hi  => exact List.forall_mem_cons.mpr ⟨hl.kind_ne, hi⟩

theorem consists_ofText (text : String) :
    Consists [] text.toList (TokenStream.ofText text).tokens (TokenStream.ofText text).stop :=
  consists_stream [] (Cursor.ofText text) rfl

end Scan

open Scan

-- A text consists of the pieces of its tokens, and of no others. No line and no column of a token
-- is more than the length of the text.
theorem TokenStream.ofText_partition (text : String) :
    (∀ tokens stop, Consists [] text.toList tokens stop ↔ ofText text = ⟨tokens, stop⟩) ∧
    (ofText text).toList.Pairwise (fun t u => t.position.Before u.position) ∧
    ∀ t ∈ (ofText text).tokens,
      t.position.line ≤ text.length ∧ t.position.column ≤ text.length := by
  have hc := consists_ofText text
  refine ⟨fun tokens stop => ⟨Consists.stream_eq, fun h => ?consists⟩, hc.pairwise_before, ?le⟩
  case consists => rwa [h] at hc
  case le       => simpa [← String.length_toList] using hc.le_length

end MiniJava
