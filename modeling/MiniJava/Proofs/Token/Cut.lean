import Mathlib.Data.List.TakeWhile
import MiniJava.Proofs.Token.Lexeme

namespace MiniJava.Scan

theorem takeWhile_append_eq {p : Char → Bool} {l rest : List Char} (hl : ∀ c ∈ l, p c = true)
    (hr : ∀ c ∈ rest.head?, p c = false) : (l ++ rest).takeWhile p = l := by
  rw [List.takeWhile_append_of_pos hl]
  cases rest <;> simp_all

theorem dropWhile_append_eq {p : Char → Bool} {l rest : List Char} (hl : ∀ c ∈ l, p c = true)
    (hr : ∀ c ∈ rest.head?, p c = false) : (l ++ rest).dropWhile p = rest := by
  rw [List.dropWhile_append_of_pos hl]
  cases rest <;> simp_all

theorem head?_dropWhile (p : Char → Bool) (text : List Char) :
    ∀ c ∈ (text.dropWhile p).head?, p c = false := by
  intro c hc
  have h := List.head?_dropWhile_not p text
  rwa [Option.mem_def.mp hc] at h

theorem isDigit_of_isLetter {c : Char} (h : isLetter c = true) : isDigit c = false := by
  simp only [isLetter, isDigit, Bool.or_eq_true, Bool.and_eq_true, decide_eq_true_eq,
    Bool.and_eq_false_iff, decide_eq_false_iff_not, Char.le_def, UInt32.le_iff_toNat_le] at h ⊢
  rcases h with (h | h) | rfl
  case inl.inl => exact .inr fun hd => absurd (Nat.le_trans h.1 hd) (by decide)
  case inl.inr => exact .inr fun hd => absurd (Nat.le_trans h.1 hd) (by decide)
  case inr     => exact .inr (by decide)

section Blanks

theorem blanks_splitBlanks (text : List Char) :
    Blanks (splitBlanks text).1 (splitBlanks text).2 := by
  fun_induction splitBlanks text with
  | case1 => exact .nil
  | case2 text line blanks rest hs hi =>
    have ht := splitBlanks_append (text.dropWhile (· ≠ '\n'))
    rw [hs] at hi ht
    refine .line (fun hn => ?inside) (fun c hc => ?behind) hi
    case inside => simpa using List.mem_takeWhile_imp hn
    case behind => rw [ht] at hc; simpa using head?_dropWhile _ _ c hc
  | case3 => exact .nil
  | case4 text body after hc blanks rest hs hi =>
    rw [hs] at hi
    obtain ⟨inner, rfl, hn⟩ := exists_of_closeComment hc
    simpa using Blanks.comment hn hi
  | case5 c text _ _ hc blanks rest hs hi =>
    rw [hs] at hi
    exact .space hc hi
  | case6 => exact .nil

-- Nothing is left to split off.
theorem splitBlanks_splitBlanks (text : List Char) :
    splitBlanks (splitBlanks text).2 = ([], (splitBlanks text).2) := by
  fun_induction splitBlanks text with
  | case1                              => exact splitBlanks.eq_1
  | case2 text line blanks rest hs hi  => rwa [hs] at hi
  | case3 text hc                      => rw [splitBlanks.eq_3]; split <;> simp_all
  | case4 text _ _ _ blanks rest hs hi => rwa [hs] at hi
  | case5 c text _ _ _ _ _ hs hi       => rwa [hs] at hi
  | case6 c text hl hb hc              => rw [splitBlanks.eq_4 _ _ hl hb, if_neg hc]

theorem splitBlanks_comment {text body rest : List Char}
    (h : closeComment text = some (body, rest)) :
    splitBlanks ('/' :: '*' :: text) =
      ('/' :: '*' :: body ++ (splitBlanks rest).1, (splitBlanks rest).2) := by
  rw [splitBlanks.eq_3]
  split <;> simp_all

theorem splitBlanks_of_unclosed {text : List Char} (h : closeComment text = none) :
    splitBlanks ('/' :: '*' :: text) = ([], '/' :: '*' :: text) := by
  rw [splitBlanks.eq_3]
  split <;> simp_all

theorem Blanks.splitBlanks_eq {blanks rest : List Char} (h : Blanks blanks rest)
    (hr : splitBlanks rest = ([], rest)) : splitBlanks (blanks ++ rest) = (blanks, rest) := by
  induction h with
  | nil         => exact hr
  | space hc _ hi => rw [List.cons_append, splitBlanks_space hc, hi hr]
  | @line body l rest hn hl _ hi =>
    have hb : ∀ c ∈ body, decide (c ≠ '\n') = true := fun c hc =>
      decide_eq_true (ne_of_mem_of_not_mem hc hn)
    have hr' : ∀ c ∈ (l ++ rest).head?, decide (c ≠ '\n') = false := by simpa using hl
    simp only [List.cons_append, List.append_assoc]
    rw [splitBlanks.eq_2, dropWhile_append_eq hb hr', takeWhile_append_eq hb hr', hi hr]
    rfl
  | @comment body l rest hn _ hi =>
    simp only [List.cons_append, List.append_assoc]
    rw [splitBlanks_comment (closeComment_append_close hn _), hi hr]
    simp

end Blanks

section Lexeme

theorem isLexeme_word {c : Char} (hc : isLetter c = true) (text : List Char) :
    IsLexeme (wordKind (String.ofList (c :: text.takeWhile isWordChar)))
      (c :: text.takeWhile isWordChar) (text.dropWhile isWordChar) :=
  .word (isWord_wordKind _) hc (fun _ => List.mem_takeWhile_imp) (head?_dropWhile _ _)

theorem decimal_eq (digits : List Char) : decimal digits = Nat.ofDigitChars 10 digits 0 :=
  Nat.ofDigitChars_eq_foldl.symm

theorem isLexeme_integer {c : Char} (hc : isDigit c = true) (text : List Char) :
    IsLexeme (integerKind (c :: text.takeWhile isDigit)) (c :: text.takeWhile isDigit)
      (text.dropWhile isDigit) := by
  have hd : ∀ d ∈ c :: text.takeWhile isDigit, isDigit d = true := by
    simpa [hc] using fun d => List.mem_takeWhile_imp
  rw [integerKind, decimal_eq]
  split
  case isTrue hm  => exact .integer (by simp) hd (head?_dropWhile _ _) hm
  case isFalse hm => exact .outOfRange (by simp) hd (head?_dropWhile _ _) (Nat.lt_of_not_le hm)

-- A slash that opens no comment is followed by neither a slash nor a star.
theorem not_mem_pairs {c : Char} {text : List Char}
    (hs : splitBlanks (c :: text) = ([], c :: text))
    (hb : ∀ l, c = '/' → text = '*' :: l → False) (he : ∀ l, c = '=' → text = '=' :: l → False)
    (ha : ∀ l, c = '&' → text = '&' :: l → False) (ho : ∀ l, c = '|' → text = '|' :: l → False) :
    ∀ d ∈ text.head?, [c] ++ [d] ∉ pairs := by
  intro d hd hp
  obtain ⟨l, rfl⟩ := List.head?_eq_some_iff.mp hd
  simp only [pairs, List.singleton_append, List.mem_cons, List.cons.injEq, and_true,
    List.not_mem_nil, or_false] at hp
  rcases hp with ⟨hc, rfl⟩ | ⟨hc, rfl⟩ | ⟨hc, rfl⟩ | ⟨rfl, rfl⟩ | ⟨hc, rfl⟩
  case inl                     => exact he _ hc rfl
  case inr.inl                 => exact ha _ hc rfl
  case inr.inr.inl             => exact ho _ hc rfl
  case inr.inr.inr.inl         => rw [splitBlanks.eq_2] at hs; simp at hs
  case inr.inr.inr.inr         => exact hb _ hc rfl

theorem isLexeme_cutLexeme {text : List Char} (hs : splitBlanks text = ([], text)) (hn : text ≠ []) :
    IsLexeme (cutLexeme text).1.kind (cutLexeme text).1.text (cutLexeme text).2 := by
  cases text using cutLexeme_cases with
  | empty             => exact absurd rfl hn
  | comment text h    =>
    rw [h]
    cases hc : closeComment text with
    | none   => exact .unterminated (closeComment_eq_none hc)
    | some _ => rw [splitBlanks_comment hc] at hs; simp at hs
  | equal text h | and text h | or text h =>
    rw [h]
    exact .mark rfl (by simp [pairs])
  | integer c text hd h =>
    rw [h]
    exact isLexeme_integer hd text
  | word c text hd hl h =>
    rw [h]
    exact isLexeme_word hl text
  | mark c text hb he ha ho hd hl h =>
    rw [h]
    rcases mark?_of_markKind c with hm | hm
    case inl => exact .mark hm (not_mem_pairs hs hb he ha ho)
    case inr =>
      have hc : isSpace c = false := by
        cases hc : isSpace c with
        | false => rfl
        | true  => rw [splitBlanks_space hc] at hs; simp at hs
      rw [hm]
      refine .invalid hc hd hl fun kind hk => ?_
      rw [← markKind_eq hk, hm] at hk
      cases hk

-- No two characters that belong together stand at the start.
theorem splitBlanks_of_not_pair {c : Char} {text : List Char} (hc : isSpace c = false)
    (h : ∀ d ∈ text.head?, [c] ++ [d] ∉ pairs) : splitBlanks (c :: text) = ([], c :: text) := by
  have hs (d : Char) (hd : ['/', d] ∈ pairs) : ∀ l, c = '/' → text = d :: l → False := by
    rintro l rfl rfl
    exact h d rfl hd
  rw [splitBlanks.eq_4 c text (hs _ (by decide)) (hs _ (by decide)), hc]
  rfl

theorem cutLexeme_of_not_pair {c : Char} {text : List Char}
    (h : ∀ d ∈ text.head?, [c] ++ [d] ∉ pairs) :
    cutLexeme (c :: text) =
      if isDigit c then
        (⟨integerKind (c :: text.takeWhile isDigit), c :: text.takeWhile isDigit⟩,
          text.dropWhile isDigit)
      else if isLetter c then
        (⟨wordKind (String.ofList (c :: text.takeWhile isWordChar)), c :: text.takeWhile isWordChar⟩,
          text.dropWhile isWordChar)
      else (⟨markKind c, [c]⟩, text) := by
  have hs (b d : Char) (hd : [b, d] ∈ pairs) : ∀ l, c = b → text = d :: l → False := by
    rintro l rfl rfl
    exact h d rfl hd
  exact cutLexeme.eq_6 c text (hs _ _ (by decide)) (hs _ _ (by decide)) (hs _ _ (by decide))
    (hs _ _ (by decide))

theorem isSpace_of_isWordChar {c : Char} (h : isWordChar c = true) : isSpace c = false := by
  cases hs : isSpace c with
  | false => rfl
  | true  =>
    simp only [isSpace, Bool.or_eq_true, decide_eq_true_eq] at hs
    rcases hs with (((rfl | rfl) | rfl) | rfl) | rfl <;> simp [isWordChar, isLetter, isDigit] at h

theorem isWordChar_of_isSpace {c : Char} (h : isSpace c = true) : isWordChar c = false := by
  cases hw : isWordChar c with
  | false => rfl
  | true  => exact absurd h (by simp [isSpace_of_isWordChar hw])

theorem not_mem_pairs_of_isWordChar {c : Char} (h : isWordChar c = true) (d : Char) :
    [c] ++ [d] ∉ pairs := by
  have hn (b : Char) (hb : isWordChar b = false) : c ≠ b := fun hc => by simp_all
  simp [pairs, hn '=' (by decide), hn '&' (by decide), hn '|' (by decide), hn '/' (by decide)]

theorem mark?_cases {kind : TokenKind} {l : List Char} (h : kind.mark? = some l) :
    (∃ c, l = [c] ∧ isSpace c = false ∧ isDigit c = false ∧ isLetter c = false) ∨
    (∃ c, l = [c, c] ∧ ∀ rest, splitBlanks (c :: c :: rest) = ([], c :: c :: rest) ∧
      cutLexeme (c :: c :: rest) = (⟨kind, [c, c]⟩, rest)) := by
  have hp {c : Char} (hc : isSpace c = false) (hs : c ≠ '/') (text : List Char) :
      splitBlanks (c :: text) = ([], c :: text) := by
    rw [splitBlanks.eq_4 c text (fun _ h _ => hs h) (fun _ h _ => hs h), hc]
    rfl
  unfold TokenKind.mark? at h
  split at h
  case h_1 op =>
    cases op <;> cases h
    case equal => exact .inr ⟨'=', rfl, fun _ => ⟨hp (by decide) (by decide) _, rfl⟩⟩
    case and   => exact .inr ⟨'&', rfl, fun _ => ⟨hp (by decide) (by decide) _, rfl⟩⟩
    case or    => exact .inr ⟨'|', rfl, fun _ => ⟨hp (by decide) (by decide) _, rfl⟩⟩
    all_goals exact .inl ⟨_, rfl, by decide, by decide, by decide⟩
  case h_15 => cases h
  all_goals cases h; exact .inl ⟨_, rfl, by decide, by decide, by decide⟩

-- What is cut off a text and what is left.
structure Cut (kind : TokenKind) (lexeme rest : List Char) : Prop where
  ne_nil : lexeme ≠ []
  blanks : splitBlanks (lexeme ++ rest) = ([], lexeme ++ rest)
  cut    : cutLexeme (lexeme ++ rest) = (⟨kind, lexeme⟩, rest)

theorem cut_integer {l rest : List Char} (hn : l ≠ []) (hl : ∀ d ∈ l, isDigit d = true)
    (hr : ∀ d ∈ rest.head?, isDigit d = false) : Cut (integerKind l) l rest := by
  obtain ⟨c, l, rfl⟩ := List.exists_cons_of_ne_nil hn
  obtain ⟨hc, hl⟩ := List.forall_mem_cons.mp hl
  have hw : isWordChar c = true := by simp [isWordChar, hc]
  have hp := not_mem_pairs_of_isWordChar hw
  refine ⟨hn, splitBlanks_of_not_pair (isSpace_of_isWordChar hw) fun d _ => hp d, ?_⟩
  rw [List.cons_append, cutLexeme_of_not_pair fun d _ => hp d, if_pos hc, takeWhile_append_eq hl hr,
    dropWhile_append_eq hl hr]

theorem cut_word {c : Char} {l rest : List Char} (hc : isLetter c = true)
    (hl : ∀ d ∈ l, isWordChar d = true) (hr : ∀ d ∈ rest.head?, isWordChar d = false) :
    Cut (wordKind (String.ofList (c :: l))) (c :: l) rest := by
  have hw : isWordChar c = true := by simp [isWordChar, hc]
  have hp := not_mem_pairs_of_isWordChar hw
  refine ⟨by simp, splitBlanks_of_not_pair (isSpace_of_isWordChar hw) fun d _ => hp d, ?_⟩
  rw [List.cons_append, cutLexeme_of_not_pair fun d _ => hp d, isDigit_of_isLetter hc, if_pos hc,
    takeWhile_append_eq hl hr, dropWhile_append_eq hl hr]
  rfl

theorem cut_mark {c : Char} {rest : List Char} (hs : isSpace c = false) (hd : isDigit c = false)
    (hl : isLetter c = false) (h : ∀ d ∈ rest.head?, [c] ++ [d] ∉ pairs) :
    Cut (markKind c) [c] rest :=
  ⟨by simp, splitBlanks_of_not_pair hs h, by
    rw [List.singleton_append, cutLexeme_of_not_pair h, hd, hl]; rfl⟩

theorem IsLexeme.cut {kind : TokenKind} {lexeme rest : List Char} (h : IsLexeme kind lexeme rest) :
    Cut kind lexeme rest := by
  cases h with
  | word hw hc hl hr        => exact hw.wordKind_eq ▸ cut_word hc hl hr
  | integer hn hl hr hm     =>
    have hk : integerKind lexeme = .integer (Nat.ofDigitChars 10 lexeme 0) := by
      rw [integerKind, decimal_eq]
      exact if_pos hm
    exact hk ▸ cut_integer hn hl hr
  | outOfRange hn hl hr hm  =>
    have hk : integerKind lexeme = .malformed (.integerOutOfRange (String.ofList lexeme)) := by
      rw [integerKind, decimal_eq]
      exact if_neg (Nat.not_le.mpr hm)
    exact hk ▸ cut_integer hn hl hr
  | mark hm hr              =>
    rcases mark?_cases hm with ⟨c, rfl, hs, hd, hl⟩ | ⟨c, rfl, hc⟩
    case inl => exact markKind_eq hm ▸ cut_mark hs hd hl hr
    case inr => exact ⟨by simp, (hc rest).1, (hc rest).2⟩
  | @invalid c _ hs hd hl hm =>
    have hk : markKind c = .malformed (.invalidCharacter c) :=
      (mark?_of_markKind c).resolve_left (hm _)
    refine hk ▸ cut_mark hs hd hl fun d _ hp => ?_
    simp only [pairs, List.singleton_append, List.mem_cons, List.cons.injEq, and_true,
      List.not_mem_nil, or_false] at hp
    rcases hp with ⟨rfl, -⟩ | ⟨rfl, -⟩ | ⟨rfl, -⟩ | ⟨rfl, -⟩ | ⟨rfl, -⟩ <;> cases hk
  | @unterminated body hn   =>
    have hc := closeComment_eq_none_of_not_infix hn
    exact ⟨by simp, by simpa using splitBlanks_of_unclosed hc, by simp [cutLexeme_comment]⟩

end Lexeme

end MiniJava.Scan
