import MiniJava.Token.Scan

namespace MiniJava.Scan

-- Spaces, comments up to the end of a line and closed comments. A run of blanks and a lexeme are
-- told together with the text behind them, for they are as long as that text allows.
inductive Blanks : (blanks rest : List Char) → Prop
  | nil     : Blanks [] rest
  | space   : isSpace c = true → Blanks l rest → Blanks (c :: l) rest
  | line    :
    '\n' ∉ body → (∀ c ∈ (l ++ rest).head?, c = '\n') → Blanks l rest →
      Blanks ('/' :: '/' :: body ++ l) rest
  | comment :
    ¬['*', '/'] <:+: body → Blanks l rest → Blanks ('/' :: '*' :: body ++ '*' :: '/' :: l) rest

inductive IsWord : TokenKind → String → Prop
  | typeName   : name ∈ builtinTypes → IsWord (.typeName name true) name
  | keyword    : IsWord (.keyword word) word.spelling
  | identifier :
    name ∉ builtinTypes → (∀ word : Keyword, word.spelling ≠ name) → IsWord (.identifier name) name

end MiniJava.Scan

namespace MiniJava

-- Operators and punctuation, and what is a mark only together with another character.
def TokenKind.mark? : TokenKind → Option (List Char)
  | operator op               => some op.symbol.toList
  | not                       => some ['!']
  | assign                    => some ['=']
  | dot                       => some ['.']
  | leftParen                 => some ['(']
  | rightParen                => some [')']
  | leftBracket               => some ['[']
  | rightBracket              => some [']']
  | leftBrace                 => some ['\x7b']
  | rightBrace                => some ['\x7d']
  | semicolon                 => some [';']
  | comma                     => some [',']
  | malformed .loneAmpersand  => some ['&']
  | malformed .loneBar        => some ['|']
  | _                         => none

namespace Scan

-- What is never cut in two.
def pairs : List (List Char) :=
  [['=', '='], ['&', '&'], ['|', '|'], ['/', '/'], ['/', '*']]

inductive IsLexeme : TokenKind → (lexeme rest : List Char) → Prop
  | word :
    IsWord kind (String.ofList (c :: l)) → isLetter c = true → (∀ d ∈ l, isWordChar d = true) →
      (∀ d ∈ rest.head?, isWordChar d = false) → IsLexeme kind (c :: l) rest
  | integer :
    l ≠ [] → (∀ d ∈ l, isDigit d = true) → (∀ d ∈ rest.head?, isDigit d = false) →
      Nat.ofDigitChars 10 l 0 ≤ 2147483647 → IsLexeme (.integer (Nat.ofDigitChars 10 l 0)) l rest
  | outOfRange :
    l ≠ [] → (∀ d ∈ l, isDigit d = true) → (∀ d ∈ rest.head?, isDigit d = false) →
      2147483647 < Nat.ofDigitChars 10 l 0 →
      IsLexeme (.malformed (.integerOutOfRange (String.ofList l))) l rest
  | mark :
    kind.mark? = some l → (∀ d ∈ rest.head?, l ++ [d] ∉ pairs) → IsLexeme kind l rest
  | invalid :
    isSpace c = false → isDigit c = false → isLetter c = false →
      (∀ kind : TokenKind, kind.mark? ≠ some [c]) →
      IsLexeme (.malformed (.invalidCharacter c)) [c] rest
  | unterminated :
    ¬['*', '/'] <:+: body →
      IsLexeme (.malformed .unterminatedComment) ('/' :: '*' :: body) []

theorem isWord_wordKind (word : String) : IsWord (wordKind word) word := by
  unfold wordKind
  split
  case isTrue hb => exact .typeName hb
  case isFalse hb =>
    split
    case h_1 k hk =>
      have hs : k.spelling = word := by simpa using List.find?_some hk
      exact hs ▸ .keyword
    case h_2 hk =>
      refine .identifier hb fun k => ?_
      simpa using List.find?_eq_none.mp hk k k.mem_all

theorem IsWord.wordKind_eq {kind : TokenKind} {word : String} (h : IsWord kind word) :
    wordKind word = kind := by
  cases h
  case typeName hb => exact if_pos hb
  case keyword k => cases k <;> decide
  case identifier hb hk =>
    have hn : Keyword.ofWord? word = none := by simpa [Keyword.ofWord?] using fun k _ => hk k
    simp [wordKind, hb, hn]

theorem mark?_of_markKind (c : Char) :
    (markKind c).mark? = some [c] ∨ markKind c = .malformed (.invalidCharacter c) := by
  unfold markKind
  split <;> first | exact .inl rfl | exact .inr rfl

theorem markKind_eq {kind : TokenKind} {c : Char} (h : kind.mark? = some [c]) :
    markKind c = kind := by
  unfold TokenKind.mark? at h
  split at h
  case h_1 op => cases op <;> simp [BinaryOperator.symbol] at h <;> cases h <;> rfl
  all_goals cases h <;> rfl

-- A closing mark ends a comment at once.
theorem closeComment_append_close {body : List Char} (h : ¬['*', '/'] <:+: body)
    (rest : List Char) :
    closeComment (body ++ '*' :: '/' :: rest) = some (body ++ ['*', '/'], rest) := by
  induction body with
  | nil            => rfl
  | cons c body hi =>
    rw [List.infix_cons_iff, not_or] at h
    have hc (l : List Char) : c = '*' → body ++ '*' :: '/' :: rest = '/' :: l → False := by
      rintro rfl hl
      cases body with
      | nil         => simp at hl
      | cons d body => exact h.1 ⟨body, by simp_all⟩
    rw [List.cons_append, closeComment.eq_3 _ _ hc, hi h.2]
    rfl

theorem exists_of_closeComment {text body rest : List Char}
    (h : closeComment text = some (body, rest)) :
    ∃ inner, body = inner ++ ['*', '/'] ∧ ¬['*', '/'] <:+: inner := by
  fun_induction closeComment text generalizing body with
  | case1             => simp at h
  | case2             => cases h; exact ⟨[], rfl, by simp⟩
  | case3 c text hc hi =>
    obtain ⟨⟨body, _⟩, hb, he⟩ := Option.map_eq_some_iff.mp h
    cases he
    obtain ⟨inner, rfl, hn⟩ := hi hb
    refine ⟨c :: inner, rfl, ?_⟩
    rw [List.infix_cons_iff, not_or]
    refine ⟨?_, hn⟩
    rintro ⟨l, hl⟩
    obtain ⟨hs, rfl⟩ := List.cons.inj hl
    exact hc _ hs.symm (closeComment_append hb).symm

theorem closeComment_eq_none {text : List Char} (h : closeComment text = none) :
    ¬['*', '/'] <:+: text := by
  fun_induction closeComment text with
  | case1             => simp
  | case2             => simp at h
  | case3 c text hc hi =>
    rw [List.infix_cons_iff, not_or]
    refine ⟨?_, hi (by simpa using h)⟩
    rintro ⟨l, hl⟩
    obtain ⟨hs, ht⟩ := List.cons.inj hl
    exact hc _ hs.symm ht.symm

theorem closeComment_eq_none_of_not_infix {text : List Char} (h : ¬['*', '/'] <:+: text) :
    closeComment text = none := by
  cases hc : closeComment text with
  | none        => rfl
  | some closed =>
    obtain ⟨body, rest⟩ := closed
    obtain ⟨inner, rfl, -⟩ := exists_of_closeComment hc
    exact absurd ⟨inner, rest, closeComment_append hc⟩ h

end Scan

end MiniJava
