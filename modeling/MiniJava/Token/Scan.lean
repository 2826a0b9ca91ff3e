import MiniJava.Token.Basic

namespace MiniJava.Scan

def isSpace (c : Char) : Bool :=
  c = ' ' || c = '\t' || c = '\r' || c = '\x0c' || c = '\n'

def isDigit (c : Char) : Bool :=
  '0' ≤ c && c ≤ '9'

-- Whether a character can start a word. Only ASCII letters do.
def isLetter (c : Char) : Bool :=
  ('a' ≤ c && c ≤ 'z') || ('A' ≤ c && c ≤ 'Z') || c = '_'

def isWordChar (c : Char) : Bool :=
  isLetter c || isDigit c

-- What is left of a block comment, its closing mark included, and what follows the comment; `none`
-- if it is never closed.
def closeComment : List Char → Option (List Char × List Char)
  | [] => none
  | '*' :: '/' :: rest => some (['*', '/'], rest)
  | c :: rest => (closeComment rest).map fun (body, rest) => (c :: body, rest)

theorem closeComment_append {text body rest : List Char}
    (h : closeComment text = some (body, rest)) : body ++ rest = text := by
  fun_induction closeComment text generalizing body with
  | case1 => simp at h
  | case2 => grind
  | case3 c rest' _ ih =>
    obtain ⟨⟨body', rest''⟩, hc, he⟩ := Option.map_eq_some_iff.mp h
    cases he
    simp [ih hc]

-- The characters and closed comments that a text starts with and that belong to no token, and the
-- text after them.
def splitBlanks (text : List Char) : List Char × List Char :=
  match text with
  | [] => ([], [])
  | '/' :: '/' :: rest =>
    let line := rest.takeWhile (· ≠ '\n')
    let (blanks, rest) := splitBlanks (rest.dropWhile (· ≠ '\n'))
    ('/' :: '/' :: line ++ blanks, rest)
  | '/' :: '*' :: rest =>
    match _h : closeComment rest with
    | none => ([], '/' :: '*' :: rest)
    | some (body, after) =>
      let (blanks, rest) := splitBlanks after
      ('/' :: '*' :: body ++ blanks, rest)
  | c :: rest =>
    if isSpace c then
      let (blanks, rest) := splitBlanks rest
      (c :: blanks, rest)
    else ([], c :: rest)
termination_by text.length
decreasing_by
  · have := (rest.dropWhile_sublist fun c => decide (c ≠ '\n')).length_le
    simp_all
    omega
  · have := congrArg List.length (closeComment_append _h)
    simp at this ⊢
    omega
  · simp

theorem splitBlanks_append (text : List Char) :
    (splitBlanks text).1 ++ (splitBlanks text).2 = text := by
  fun_induction splitBlanks text with
  | case1 => rfl
  | case2 rest line blanks rest' h ih =>
    simp_all [line]
  | case3 => simp
  | case4 rest body after h blanks rest' hs ih =>
    simp_all [← closeComment_append h]
  | case5 c rest h₁ h₂ hc blanks rest' hs ih =>
    simp_all
  | case6 => simp

theorem isSpace_ne {c d : Char} (hc : isSpace c = true) (hd : isSpace d = false) : c ≠ d :=
  fun h => by simp_all

theorem splitBlanks_space {c : Char} (hc : isSpace c = true) (text : List Char) :
    splitBlanks (c :: text) = (c :: (splitBlanks text).1, (splitBlanks text).2) := by
  rw [splitBlanks.eq_4 c text (fun _ h _ => isSpace_ne hc (by decide) h)
    (fun _ h _ => isSpace_ne hc (by decide) h), if_pos hc]

-- A text is cut into blanks and lexemes. Scanning never fails, for a lexeme that is no token gives
-- a malformed one.
structure Lexeme where
  kind : TokenKind
  text : List Char

def decimal (digits : List Char) : Nat :=
  digits.foldl (fun value d => 10 * value + (d.toNat - '0'.toNat)) 0

def maxInteger : Nat := 2147483647

def integerKind (digits : List Char) : TokenKind :=
  if decimal digits ≤ maxInteger then .integer (decimal digits)
  else .malformed (.integerOutOfRange (String.ofList digits))

def wordKind (word : String) : TokenKind :=
  if word ∈ builtinTypes then .typeName word true
  else match Keyword.ofWord? word with
    | some keyword => .keyword keyword
    | none => .identifier word

def markKind : Char → TokenKind
  | '(' => .leftParen
  | ')' => .rightParen
  | '[' => .leftBracket
  | ']' => .rightBracket
  | '\x7b' => .leftBrace
  | '\x7d' => .rightBrace
  | ';' => .semicolon
  | ',' => .comma
  | '.' => .dot
  | '!' => .not
  | '+' => .operator .add
  | '-' => .operator .sub
  | '*' => .operator .mul
  | '/' => .operator .div
  | '%' => .operator .mod
  | '<' => .operator .less
  | '>' => .operator .greater
  | '=' => .assign
  | '&' => .malformed .loneAmpersand
  | '|' => .malformed .loneBar
  | c => .malformed (.invalidCharacter c)

-- The lexeme that a text without leading blanks starts with, and the text after it. An opened
-- comment here is one that is never closed.
def cutLexeme : List Char → Lexeme × List Char
  | [] => (⟨.endOfInput, []⟩, [])
  | '/' :: '*' :: rest => (⟨.malformed .unterminatedComment, '/' :: '*' :: rest⟩, [])
  | '=' :: '=' :: rest => (⟨.operator .equal, ['=', '=']⟩, rest)
  | '&' :: '&' :: rest => (⟨.operator .and, ['&', '&']⟩, rest)
  | '|' :: '|' :: rest => (⟨.operator .or, ['|', '|']⟩, rest)
  | c :: rest =>
    if isDigit c then
      let digits := c :: rest.takeWhile isDigit
      (⟨integerKind digits, digits⟩, rest.dropWhile isDigit)
    else if isLetter c then
      let word := c :: rest.takeWhile isWordChar
      (⟨wordKind (String.ofList word), word⟩, rest.dropWhile isWordChar)
    else (⟨markKind c, [c]⟩, rest)

-- What a text can start with.
theorem cutLexeme_cases {motive : List Char → Prop}
    (empty   : cutLexeme [] = (⟨.endOfInput, []⟩, []) → motive [])
    (comment : ∀ rest, cutLexeme ('/' :: '*' :: rest) =
      (⟨.malformed .unterminatedComment, '/' :: '*' :: rest⟩, []) → motive ('/' :: '*' :: rest))
    (equal   : ∀ rest, cutLexeme ('=' :: '=' :: rest) = (⟨.operator .equal, ['=', '=']⟩, rest) →
      motive ('=' :: '=' :: rest))
    (and     : ∀ rest, cutLexeme ('&' :: '&' :: rest) = (⟨.operator .and, ['&', '&']⟩, rest) →
      motive ('&' :: '&' :: rest))
    (or      : ∀ rest, cutLexeme ('|' :: '|' :: rest) = (⟨.operator .or, ['|', '|']⟩, rest) →
      motive ('|' :: '|' :: rest))
    (integer : ∀ c rest, isDigit c = true →
      cutLexeme (c :: rest) = (⟨integerKind (c :: rest.takeWhile isDigit),
        c :: rest.takeWhile isDigit⟩, rest.dropWhile isDigit) → motive (c :: rest))
    (word    : ∀ c rest, isDigit c = false → isLetter c = true →
      cutLexeme (c :: rest) = (⟨wordKind (.ofList (c :: rest.takeWhile isWordChar)),
        c :: rest.takeWhile isWordChar⟩, rest.dropWhile isWordChar) → motive (c :: rest))
    (mark    : ∀ c rest, (∀ l, c = '/' → rest = '*' :: l → False) →
      (∀ l, c = '=' → rest = '=' :: l → False) → (∀ l, c = '&' → rest = '&' :: l → False) →
      (∀ l, c = '|' → rest = '|' :: l → False) → isDigit c = false → isLetter c = false →
      cutLexeme (c :: rest) = (⟨markKind c, [c]⟩, rest) → motive (c :: rest))
    (text : List Char) : motive text := by
  fun_cases cutLexeme text
  case case1 => exact empty rfl
  case case2 rest => exact comment rest rfl
  case case3 rest => exact equal rest rfl
  case case4 rest => exact and rest rfl
  case case5 rest => exact or rest rfl
  case case6 c rest hb he ha ho hd _ =>
    exact integer c rest hd (by rw [cutLexeme.eq_6 c rest hb he ha ho, if_pos hd])
  case case7 c rest hb he ha ho hd hl _ =>
    exact word c rest (by simpa using hd) hl
      (by rw [cutLexeme.eq_6 c rest hb he ha ho, if_neg hd, if_pos hl])
  case case8 c rest hb he ha ho hd hl =>
    exact mark c rest hb he ha ho (by simpa using hd) (by simpa using hl)
      (by rw [cutLexeme.eq_6 c rest hb he ha ho, if_neg hd, if_neg hl])

theorem cutLexeme_comment (text : List Char) :
    cutLexeme ('/' :: '*' :: text) = (⟨.malformed .unterminatedComment, '/' :: '*' :: text⟩, []) := by
  rw [cutLexeme]

theorem cutLexeme_append (text : List Char) :
    (cutLexeme text).1.text ++ (cutLexeme text).2 = text := by
  cases text using cutLexeme_cases <;> simp [*]

theorem cutLexeme_text_ne_nil {text : List Char} (h : text ≠ []) :
    (cutLexeme text).1.text ≠ [] := by
  cases text using cutLexeme_cases <;> simp_all

structure Cursor where
  rest : List Char
  position : Position

namespace Cursor

def ofText (text : String) : Cursor :=
  ⟨text.toList, .start⟩

def next (c : Cursor) : Token × Cursor :=
  let (blanks, rest) := splitBlanks c.rest
  let start := c.position.advance blanks
  let (lexeme, rest) := cutLexeme rest
  (⟨lexeme.kind, start⟩, ⟨rest, start.advance lexeme.text⟩)

def take (c : Cursor) : (count : Nat) → List Token
  | 0 => []
  | count + 1 => c.next.1 :: c.next.2.take count

theorem next_rest_length_lt {c : Cursor} (h : (splitBlanks c.rest).2 ≠ []) :
    c.next.2.rest.length < c.rest.length := by
  have blanks := congrArg List.length (splitBlanks_append c.rest)
  have lexeme := congrArg List.length (cutLexeme_append (splitBlanks c.rest).2)
  have := List.length_pos_iff.mpr (cutLexeme_text_ne_nil h)
  simp only [List.length_append] at blanks lexeme
  simp only [next]
  omega

def stream (c : Cursor) : TokenStream :=
  if (splitBlanks c.rest).2 = [] then ⟨[], c.next.1.position⟩
  else
    let following := c.next.2.stream
    ⟨c.next.1 :: following.tokens, following.stop⟩
termination_by c.rest.length
decreasing_by exact next_rest_length_lt ‹_›

end Cursor

end Scan

def TokenStream.ofText (text : String) : TokenStream :=
  (Scan.Cursor.ofText text).stream

end MiniJava
