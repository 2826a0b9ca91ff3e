import MiniJava.Proofs.Token.Partition

namespace MiniJava

namespace Scan

-- Letters and digits that can be a name.
def IsName (name : String) : Prop :=
  name.toList.head?.any isLetter ∧ name.toList.all isWordChar

-- Spaces, comments that a line feed ends and closed comments. Unlike blanks, they do not depend on
-- what follows them.
inductive IsLayout : List Char → Prop
  | nil     : IsLayout []
  | space   : isSpace c = true → IsLayout l → IsLayout (c :: l)
  | line    : '\n' ∉ body → IsLayout l → IsLayout ('/' :: '/' :: body ++ '\n' :: l)
  | comment : ¬['*', '/'] <:+: body → IsLayout l → IsLayout ('/' :: '*' :: body ++ '*' :: '/' :: l)

theorem IsLayout.blanks {layout : List Char} (h : IsLayout layout) (rest : List Char) :
    Blanks layout rest := by
  induction h with
  | nil          => exact .nil
  | space hc _ hi   => exact .space hc hi
  | line hn _ hi    => exact .line hn (by simp) (.space rfl hi)
  | comment hn _ hi => exact .comment hn hi

end Scan

open Scan Position

namespace TokenKind

-- How a token is written.
def spelling : TokenKind → List Char
  | identifier name | typeName name _ => name.toList
  | keyword word                      => word.spelling.toList
  | integer value                     => (toString value).toList
  | kind                              => kind.mark?.getD []

-- What is written as a token and is not read as another one.
def Writable : TokenKind → Prop
  | identifier name           =>
    IsName name ∧ name ∉ builtinTypes ∧ ∀ word : Keyword, word.spelling ≠ name
  | typeName name builtin     => name ∈ builtinTypes ∧ builtin = true
  | integer value             => 0 ≤ value ∧ value ≤ 2147483647
  | malformed _ | endOfInput  => False
  | _                         => True

end TokenKind

namespace Scan

theorem isName_keyword (word : Keyword) : IsName word.spelling := by
  cases word <;> exact ⟨by decide +kernel, by decide +kernel⟩

theorem isName_of_mem_builtinTypes {name : String} (h : name ∈ builtinTypes) : IsName name := by
  simp only [builtinTypes, List.mem_cons, List.not_mem_nil, or_false] at h
  rcases h with rfl | rfl | rfl <;> exact ⟨by decide +kernel, by decide +kernel⟩

variable {kind : TokenKind} {rest : List Char}

theorem isLexeme_name {name : String} (hw : IsWord kind name) (hn : IsName name)
    (hr : ∀ c ∈ rest.head?, isSpace c = true) : IsLexeme kind name.toList rest := by
  obtain ⟨hl, ha⟩ := hn
  have hw : IsWord kind (String.ofList name.toList) := by rwa [String.ofList_toList]
  cases hc : name.toList with
  | nil      => rw [hc] at hl; cases hl
  | cons c l =>
    rw [hc] at hl ha hw
    exact .word hw hl (fun d hd => List.all_eq_true.mp ha d (List.mem_cons_of_mem _ hd)) fun d hd =>
      isWordChar_of_isSpace (hr d hd)

theorem isLexeme_toString {n : Nat} (hn : n ≤ 2147483647)
    (hr : ∀ c ∈ rest.head?, isSpace c = true) :
    IsLexeme (.integer n) (toString (n : Int)).toList rest := by
  have hs : (toString (n : Int)).toList = Nat.toDigits 10 n := Nat.toList_repr
  have hv : Nat.ofDigitChars 10 (Nat.toDigits 10 n) 0 = n := Nat.ofDigitChars_ten_toDigits
  have hd : ∀ d ∈ Nat.toDigits 10 n, isDigit d = true := fun d hd => by
    simpa [isDigit, Char.isDigit, Char.le_def] using
      Nat.isDigit_of_mem_toDigits (by decide) (by decide) hd
  have he : ∀ d ∈ rest.head?, isDigit d = false := fun d hd =>
    (Bool.or_eq_false_iff.mp (isWordChar_of_isSpace (hr d hd))).2
  have hl := IsLexeme.integer Nat.toDigits_ne_nil hd he (by rwa [hv])
  rwa [hv, ← hs] at hl

theorem isLexeme_mark {l : List Char} (h : kind.mark? = some l)
    (hr : ∀ c ∈ rest.head?, isSpace c = true) : IsLexeme kind l rest := by
  refine .mark h fun d hd hp => ?_
  have hs : ∀ pair ∈ pairs, pair.getLast?.all (!isSpace ·) := by decide
  have hn := hs _ hp
  simp [hr d hd] at hn

theorem isLexeme_spelling (h : kind.Writable) (hr : ∀ c ∈ rest.head?, isSpace c = true) :
    IsLexeme kind kind.spelling rest := by
  cases kind
  case identifier name       => exact isLexeme_name (.identifier h.2.1 h.2.2) h.1 hr
  case keyword word          => exact isLexeme_name .keyword (isName_keyword word) hr
  case typeName name builtin =>
    obtain ⟨hn, rfl⟩ := h
    exact isLexeme_name (.typeName hn) (isName_of_mem_builtinTypes hn) hr
  case integer value         =>
    obtain ⟨hn, hm⟩ := h
    obtain ⟨n, rfl⟩ := Int.eq_ofNat_of_zero_le hn
    exact isLexeme_toString (by omega) hr
  case malformed             => exact h.elim
  case endOfInput            => exact h.elim
  all_goals exact isLexeme_mark rfl hr

end Scan

namespace TokenStream

-- Tokens, each with what is laid out behind it.
def written (items : List (TokenKind × List Char)) : List Char :=
  items.flatMap fun (kind, layout) => kind.spelling ++ layout

-- Where tokens stand that are written behind the text `before`.
def placed (before : List Char) : List (TokenKind × List Char) → List Token
  | []                      => []
  | (kind, layout) :: items =>
    ⟨kind, behind before⟩ :: placed (before ++ kind.spelling ++ layout) items

-- What is laid out between tokens starts with a space, as what is laid out behind the last one does
-- if there is anything.
inductive Spaced : List (TokenKind × List Char) → Prop
  | nil  : Spaced []
  | last : (∀ c ∈ layout.head?, isSpace c = true) → Spaced [(kind, layout)]
  | cons : isSpace c = true → Spaced items → Spaced ((kind, c :: layout) :: items)

variable {items : List (TokenKind × List Char)}

theorem consists_written (hk : ∀ item ∈ items, item.1.Writable) (hl : ∀ item ∈ items, IsLayout item.2)
    (hs : Spaced items) {layout : List Char} (h : IsLayout layout) (before : List Char) :
    Consists before (layout ++ written items) (placed (before ++ layout) items)
      (behind (before ++ (layout ++ written items))) := by
  induction items generalizing layout before with
  | nil             => simpa [written, placed] using Consists.done (h.blanks [])
  | cons item items hi =>
    obtain ⟨kind, next⟩ := item
    obtain ⟨hw, hk⟩ := List.forall_mem_cons.mp hk
    obtain ⟨hn, hl⟩ := List.forall_mem_cons.mp hl
    have hr : ∀ c ∈ (next ++ written items).head?, isSpace c = true := by
      cases hs with
      | last hc   => simpa [written] using hc
      | cons hc _ => simpa using hc
    have ht : Spaced items := by
      cases hs with
      | last      => exact .nil
      | cons _ ht => exact ht
    have hx := isLexeme_spelling hw hr
    have hm := Consists.cons (h.blanks _) hx.cut.ne_nil hx
      (hi hk hl ht hn (before ++ layout ++ kind.spelling))
    simpa [written, placed] using hm

-- Scanning undoes writing.
theorem toList_ofText_written (h : IsLayout layout) (hk : ∀ item ∈ items, item.1.Writable)
    (hl : ∀ item ∈ items, IsLayout item.2) (hs : Spaced items) :
    (ofText (String.ofList (layout ++ written items))).toList =
      placed layout items ++ [⟨.endOfInput, behind (layout ++ written items)⟩] := by
  have hc := (consists_written hk hl hs h []).stream_eq
  have hb : behind [] = start := rfl
  rw [List.nil_append, List.nil_append, hb] at hc
  rw [ofText, Cursor.ofText, String.toList_ofList, hc]
  rfl

theorem toList_ofText_written_conjunction :
    (ofText " /**/a \x0c&&\t//*\n10 ").toList =
      [⟨.identifier "a", ⟨1, 6⟩⟩, ⟨.operator .and, ⟨1, 9⟩⟩, ⟨.integer 10, ⟨2, 1⟩⟩,
        ⟨.endOfInput, ⟨2, 4⟩⟩] := by
  have hl : IsLayout [' ', '/', '*', '*', '/'] :=
    .space rfl (@IsLayout.comment [] [] (by decide) .nil)
  let items : List (TokenKind × List Char) :=
    [(.identifier "a", [' ', '\x0c']), (.operator .and, ['\t', '/', '/', '*', '\n']),
      (.integer 10, [' '])]
  have hk : ∀ item ∈ items, item.1.Writable := by
    have hn : (TokenKind.identifier "a").Writable :=
      ⟨⟨by decide +kernel, by decide +kernel⟩, by decide, fun word => by cases word <;> decide⟩
    have hi : (TokenKind.integer 10).Writable := ⟨by decide, by decide⟩
    simpa [items] using ⟨hn, trivial, hi⟩
  have hw : ∀ item ∈ items, IsLayout item.2 := by
    have ha : IsLayout [' ', '\x0c'] := .space rfl (.space rfl .nil)
    have hc : IsLayout ['\t', '/', '/', '*', '\n'] :=
      .space rfl (@IsLayout.line ['*'] [] (by decide) .nil)
    simpa [items] using ⟨ha, hc, .space rfl .nil⟩
  have hs : Spaced items := .cons rfl (.cons rfl (.last (by simp [isSpace])))
  have ht : [' ', '/', '*', '*', '/'] ++ written items =
      " /**/a \x0c&&\t//*\n10 ".toList := by decide +kernel
  have h := toList_ofText_written hl hk hw hs
  rw [ht, String.ofList_toList] at h
  rw [h]
  decide +kernel

end TokenStream

end MiniJava
