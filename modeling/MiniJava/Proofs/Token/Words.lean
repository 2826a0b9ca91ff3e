import MiniJava.Token.Scan

namespace MiniJava

def TokenKind.Lexed : TokenKind → Prop
  | identifier name    => name ∉ builtinTypes ∧ Keyword.ofWord? name = none
  | typeName _ builtin => builtin = true
  | _                  => True

-- In a text all types that are told by their tokens are built in. In a list of tokens that is made
-- by hand, an identifier can also be spelled like a keyword or a built-in type.
def TokenKind.NamesBuiltin : TokenKind → Prop
  | typeName name _ => name ∈ builtinTypes
  | _               => True

namespace Scan

-- What holds of the kinds of lexemes holds of those of tokens.
theorem forall_stream {P : TokenKind → Prop} (h : ∀ text, P (cutLexeme text).1.kind) (c : Cursor) :
    ∀ t ∈ c.stream.tokens, P t.kind := by
  fun_induction Cursor.stream c with
  | case1                  => simp
  | case2 c _ following hi =>
    intro t ht
    rcases List.mem_cons.mp ht with rfl | ht
    case inl => exact h _
    case inr => exact hi t ht

theorem lexed_wordKind (word : String) : (wordKind word).Lexed := by
  unfold wordKind
  split
  case isTrue => rfl
  case isFalse hb =>
    split
    case h_1 => trivial
    case h_2 hk => exact ⟨hb, hk⟩

theorem lexed_markKind (c : Char) : (markKind c).Lexed := by
  unfold markKind
  split <;> trivial

theorem lexed_cutLexeme (text : List Char) : (cutLexeme text).1.kind.Lexed := by
  cases text using cutLexeme_cases with
  | empty h => rw [h]; trivial
  | comment rest h | equal rest h | and rest h | or rest h => rw [h]; trivial
  | integer c rest _ h =>
    rw [h]
    simp only [integerKind]
    split <;> trivial
  | word c rest _ _ h         => rw [h]; exact lexed_wordKind _
  | mark c rest _ _ _ _ _ _ h => rw [h]; exact lexed_markKind c

theorem lexed_stream (c : Cursor) : ∀ t ∈ c.stream.tokens, t.kind.Lexed :=
  forall_stream lexed_cutLexeme c

theorem namesBuiltin_cutLexeme (text : List Char) : (cutLexeme text).1.kind.NamesBuiltin := by
  have hword (word : String) : (wordKind word).NamesBuiltin := by
    unfold wordKind
    split
    case isTrue h => exact h
    case isFalse  => split <;> trivial
  cases text using cutLexeme_cases with
  | empty h => rw [h]; trivial
  | comment rest h | equal rest h | and rest h | or rest h => rw [h]; trivial
  | integer c rest _ h =>
    rw [h]
    simp only [integerKind]
    split <;> trivial
  | word c rest _ _ h => rw [h]; exact hword _
  | mark c rest _ _ _ _ _ _ h =>
    rw [h]
    unfold markKind
    split <;> trivial

end Scan

theorem TokenStream.lexed_ofText (text : String) : ∀ t ∈ (ofText text).tokens, t.kind.Lexed :=
  Scan.lexed_stream _

theorem TokenStream.namesBuiltin_ofText (text : String) :
    ∀ t ∈ (ofText text).tokens, t.kind.NamesBuiltin :=
  Scan.forall_stream Scan.namesBuiltin_cutLexeme _

end MiniJava
