import MiniJava.Diagnostic.Basic
import MiniJava.Proofs.Listing.Line
import MiniJava.Proofs.Token.Partition

namespace MiniJava

section

variable (P : String → Prop)

-- `P` holds of every word that comes from a text.

def LexicalError.Bears : LexicalError → Prop
  | invalidCharacter c       => P (String.singleton c)
  | integerOutOfRange digits => P digits
  | stated words             => P words
  | _                        => True

def TokenKind.Bears : TokenKind → Prop
  | identifier name | typeName name _ => P name
  | malformed error                   => error.Bears P
  | _                                 => True

def Expectation.Bears : Expectation → Prop
  | token kind     => kind.Bears P
  | namedType name => P name
  | _              => True

def SyntaxError.Bears : SyntaxError → Prop
  | unexpected expected found               => expected.Bears P ∧ found.Bears P
  | declarationStart found | termStart found => found.Bears P
  | _                                       => True

def StaticType.Bears : StaticType → Prop
  | object name   => P name
  | array element => element.Bears
  | _             => True

def SemanticError.Bears : SemanticError → Prop
  | duplicate _ name | unresolved _ name | cyclicInheritance name => P name
  | extendsBuiltin name superclass                                => P name ∧ P superclass
  | notIndexable type                                             => type.Bears P
  | notCallable method type                                       => P method ∧ type.Bears P
  | argumentCount method _ _                                      => P method
  | _                                                             => True

def Problem.Bears : Problem → Prop
  | lexical error     => error.Bears P
  | grammatical error => error.Bears P
  | semantic error    => error.Bears P
  | stated _ words    => P words

-- The place of a diagnostic is never left out.
structure Diagnostic.Bears (d : Diagnostic) : Prop where
  problem : d.problem.Bears P
  placed  : d.position.isSome

end

-- A message is one line if its words are, and the words of a text are: no lexeme that a token
-- quotes goes over the end of a line.
def OneLine (s : String) : Prop :=
  '\n' ∉ s.toList

namespace OneLine

theorem ofList {l : List Char} (h : '\n' ∉ l) : OneLine (String.ofList l) := by
  rwa [OneLine, String.toList_ofList]

-- A literal stands for its characters, and need not be decoded.
theorem literal {l : List Char} (h : l.contains '\n' = false) : OneLine (String.ofList l) :=
  .ofList (by simpa using h)

theorem append {s t : String} (hs : OneLine s) (ht : OneLine t) : OneLine (s ++ t) := by
  simpa [OneLine, not_or] using ⟨hs, ht⟩

theorem between {s : String} {before after : List Char} (hb : before.contains '\n' = false)
    (h : OneLine s) (ha : after.contains '\n' = false) :
    OneLine (String.ofList before ++ s ++ String.ofList after) :=
  .append (.append (.literal hb) h) (.literal ha)

theorem quoted {word : String} (h : OneLine word) : OneLine (TokenKind.quoted word) :=
  .between rfl h rfl

theorem toString_nat (n : Nat) : OneLine (toString n) :=
  Line.newline_notMem_repr n

theorem toString_int (i : Int) : OneLine (toString i) :=
  Line.newline_notMem_repr i

end OneLine

theorem LexicalError.oneLine_message {e : LexicalError} (h : e.Bears OneLine) :
    OneLine e.message := by
  cases e with
  | loneAmpersand | loneBar | unterminatedComment => exact .literal rfl
  | stated words                                  => exact h
  | invalidCharacter c                            => exact .between rfl h rfl
  | integerOutOfRange digits                      => exact .between rfl h rfl

theorem Keyword.oneLine_spelling (word : Keyword) : OneLine word.spelling := by
  cases word <;> exact .literal rfl

theorem TokenKind.oneLine_display {kind : TokenKind} (h : kind.Bears OneLine) :
    OneLine kind.display := by
  cases kind with
  | identifier name | typeName name _ => exact .append (.literal rfl) (.quoted h)
  | integer value                     =>
    exact .append (.literal rfl) (.quoted (.toString_int value))
  | keyword word                      => exact .quoted word.oneLine_spelling
  | operator op                       => cases op <;> exact .quoted (.literal rfl)
  | malformed _ | endOfInput          => exact .literal rfl
  | _                                 => exact .quoted (.literal rfl)

theorem Expectation.oneLine_display {e : Expectation} (h : e.Bears OneLine) :
    OneLine e.display := by
  cases e with
  | token kind         => exact TokenKind.oneLine_display h
  | namedType name     => exact .quoted h
  | identifier | aType => exact .literal rfl

theorem ExpressionForm.oneLine_describe (form : ExpressionForm) : OneLine form.describe := by
  cases form <;> exact .literal rfl

theorem SyntaxError.oneLine_message {e : SyntaxError} (h : e.Bears OneLine) :
    OneLine e.message := by
  cases e with
  | unexpected expected found =>
    have hexpected := Expectation.oneLine_display h.1
    exact .append (.between rfl hexpected rfl) (TokenKind.oneLine_display h.2)
  | declarationStart found | termStart found =>
    exact .between rfl (TokenKind.oneLine_display h) rfl
  | statementKeyword found | expressionKeyword found =>
    exact .between rfl (.quoted found.oneLine_spelling) rfl
  | notAStatement form => exact .append form.oneLine_describe (.literal rfl)

theorem StaticType.oneLine_display {τ : StaticType} (h : τ.Bears OneLine) : OneLine τ.display := by
  induction τ with
  | object name          => exact h
  | array element hi     => exact .append (hi h) (.literal rfl)
  | int | boolean | void => exact .literal rfl

theorem Entity.oneLine_word (entity : Entity) : OneLine entity.word := by
  cases entity <;> exact .literal rfl

theorem SlotUse.oneLine_words (use : SlotUse) : OneLine use.words := by
  cases use <;> exact .literal rfl

theorem SemanticError.oneLine_message {e : SemanticError} (h : e.Bears OneLine) :
    OneLine e.message := by
  cases e with
  | duplicate entity name | unresolved entity name =>
    exact .append (.between rfl entity.oneLine_word rfl) (.quoted h)
  | extendsBuiltin name superclass                 =>
    exact .append (.between rfl (.quoted h.1) rfl) (.quoted h.2)
  | cyclicInheritance name                         => exact .append (.literal rfl) (.quoted h)
  | slotsExhausted use                             =>
    refine .append (.append ?_ (.toString_nat maxSlot)) (.literal rfl)
    exact .between rfl use.oneLine_words rfl
  | cannotAssign form                              => exact .between rfl form.oneLine_describe rfl
  | thisInMain | lengthOfNonArray                  => exact .literal rfl
  | notIndexable type                              =>
    exact .append (.literal rfl) (.quoted (StaticType.oneLine_display h))
  | notCallable method type                        =>
    exact .append (.between rfl (.quoted h.1) rfl) (.quoted (StaticType.oneLine_display h.2))
  | argumentCount method parameters supplied       =>
    refine .append (.append (.append ?_ (.literal rfl)) (.toString_nat supplied)) (.literal rfl)
    exact .append (.between rfl (.quoted h) rfl) (.toString_nat parameters)

theorem Problem.oneLine_message {problem : Problem} (h : problem.Bears OneLine) :
    OneLine problem.message := by
  cases problem with
  | lexical error     => exact error.oneLine_message h
  | grammatical error => exact error.oneLine_message h
  | semantic error    => exact error.oneLine_message h
  | stated kind words => exact h

theorem TokenKind.bears_of_mark? {kind : TokenKind} (h : kind.mark? = some l) : kind.Bears P := by
  cases kind with
  | identifier | typeName => cases h
  | malformed error       =>
    cases error with
    | loneAmpersand | loneBar => trivial
    | _                       => cases h
  | _                     => trivial

namespace Scan

theorem IsWord.bears {kind : TokenKind} (h : IsWord kind word) (hw : P word) : kind.Bears P := by
  cases h with
  | keyword                   => trivial
  | typeName _ | identifier _ => exact hw

theorem oneLine_word {c : Char} {l : List Char} (hc : isLetter c = true)
    (hl : ∀ d ∈ l, isWordChar d = true) : OneLine (String.ofList (c :: l)) := by
  refine .ofList fun hm => ?_
  have hn : isWordChar '\n' = true := by
    cases List.mem_cons.mp hm with
    | inl he => rw [he, isWordChar, hc, Bool.true_or]
    | inr hm => exact hl _ hm
  exact absurd hn (by decide)

-- A line feed is a space, so it is never an invalid character.
theorem IsLexeme.oneLine {kind : TokenKind} {lexeme rest : List Char}
    (h : IsLexeme kind lexeme rest) : kind.Bears OneLine := by
  cases h with
  | word hw hc hl _     => exact hw.bears (oneLine_word hc hl)
  | integer             => trivial
  | outOfRange _ hl _ _ => exact .ofList fun hm => absurd (hl _ hm) (by decide)
  | mark hk _           => exact TokenKind.bears_of_mark? hk
  | invalid hs _ _ _    =>
    refine OneLine.ofList fun hm => ?_
    cases List.mem_singleton.mp hm
    cases hs
  | unterminated        => trivial

theorem Consists.oneLine {before text : List Char} {tokens : List Token} {stop : Position}
    (h : Consists before text tokens stop) : ∀ t ∈ tokens, t.kind.Bears OneLine := by
  induction h with
  | done             => exact nofun
  | cons _ _ hl _ hi => exact List.forall_mem_cons.mpr ⟨hl.oneLine, hi⟩

end Scan

theorem TokenStream.oneLine_ofText (text : String) :
    ∀ t ∈ (ofText text).tokens, t.kind.Bears OneLine :=
  (Scan.consists_ofText text).oneLine

end MiniJava
