import Mathlib.Data.List.TakeWhile
import Mathlib.Logic.Equiv.Basic
import MiniJava.Proofs.Token.Words
import MiniJava.Diagnostic.Basic
import MiniJava.Tree.Basic

namespace MiniJava

-- Whether the scanner reads a word as one identifier.
def isIdentifier (word : String) : Bool :=
  (Scan.cutLexeme word.toList).1.kind = .identifier word && (Scan.cutLexeme word.toList).2.isEmpty

namespace Scan

theorem wordKind_eq_identifier (h : wordKind word = .identifier name) : name = word := by
  unfold wordKind at h
  split at h
  case isTrue  => cases h
  case isFalse =>
    split at h
    case h_1 => cases h
    case h_2 => exact (TokenKind.identifier.inj h).symm

theorem markKind_ne_identifier (c : Char) : markKind c ≠ .identifier name := by
  unfold markKind
  split <;> simp

-- An identifier is a word of the text.
theorem exists_word_of_identifier (h : (cutLexeme text).1.kind = .identifier name) :
    ∃ (c : Char) (rest : List Char), isDigit c = false ∧ isLetter c = true ∧
      name = .ofList (c :: rest.takeWhile isWordChar) ∧ wordKind name = .identifier name := by
  cases text using cutLexeme_cases with
  | empty hc => rw [hc] at h; cases h
  | comment rest hc | equal rest hc | and rest hc | or rest hc => rw [hc] at h; cases h
  | integer c rest _ hc =>
    rw [hc] at h
    simp only [integerKind] at h
    split at h <;> cases h
  | word c rest hd hl hc =>
    rw [hc] at h
    obtain rfl := wordKind_eq_identifier h
    exact ⟨c, rest, hd, hl, rfl, h⟩
  | mark c rest _ _ _ _ _ _ hc =>
    rw [hc] at h
    exact absurd h (markKind_ne_identifier c)

-- What the scanner takes for an identifier is read as that identifier also when it stands alone.
theorem isIdentifier_of_cutLexeme (h : (cutLexeme text).1.kind = .identifier name) :
    isIdentifier name = true := by
  obtain ⟨c, rest, hd, hl, rfl, hk⟩ := exists_word_of_identifier h
  have hne {c'} (hc' : isLetter c' = false) : c ≠ c' := fun he => by simp [← he, hl] at hc'
  have hcut : cutLexeme (c :: rest.takeWhile isWordChar) =
      (⟨.identifier (.ofList (c :: rest.takeWhile isWordChar)),
        c :: rest.takeWhile isWordChar⟩, []) := by
    rw [cutLexeme]
    · have hrest : (rest.takeWhile isWordChar).dropWhile isWordChar = [] :=
        List.dropWhile_eq_nil_iff.mpr fun _ => List.mem_takeWhile_imp
      simp only [hd, hl, if_true, List.takeWhile_idem, hrest, Bool.false_eq_true, if_false]
      exact Prod.ext (by rw [← hk]) rfl
    all_goals exact fun _ he _ => hne rfl he
  simp [isIdentifier, hcut]

end Scan

theorem TokenStream.isIdentifier_of_ofText {t : Token} (ht : t ∈ (ofText text).tokens)
    (hk : t.kind = .identifier name) : isIdentifier name = true :=
  Scan.forall_stream (P := fun k => k = .identifier name → isIdentifier name = true)
    (fun _ => Scan.isIdentifier_of_cutLexeme) _ t ht hk

-- Another identifier for each identifier.
structure Renaming where
  map        : String → String
  identifier : isIdentifier name = true → isIdentifier (map name) = true
  injective  : isIdentifier a = true → isIdentifier b = true → map a = map b → a = b

namespace Renaming

variable {r : Renaming}

-- What is no identifier stays.
def name (r : Renaming) (word : String) : String :=
  if isIdentifier word = true then r.map word else word

theorem isIdentifier_name : isIdentifier (r.name word) = isIdentifier word := by
  unfold name
  split
  case isTrue h => rw [h, r.identifier h]
  case isFalse  => rfl

theorem name_injective : Function.Injective r.name := by
  intro a b h
  have hi : isIdentifier a = isIdentifier b := by
    rw [← isIdentifier_name (r := r), h, isIdentifier_name]
  unfold name at h
  rw [hi] at h
  split at h
  case isTrue hb => exact r.injective (hi.trans hb) hb h
  case isFalse   => exact h

theorem name_of_not (h : isIdentifier word = false) : r.name word = word :=
  if_neg (by simp [h])

theorem name_eq_iff (h : isIdentifier word = false) : r.name other = word ↔ other = word := by
  conv => lhs; rw [← name_of_not (r := r) h, name_injective.eq_iff]

theorem not_isIdentifier_of_builtin : ∀ word ∈ builtinTypes, isIdentifier word = false := by
  decide +kernel

theorem not_isIdentifier_spelling (k : Keyword) : isIdentifier k.spelling = false := by
  cases k <;> decide +kernel

theorem name_length : r.name "length" = "length" :=
  name_of_not (not_isIdentifier_spelling .lengthWord)

theorem name_main : r.name "main" = "main" :=
  name_of_not (not_isIdentifier_spelling .mainWord)

-- Two identifiers change places.
def swap (ha : isIdentifier a = true) (hb : isIdentifier b = true) : Renaming where
  map                 := Equiv.swap a b
  identifier h        := by
    rw [Equiv.swap_apply_def]
    split_ifs <;> assumption
  injective _ _ h     := (Equiv.swap a b).injective h

end Renaming

def StaticType.rename (r : String → String) : StaticType → StaticType
  | .int           => .int
  | .boolean       => .boolean
  | .void          => .void
  | .object name   => .object (r name)
  | .array element => .array (element.rename r)

@[simp]
theorem StaticType.rename_id (τ : StaticType) : τ.rename id = τ := by
  induction τ with
  | array τ hi => rw [rename, hi]
  | _          => rfl

theorem StaticType.rename_eq_void : StaticType.rename r τ = .void ↔ τ = .void := by
  cases τ <;> simp [rename]

theorem StaticType.exists_of_rename_eq_array (h : StaticType.rename r τ = .array υ) :
    ∃ υ', τ = .array υ' := by
  cases τ with
  | array τ => exact ⟨τ, rfl⟩
  | _       => cases h

theorem StaticType.isIntegral_rename (r : String → String) (τ : StaticType) :
    (τ.rename r).isIntegral = τ.isIntegral := by
  cases τ <;> rfl

variable (r : Renaming)

def TokenKind.rename : TokenKind → TokenKind
  | identifier name => identifier (r.name name)
  | kind            => kind

def Token.rename (t : Token) : Token :=
  ⟨t.kind.rename r, t.position⟩

def TokenStream.rename (s : TokenStream) : TokenStream :=
  ⟨s.tokens.map (·.rename r), s.stop⟩

def TypeRef.rename (type : TypeRef) : TypeRef :=
  ⟨r.name type.name, type.isArray⟩

def VariableDeclaration.rename (d : VariableDeclaration) : VariableDeclaration :=
  { d with
    name := r.name d.name
    type := d.type.rename r }

mutual

def Expression.rename : Expression → Expression
  | .call i receiver name arguments p => .call i receiver.rename (r.name name) (renameAll arguments) p
  | .newObject i name p               => .newObject i (r.name name) p
  | .newArray i name size p           => .newArray i (r.name name) size.rename p
  | .not i operand p                  => .not i operand.rename p
  | .binary i op left right p         => .binary i op left.rename right.rename p
  | .boolean i value p                => .boolean i value p
  | .integer i value p                => .integer i value p
  | .self i p                         => .self i p
  | .index i array subscript p        => .index i array.rename subscript.rename p
  | .reference i name p               => .reference i (r.name name) p
  | .malformed p                      => .malformed p

def Expression.renameAll : List Expression → List Expression
  | []      => []
  | e :: es => e.rename :: renameAll es

end

mutual

def Statement.rename : Statement → Statement
  | .declare d                        => .declare (d.rename r)
  | .print i e p                      => .print i (e.rename r) p
  | .ret i e p                        => .ret i (e.rename r) p
  | .assert i e p                     => .assert i (e.rename r) p
  | .block i body p                   => .block i (renameAll body) p
  | .assign i target value p          => .assign i (target.rename r) (value.rename r) p
  | .ifThen i e onTrue p              => .ifThen i (e.rename r) onTrue.rename p
  | .ifThenElse i e onTrue onFalse p  => .ifThenElse i (e.rename r) onTrue.rename onFalse.rename p
  | .loop i e body p                  => .loop i (e.rename r) body.rename p
  | .call i receiver name arguments p =>
    .call i (receiver.rename r) (r.name name) (Expression.renameAll r arguments) p
  | .malformed p                      => .malformed p

def Statement.renameAll : List Statement → List Statement
  | []      => []
  | s :: ss => s.rename :: renameAll ss

end

def MethodDeclaration.rename (m : MethodDeclaration) : MethodDeclaration :=
  { m with
    name       := r.name m.name
    returns    := m.returns.rename r
    parameters := m.parameters.map (·.rename r)
    body       := Statement.renameAll r m.body }

def Member.rename : Member → Member
  | field d     => field (d.rename r)
  | method m    => method (m.rename r)
  | malformed p => malformed p

def ClassDeclaration.rename (c : ClassDeclaration) : ClassDeclaration :=
  { c with
    name       := r.name c.name
    superclass := c.superclass.map r.name
    members    := c.members.map (·.rename r) }

def MainClass.rename (c : MainClass) : MainClass :=
  { c with
    name := r.name c.name
    body := Statement.renameAll r c.body }

def Program.rename (p : Program) : Program :=
  ⟨p.mainClass.map (·.rename r), p.classes.map (·.rename r)⟩

-- What is expected is told by the grammar and names no identifier.
def SyntaxError.rename : SyntaxError → SyntaxError
  | unexpected expected found => unexpected expected (found.rename r)
  | declarationStart found    => declarationStart (found.rename r)
  | termStart found           => termStart (found.rename r)
  | error                     => error

def SemanticError.rename : SemanticError → SemanticError
  | duplicate entity name                    => duplicate entity (r.name name)
  | unresolved entity name                   => unresolved entity (r.name name)
  | extendsBuiltin name superclass           => extendsBuiltin (r.name name) (r.name superclass)
  | cyclicInheritance name                   => cyclicInheritance (r.name name)
  | notIndexable type                        => notIndexable (type.rename r.name)
  | notCallable method type                  => notCallable (r.name method) (type.rename r.name)
  | argumentCount method parameters supplied => argumentCount (r.name method) parameters supplied
  | error                                    => error

def Problem.rename : Problem → Problem
  | grammatical error => grammatical (error.rename r)
  | semantic error    => semantic (error.rename r)
  | problem           => problem

def Diagnostic.rename (d : Diagnostic) : Diagnostic :=
  ⟨d.problem.rename r, d.position⟩

end MiniJava
