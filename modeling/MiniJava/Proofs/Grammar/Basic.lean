import MiniJava.Tree.Basic
import MiniJava.Token.Basic

namespace MiniJava.Grammar

-- The binary operators by how tightly they bind, the tightest first.
def tier : Nat → List BinaryOperator
  | 0 => [.mul, .div, .mod]
  | 1 => [.add, .sub]
  | 2 => [.less, .greater]
  | 3 => [.equal]
  | 4 => [.and]
  | 5 => [.or]
  | _ => []

theorem mem_tier {op : BinaryOperator} {k : Nat} :
    op ∈ tier k ↔ op.precedence + k = BinaryOperator.levels := by
  match k with
  | 0 | 1 | 2 | 3 | 4 | 5 => cases op <;> decide
  | k + 6 =>
    have := op.precedence_pos
    simp only [tier, List.not_mem_nil, BinaryOperator.levels, false_iff]
    omega

inductive NamesType (t : Token) (name : String) : Prop
  | identifier (h : t.kind = .identifier name)
  | typeName (h : t.kind = .typeName name builtin)

-- Of the two creations, that of an object is not for built-in types.
inductive NamesClass (t : Token) (name : String) : Prop
  | identifier (h : t.kind = .identifier name)
  | typeName (h : t.kind = .typeName name false)

mutual

-- A term is what an operator is applied to. Indexes and calls follow the term that they apply to,
-- so they group to the left. `IsTerm l e r` says that `l` starts with the tokens of a term, that
-- the tree of the term is `e` and that `r` follows it. The numbers of nodes are not the business of
-- the grammar: every rule leaves them open.
inductive IsTerm : List Token → Expression → List Token → Prop
  | self : t.kind = .keyword .thisWord → IsTerm (t :: r) (.self i t.position) r
  | yes : t.kind = .keyword .trueWord → IsTerm (t :: r) (.boolean i true t.position) r
  | no : t.kind = .keyword .falseWord → IsTerm (t :: r) (.boolean i false t.position) r
  | integer : t.kind = .integer value → IsTerm (t :: r) (.integer i value t.position) r
  | reference : t.kind = .identifier name → IsTerm (t :: r) (.reference i name t.position) r
  | parentheses :
    t.kind = .leftParen → IsLevel 6 l e (u :: r) → u.kind = .rightParen → IsTerm (t :: l) e r
  | newObject :
    t.kind = .keyword .newWord → NamesClass u name → v.kind = .leftParen → w.kind = .rightParen →
      IsTerm (t :: u :: v :: w :: r) (.newObject i name t.position) r
  | newArray :
    t.kind = .keyword .newWord → NamesType u name → v.kind = .leftBracket →
      IsLevel 6 l size (w :: r) → w.kind = .rightBracket →
      IsTerm (t :: u :: v :: l) (.newArray i name size t.position) r
  | index :
    IsTerm l array (t :: m) → t.kind = .leftBracket →
      IsLevel 6 m subscript (u :: r) → u.kind = .rightBracket →
      IsTerm l (.index i array subscript t.position) r
  | length :
    IsTerm l array (t :: u :: r) → t.kind = .dot → u.kind = .keyword .lengthWord →
      IsTerm l (.call i array "length" [] u.position) r
  | call :
    IsTerm l receiver (t :: u :: v :: m) → t.kind = .dot → u.kind = .identifier name →
      v.kind = .leftParen → IsArguments m arguments (w :: r) → w.kind = .rightParen →
      IsTerm l (.call i receiver name arguments u.position) r

-- `IsLevel k` is for the expressions of the `k` tightest levels of binary operators, which group
-- to the left. Negation is applied to one term.
inductive IsLevel : Nat → List Token → Expression → List Token → Prop
  | term : IsTerm l e r → IsLevel 0 l e r
  | not : t.kind = .not → IsTerm l e r → IsLevel 0 (t :: l) (.not i e t.position) r
  | tighter : IsLevel k l e r → IsLevel (k + 1) l e r
  | binary :
    IsLevel (k + 1) l left (t :: m) → t.kind = .operator op → op ∈ tier k →
      IsLevel k m right r → IsLevel (k + 1) l (.binary i op left right t.position) r

inductive IsArguments : List Token → List Expression → List Token → Prop
  | none : IsArguments r [] r
  | some : IsArgumentList l es r → IsArguments l es r

inductive IsArgumentList : List Token → List Expression → List Token → Prop
  | one : IsLevel 6 l e r → IsArgumentList l [e] r
  | more :
    IsLevel 6 l e (t :: m) → t.kind = .comma → IsArgumentList m es r →
      IsArgumentList l (e :: es) r

end

abbrev IsExpression := IsLevel 6

inductive IsType : List Token → TypeRef → List Token → Prop
  | plain : NamesType t name → IsType (t :: r) ⟨name, false⟩ r
  | array :
    NamesType t name → u.kind = .leftBracket → v.kind = .rightBracket →
      IsType (t :: u :: v :: r) ⟨name, true⟩ r

-- A type and a name.
inductive IsVariable (storage : Storage) : List Token → VariableDeclaration → List Token → Prop
  | intro :
    IsType (t :: l) type (u :: r) → u.kind = .identifier name →
      IsVariable storage (t :: l) ⟨i, name, type, storage, t.position⟩ r

inductive IsCondition : List Token → Expression → List Token → Prop
  | intro :
    t.kind = .leftParen → IsExpression l e (u :: r) → u.kind = .rightParen →
      IsCondition (t :: l) e r

mutual

-- Only a statement that is not `closed` may end in an `if` without `else`. What stands before an
-- `else` is closed, so the `else` belongs to the nearest `if` that is open.
inductive IsStatement : (closed : Bool) → List Token → Statement → List Token → Prop
  | declare :
    IsVariable .localSlot l declaration (t :: r) → t.kind = .semicolon →
      IsStatement closed l (.declare declaration) r
  | print :
    t.kind = .keyword .systemWord → u.kind = .dot → v.kind = .keyword .outWord → w.kind = .dot →
      x.kind = .keyword .printlnWord → IsCondition l e (y :: r) → y.kind = .semicolon →
      IsStatement closed (t :: u :: v :: w :: x :: l) (.print i e t.position) r
  | ret :
    t.kind = .keyword .returnWord → IsExpression l e (u :: r) → u.kind = .semicolon →
      IsStatement closed (t :: l) (.ret i e t.position) r
  | assert :
    t.kind = .keyword .assertWord → IsCondition l e (u :: r) → u.kind = .semicolon →
      IsStatement closed (t :: l) (.assert i e t.position) r
  | block :
    t.kind = .leftBrace → IsStatements l body (u :: r) → u.kind = .rightBrace →
      IsStatement closed (t :: l) (.block i body t.position) r
  | assign :
    (∀ word, t.kind ≠ .keyword word) → IsExpression (t :: l) target (u :: m) → u.kind = .assign →
      IsExpression m value (v :: r) → v.kind = .semicolon →
      IsStatement closed (t :: l) (.assign i target value u.position) r
  | call :
    (∀ word, t.kind ≠ .keyword word) →
      IsExpression (t :: l) (.call i receiver method arguments position) (u :: r) →
      u.kind = .semicolon →
      IsStatement closed (t :: l) (.call i receiver method arguments position) r
  | ifThen :
    t.kind = .keyword .ifWord → IsCondition l e m → IsStatement false m onTrue r →
      IsStatement false (t :: l) (.ifThen i e onTrue t.position) r
  | ifThenElse :
    t.kind = .keyword .ifWord → IsCondition l e m → IsStatement true m onTrue (u :: m') →
      u.kind = .keyword .elseWord → IsStatement closed m' onFalse r →
      IsStatement closed (t :: l) (.ifThenElse i e onTrue onFalse t.position) r
  | loop :
    t.kind = .keyword .whileWord → IsCondition l e m → IsStatement closed m body r →
      IsStatement closed (t :: l) (.loop i e body t.position) r

inductive IsStatements : List Token → List Statement → List Token → Prop
  | nil : IsStatements r [] r
  | cons : IsStatement false l s m → IsStatements m ss r → IsStatements l (s :: ss) r

end

inductive IsParameters : List Token → List VariableDeclaration → List Token → Prop
  | one : IsVariable .formal l d r → IsParameters l [d] r
  | more :
    IsVariable .formal l d (t :: m) → t.kind = .comma → IsParameters m ds r →
      IsParameters l (d :: ds) r

inductive IsSignature : List Token → List VariableDeclaration → List Token → Prop
  | none : t.kind = .leftParen → u.kind = .rightParen → IsSignature (t :: u :: r) [] r
  | some :
    t.kind = .leftParen → IsParameters l ds (u :: r) → u.kind = .rightParen →
      IsSignature (t :: l) ds r

inductive IsBody : List Token → List Statement → List Token → Prop
  | intro :
    t.kind = .leftBrace → IsStatements l ss (u :: r) → u.kind = .rightBrace → IsBody (t :: l) ss r

inductive IsMember : List Token → Member → List Token → Prop
  | field :
    IsVariable .field l declaration (t :: r) → t.kind = .semicolon →
      IsMember l (.field declaration) r
  | method :
    t.kind = .keyword .publicWord → IsType l type (u :: m) → u.kind = .identifier name →
      IsSignature m parameters m' → IsBody m' body r →
      IsMember (t :: l) (.method ⟨i, name, type, parameters, body, t.position⟩) r

inductive IsMembers : List Token → List Member → List Token → Prop
  | nil : IsMembers r [] r
  | cons : IsMember l d m → IsMembers m ds r → IsMembers l (d :: ds) r

inductive IsSuperclass : List Token → Option String → List Token → Prop
  | none : IsSuperclass r none r
  | some :
    t.kind = .keyword .extendsWord → u.kind = .identifier name →
      IsSuperclass (t :: u :: r) (some name) r

inductive IsClass : List Token → ClassDeclaration → List Token → Prop
  | intro :
    t.kind = .keyword .classWord → u.kind = .identifier name → IsSuperclass l parent (v :: m) →
      v.kind = .leftBrace → IsMembers m members (w :: r) → w.kind = .rightBrace →
      IsClass (t :: u :: l) ⟨i, name, parent, members, t.position⟩ r

inductive IsClasses : List Token → List ClassDeclaration → Prop
  | nil : IsClasses [] []
  | cons : IsClass l c m → IsClasses m cs → IsClasses l (c :: cs)

-- `class Id { public static void main ( ) { .. } }`
inductive IsMainClass : List Token → MainClass → List Token → Prop
  | intro :
    t₁.kind = .keyword .classWord → t₂.kind = .identifier name → t₃.kind = .leftBrace →
      t₄.kind = .keyword .publicWord → t₅.kind = .keyword .staticWord →
      t₆.kind = .typeName "void" builtin → t₇.kind = .keyword .mainWord →
      t₈.kind = .leftParen → t₉.kind = .rightParen → IsBody l body (u :: r) →
      u.kind = .rightBrace →
      IsMainClass (t₁ :: t₂ :: t₃ :: t₄ :: t₅ :: t₆ :: t₇ :: t₈ :: t₉ :: l)
        ⟨i, name, body, t₁.position⟩ r

inductive IsProgram : List Token → Program → Prop
  | intro : IsMainClass l main m → IsClasses m classes → IsProgram l ⟨main, classes⟩

end MiniJava.Grammar
