import MiniJava.Tree.ReadExpression

namespace MiniJava.Reading

def skipVariable (s : Cursor n) : Cursor n :=
  s.skipUntil fun
    | .semicolon | .comma | .rightParen => true
    | _ => false

def skipStatement (s : Cursor n) : Cursor n :=
  (s.skipThrough .semicolon).lift

def typeAfter (name : String) : Attempt n TypeRef := do
  if ← isAt .leftBracket then
    let _ ← take
    let _ ← expectKind .rightBracket
    return ⟨name, true⟩
  else return ⟨name, false⟩

def typeRef : Attempt n (TypeRef × Position) := do
  let ((name, _), position) ← expectType
  return (← typeAfter name, position)

def variableAfter (storage : Storage) (type : TypeRef) (position : Position) :
    Attempt n VariableDeclaration := do
  let (name, _) ← expectIdentifier
  return ⟨← freshId, name, type, storage, position⟩

-- A declaration up to its `;`, from behind the name of its type. It is missing if what stands
-- between them cannot be read.
def declarationAfter (storage : Storage) (typeName : String) (position : Position) :
    Attempt n (Option VariableDeclaration) := do
  let declaration ← recover skipVariable do
    variableAfter (n := n) storage (← typeAfter typeName) position
  let _ ← expectKind .semicolon
  return declaration

-- How a statement starts, told from three tokens at most.
inductive StatementStart
  | typed (name : String)
  | word (word : Keyword)
  | brace
  | named (type : TypeRef)
  | expression
deriving DecidableEq

def StatementStart.ofTokens (tokens : List Token) : StatementStart :=
  match (tokens.take 3).map Token.kind with
  | .typeName name _ :: _ => typed name
  | .keyword found :: _ => word found
  | .leftBrace :: _ => brace
  | .identifier name :: .leftBracket :: .rightBracket :: _ => named ⟨name, true⟩
  | .identifier name :: .identifier _ :: _ => named ⟨name, false⟩
  | _ => expression

def closeStatement (start : Position) (body : Attempt n Statement) : Step n Statement :=
  return (← recover skipStatement body).getD (.malformed start)

-- The rest of a statement that starts with a whole expression, from behind the token `t` after it:
-- an assignment, or a call that ends there.
def statementAfter (first : Expression) (t : Token) : Attempt n Statement := do
  match t.kind with
  | .assign =>
    let value ← expression n
    let _ ← expectKind .semicolon
    return .assign (← freshId) first value t.position
  | _ =>
    acceptToken (.token .semicolon) (ofKind .semicolon) t
    match first with
    | .call id receiver method arguments position =>
      return .call id receiver method arguments position
    | .malformed position => return .malformed position
    | other =>
      modify fun s => s.report (.notAStatement other.form) other.position
      return .malformed other.position

def expressionStatement (s : Cursor n) : Statement × Cursor (n - 1) :=
  let (first, afterFirst) := expression n s
  let (t, below) := afterFirst.next
  closeStatement s.head.position (statementAfter first t) below

def declarationStatement (typeName : String) (position : Position) : Attempt n Statement := do
  match ← declarationAfter .localSlot typeName position with
  | some declaration => return .declare declaration
  | none => return .malformed position

def namedDeclaration (type : TypeRef) (position : Position) : Attempt n Statement := do
  if type.isArray then
    let _ ← take
    let _ ← take
  let (name, _) ← expectIdentifier
  let _ ← expectKind .semicolon
  return .declare ⟨← freshId, name, type, .localSlot, position⟩

def condition (n : Nat) : Attempt n Expression := do
  let _ ← expectKind .leftParen
  let value ← expression n
  let _ ← expectKind .rightParen
  return value

-- A statement takes a token at least, if there is one. So the statements of a list are read below
-- one another, and nothing that is written wrong can stop the reading. The measure counts `4` for a
-- token and adds the rank of the function.
mutual

def statement (n : Nat) (s : Cursor n) : Statement × Cursor (n - 1) :=
  match n, s with
  | 0, s => expressionStatement s
  | n + 1, s =>
    let start := s.head.position
    match StatementStart.ofTokens s.tokens with
    | .typed name =>
      afterToken (fun t => closeStatement start (declarationStatement name t.position)) s
    | .word word => afterToken (fun t => closeStatement start (wordStatement n word t.position)) s
    | .brace => afterToken (fun t => closeStatement start (block n t.position)) s
    | .named type =>
      afterToken (fun t => closeStatement start (namedDeclaration type t.position)) s
    | .expression => expressionStatement s
termination_by 4 * n

def wordStatement (n : Nat) (word : Keyword) (position : Position) : Attempt n Statement := do
  match word with
  | .assertWord =>
    let value ← condition n
    let _ ← expectKind .semicolon
    return .assert (← freshId) value position
  | .ifWord =>
    let value ← condition n
    let onTrue ← below (statement n)
    if ← isAt (.keyword .elseWord) then
      let _ ← take
      let onFalse ← below (statement n)
      return .ifThenElse (← freshId) value onTrue onFalse position
    else return .ifThen (← freshId) value onTrue position
  | .whileWord =>
    let value ← condition n
    let body ← below (statement n)
    return .loop (← freshId) value body position
  | .systemWord =>
    let _ ← expectKind .dot
    let _ ← expectKeyword .outWord
    let _ ← expectKind .dot
    let _ ← expectKeyword .printlnWord
    let value ← condition n
    let _ ← expectKind .semicolon
    return .print (← freshId) value position
  | .returnWord =>
    let value ← expression n
    let _ ← expectKind .semicolon
    return .ret (← freshId) value position
  | other => giveUp (.statementKeyword other) position
termination_by 4 * n + 2

def block (n : Nat) (position : Position) : Attempt n Statement := do
  let body ← statementList n
  let _ ← expectKind .rightBrace
  return .block (← freshId) body position
termination_by 4 * n + 2

def statementList (n : Nat) : Step n (List Statement) :=
  match n with
  | 0 => return []
  | n + 1 => fun s =>
    if s.tokens.isEmpty || s.head.kind = .rightBrace then ([], s)
    else
      let (first, s) := statement (n + 1) s
      let (others, s) := statementList n s
      (first :: others, s.widen (Nat.le_succ n))
termination_by 4 * n + 1

end

end MiniJava.Reading
