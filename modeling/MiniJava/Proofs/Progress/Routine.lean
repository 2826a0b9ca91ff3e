import MiniJava.Proofs.Reading.Passage
import MiniJava.Tree.ReadProgram

namespace MiniJava.Reading

-- The readers proper recurse below a bound on the tokens to come. A routine knows no bound: it
-- takes any input, and nothing in it says that its calls return. A loop is a routine whose rounds
-- are calls of its own.
inductive Routine
  | program
  | classList
  | classDeclaration
  | memberList
  | member
  | parameterList
  | statementList
  | statement
  | wordStatement (word : Keyword) (position : Position)
  | block (position : Position)
  | expression
  -- An expression of the `k` tightest levels of operators.
  | chain (k : Nat)
  -- The rounds of a chain behind its first operand.
  | chainRest (k : Nat) (left : Expression)
  | unary
  | term
  | termTail (inner : Expression)
  | invocation (receiver : Expression)
  | argumentList
  | creation (position : Position)
  | skip (stop : TokenKind → Bool)

@[reducible]
def Routine.Value : Routine → Type
  | program => Program
  | classList => List ClassDeclaration
  | classDeclaration => Option ClassDeclaration
  | memberList => List Member
  | member => Member
  | parameterList => List VariableDeclaration
  | statementList => List Statement
  | statement | wordStatement .. | block _ => Statement
  | argumentList => List Expression
  | expression | chain _ | chainRest .. | unary | term | termTail _ | invocation _ | creation _ =>
    Expression
  | skip _ => Unit

abbrev Outcome (α : Type) := Except Mismatch α × Input

-- A computation that waits for the outcomes of the calls that it makes.
inductive Calls (α : Type)
  | done (a : α)
  | call (p : Routine) (s : Input) (next : Outcome p.Value → Calls α)

def Calls.bind : Calls α → (α → Calls β) → Calls β
  | done a, f => f a
  | call p s next, f => call p s fun r => (next r).bind f

def Reader (α : Type) := Input → Calls (Outcome α)

def atEnd : Attempt n Bool :=
  return (← get).tokens.isEmpty

def atClose : Attempt n Bool :=
  return (← get).tokens.isEmpty || (← get).head.kind = .rightBrace

def statementStart : Attempt n StatementStart :=
  return .ofTokens (← get).tokens

namespace Reader

def handle (t : Reader α) (f : Except Mismatch α → Reader β) : Reader β :=
  fun s => (t s).bind fun r => f r.1 r.2

instance : Monad Reader where
  pure a := fun s => .done (.ok a, s)
  bind t f := t.handle fun
    | .ok a => f a
    | .error m => fun s => .done (.error m, s)

def of (e : {n : Nat} → Attempt n α) : Reader α := fun s =>
  let r := ExceptT.run e (⟨s, Nat.le_refl _⟩ : Cursor s.tokens.length)
  .done (r.1, r.2.toInput)

def call (p : Routine) : Reader p.Value :=
  fun s => .call p s .done

def report (error : SyntaxError) (position : Position) : Reader Unit :=
  fun s => .done (.ok (), s.report error position)

def recover (sync : Reader Unit) (body : Reader α) : Reader (Option α) :=
  body.handle fun
    | .ok a => return some a
    | .error .reported => do
      sync
      return none
    | .error (.because error position) => do
      report error position
      sync
      return none

def endsExpression : TokenKind → Bool
  | .semicolon | .rightParen => true
  | _ => false

def endsTerm : TokenKind → Bool
  | .semicolon | .rightParen | .operator _ => true
  | _ => false

def endsVariable : TokenKind → Bool
  | .semicolon | .comma | .rightParen => true
  | _ => false

def skipThrough (last : TokenKind) : Reader Unit := do
  call (.skip (· = last))
  let _ ← of take

def skipClass : Reader Unit :=
  call (.skip (· = .keyword .classWord))

def termBody : Reader Expression := do
  let t ← of head
  match t.kind with
  | .keyword .newWord =>
    let t ← of take
    call (.termTail (← call (.creation t.position)))
  | .keyword .thisWord =>
    let t ← of take
    call (.termTail (.self (← of freshId) t.position))
  | .keyword .trueWord =>
    let t ← of take
    call (.termTail (.boolean (← of freshId) true t.position))
  | .keyword .falseWord =>
    let t ← of take
    call (.termTail (.boolean (← of freshId) false t.position))
  | .identifier name =>
    let t ← of take
    call (.termTail (.reference (← of freshId) name t.position))
  | .integer value =>
    let t ← of take
    call (.termTail (.integer (← of freshId) value t.position))
  | .leftParen =>
    let _ ← of take
    let inner ← call .expression
    let _ ← of (expectKind .rightParen)
    call (.termTail inner)
  | .malformed _ =>
    let _ ← of take
    of (throw .reported)
  | _ => of (noTerm t)

def invocation (receiver : Expression) : Reader Expression := do
  match (← of head).kind with
  | .keyword _ =>
    let position ← of (expectKeyword .lengthWord)
    return .call (← of freshId) receiver Keyword.lengthWord.spelling [] position
  | _ =>
    let (method, position) ← of expectIdentifier
    let _ ← of (expectKind .leftParen)
    let arguments ← if ← of (isAt .rightParen) then pure [] else call .argumentList
    let _ ← of (expectKind .rightParen)
    return .call (← of freshId) receiver method arguments position

def creation (position : Position) : Reader Expression := do
  let ((typeName, builtin), _) ← of expectType
  if builtin || !(← of (isAt .leftParen)) then
    let _ ← of (expectKind .leftBracket)
    let size ← call .expression
    let _ ← of (expectKind .rightBracket)
    return .newArray (← of freshId) typeName size position
  else
    let _ ← of (expectKind .leftParen)
    let _ ← of (expectKind .rightParen)
    return .newObject (← of freshId) typeName position

def declarationAfter (storage : Storage) (typeName : String) (position : Position) :
    Reader (Option VariableDeclaration) := do
  let declaration ← recover (call (.skip endsVariable)) <| of do
    variableAfter storage (← typeAfter typeName) position
  let _ ← of (expectKind .semicolon)
  return declaration

def closeStatement (start : Position) (body : Reader Statement) : Reader Statement :=
  return (← recover (skipThrough .semicolon) body).getD (.malformed start)

def declarationStatement (typeName : String) (position : Position) : Reader Statement := do
  match ← declarationAfter .localSlot typeName position with
  | some declaration => return .declare declaration
  | none => return .malformed position

def condition : Reader Expression := do
  let _ ← of (expectKind .leftParen)
  let value ← call .expression
  let _ ← of (expectKind .rightParen)
  return value

def statementAfter (first : Expression) (t : Token) : Reader Statement := do
  match t.kind with
  | .assign =>
    let value ← call .expression
    let _ ← of (expectKind .semicolon)
    return .assign (← of freshId) first value t.position
  | _ =>
    of (acceptToken (.token .semicolon) (ofKind .semicolon) t)
    match first with
    | .call id receiver method arguments position =>
      return .call id receiver method arguments position
    | .malformed position => return .malformed position
    | other =>
      report (.notAStatement other.form) other.position
      return .malformed other.position

def wordStatement (word : Keyword) (position : Position) : Reader Statement := do
  match word with
  | .assertWord =>
    let value ← condition
    let _ ← of (expectKind .semicolon)
    return .assert (← of freshId) value position
  | .ifWord =>
    let value ← condition
    let onTrue ← call .statement
    if ← of (isAt (.keyword .elseWord)) then
      let _ ← of take
      let onFalse ← call .statement
      return .ifThenElse (← of freshId) value onTrue onFalse position
    else return .ifThen (← of freshId) value onTrue position
  | .whileWord =>
    let value ← condition
    let body ← call .statement
    return .loop (← of freshId) value body position
  | .systemWord =>
    let _ ← of (expectKind .dot)
    let _ ← of (expectKeyword .outWord)
    let _ ← of (expectKind .dot)
    let _ ← of (expectKeyword .printlnWord)
    let value ← condition
    let _ ← of (expectKind .semicolon)
    return .print (← of freshId) value position
  | .returnWord =>
    let value ← call .expression
    let _ ← of (expectKind .semicolon)
    return .ret (← of freshId) value position
  | other => of (giveUp (.statementKeyword other) position)

def statement (start : Position) : StatementStart → Reader Statement
  | .typed name => do
    let t ← of take
    closeStatement start (declarationStatement name t.position)
  | .word word => do
    let t ← of take
    closeStatement start (call (.wordStatement word t.position))
  | .brace => do
    let t ← of take
    closeStatement start (call (.block t.position))
  | .named type => do
    let t ← of take
    closeStatement start (of (namedDeclaration type t.position))
  | .expression => do
    let first ← call .expression
    let t ← of take
    closeStatement start (statementAfter first t)

def parameter : Reader (Option VariableDeclaration) :=
  recover (call (.skip endsVariable)) <| of do
    let (type, position) ← typeRef
    variableAfter .formal type position

def method (t : Token) : Reader Member := do
  of (acceptToken (.token (.keyword .publicWord)) (ofKind (.keyword .publicWord)) t)
  let (returns, _) ← of typeRef
  let (name, _) ← of expectIdentifier
  let _ ← of (expectKind .leftParen)
  let parameters ← if ← of (isAt .rightParen) then pure [] else call .parameterList
  let _ ← of (expectKind .rightParen)
  let _ ← of (expectKind .leftBrace)
  let body ← call .statementList
  let _ ← of (expectKind .rightBrace)
  return .method ⟨← of freshId, name, returns, parameters, body, t.position⟩

def field (typeName : String) (position : Position) : Reader Member := do
  match ← declarationAfter .field typeName position with
  | some declaration => return .field declaration
  | none => return .malformed position

def closeMember (start : Position) (body : Reader Member) : Reader Member :=
  return (← recover (skipThrough .leftBrace) body).getD (.malformed start)

def member (start : Position) : TokenKind → Reader Member
  | .identifier name | .typeName name _ => do
    let t ← of take
    closeMember start (field name t.position)
  | .keyword _ => do
    let t ← of take
    closeMember start (method t)
  | .malformed _ => do
    let _ ← of take
    closeMember start (of (throw .reported))
  | kind => do
    report (.declarationStart kind) start
    skipThrough .leftBrace
    return .malformed start

def classDeclaration (t : Token) : Reader ClassDeclaration := do
  of (acceptToken (.token (.keyword .classWord)) (ofKind (.keyword .classWord)) t)
  let (name, _) ← of expectIdentifier
  let superclass ← of superclass
  let _ ← of (expectKind .leftBrace)
  let members ← call .memberList
  let _ ← of (expectKind .rightBrace)
  return ⟨← of freshId, name, superclass, members, t.position⟩

def mainClass : Reader MainClass := do
  let position ← of (expectKeyword .classWord)
  let (name, _) ← of expectIdentifier
  let _ ← of (expectKind .leftBrace)
  let _ ← of (expectKeyword .publicWord)
  let _ ← of (expectKeyword .staticWord)
  let _ ← of (expectNamedType "void")
  let _ ← of (expectKeyword .mainWord)
  let _ ← of (expectKind .leftParen)
  let _ ← of (expectKind .rightParen)
  let _ ← of (expectKind .leftBrace)
  let body ← call .statementList
  let _ ← of (expectKind .rightBrace)
  let _ ← of (expectKind .rightBrace)
  return ⟨← of freshId, name, body, position⟩

def body : (p : Routine) → Reader p.Value
  | .program => do
    let main ← recover skipClass mainClass
    return ⟨main, ← call .classList⟩
  | .classList => do
    if ← of atEnd then return []
    let first ← call .classDeclaration
    return first.toList ++ (← call .classList)
  | .classDeclaration => do
    let t ← of take
    recover skipClass (Reader.classDeclaration t)
  | .memberList => do
    if ← of atClose then return []
    let first ← call .member
    return first :: (← call .memberList)
  | .member => do
    let first ← of head
    Reader.member first.position first.kind
  | .parameterList => do
    let first ← parameter
    if ← of (isAt .rightParen) then return first.toList
    let t ← of take
    of (acceptToken (.token .comma) (ofKind .comma) t)
    return first.toList ++ (← call .parameterList)
  | .statementList => do
    if ← of atClose then return []
    let first ← call .statement
    return first :: (← call .statementList)
  | .statement => do
    let first ← of head
    Reader.statement first.position (← of statementStart)
  | .wordStatement word position => Reader.wordStatement word position
  | .block position => do
    let body ← call .statementList
    let _ ← of (expectKind .rightBrace)
    return .block (← of freshId) body position
  | .expression => do
    let start := (← of head).position
    let levels := call (.chain BinaryOperator.levels)
    return (← recover (call (.skip endsExpression)) levels).getD (.malformed start)
  | .chain 0 => call .unary
  | .chain (k + 1) => do
    let left ← call (.chain k)
    call (.chainRest k left)
  | .chainRest k left => do
    match operatorAbove? k (← of head).kind with
    | none => return left
    | some op =>
      let t ← of take
      let right ← call (.chain k)
      call (.chainRest k (.binary (← of freshId) op left right t.position))
  | .unary => do
    if ← of (isAt .not) then
      let t ← of take
      let operand ← call .term
      return .not (← of freshId) operand t.position
    else call .term
  | .term => do
    let start := (← of head).position
    return (← recover (call (.skip endsTerm)) termBody).getD (.malformed start)
  | .termTail inner => do
    match (← of head).kind with
    | .leftBracket =>
      let t ← of take
      let index ← call .expression
      let _ ← of (expectKind .rightBracket)
      call (.termTail (.index (← of freshId) inner index t.position))
    | .dot =>
      let _ ← of take
      call (.termTail (← call (.invocation inner)))
    | _ => return inner
  | .invocation receiver => Reader.invocation receiver
  | .argumentList => do
    let argument ← call .expression
    if ← of (isAt .rightParen) then return [argument]
    let t ← of take
    of (acceptToken (.token .comma) (ofKind .comma) t)
    return argument :: (← call .argumentList)
  | .creation position => Reader.creation position
  | .skip stop => do
    if ← of atEnd then return ()
    if stop (← of head).kind then return ()
    let _ ← of take
    call (.skip stop)

end Reader

end MiniJava.Reading
