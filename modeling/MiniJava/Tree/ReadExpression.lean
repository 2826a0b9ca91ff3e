import MiniJava.Tree.Cursor

namespace MiniJava.Reading

def skipExpression (s : Cursor n) : Cursor n :=
  s.skipUntil fun
    | .semicolon | .rightParen => true
    | _ => false

def skipTerm (s : Cursor n) : Cursor n :=
  s.skipUntil fun
    | .semicolon | .rightParen | .operator _ => true
    | _ => false

-- The operator that a token is, if it is one of the level above the `k` tightest.
def operatorAbove? (k : Nat) : TokenKind → Option BinaryOperator
  | .operator op => if op.precedence + k = BinaryOperator.levels then some op else none
  | _ => none

def noTerm (t : Token) : Attempt n α :=
  match t.kind with
  | .keyword word => giveUp (.expressionKeyword word) t.position
  | kind => giveUp (.termStart kind) t.position

-- `chain n k` reads an expression of the `k` tightest levels: `chain n 0` reads a term or its
-- negation, and each further level reads a run of operands of the one below and groups it to the
-- left. The measure counts `16` for a token and adds the rank of the function: a single number, so
-- that readings evaluate.
mutual

def expression (n : Nat) : Step n Expression := do
  let start := (← get).head.position
  return (← recover skipExpression (chain n BinaryOperator.levels)).getD (.malformed start)
termination_by 16 * n + 11
decreasing_by simp only [BinaryOperator.levels]; omega

def chain (n k : Nat) : Attempt n Expression :=
  match k with
  | 0 => unary n
  | k + 1 => do
    let left ← chain n k
    chainRest n k left
termination_by 16 * n + 4 + k

def chainRest (n k : Nat) (left : Expression) : Attempt n Expression :=
  match n with
  | 0 => return left
  | n + 1 => do
    match operatorAbove? k (← head).kind with
    | none => return left
    | some op => attemptAfter fun t => do
      let right ← chain n k
      chainRest n k (.binary (← freshId) op left right t.position)
termination_by 16 * n + k

def unary (n : Nat) : Attempt n Expression :=
  match n with
  | 0 => term 0
  | n + 1 => do
    if ← isAt .not then
      attemptAfter fun t => do
        let operand ← term n
        return .not (← freshId) operand t.position
    else term (n + 1)
termination_by 16 * n + 3

def term (n : Nat) : Step n Expression := do
  let start := (← get).head.position
  return (← recover skipTerm (termBody n)).getD (.malformed start)
termination_by 16 * n + 2

def termBody (n : Nat) : Attempt n Expression :=
  match n with
  | 0 => do noTerm (← head)
  | n + 1 => do
    let t ← head
    match t.kind with
    | .keyword .newWord => attemptAfter fun t => do
      termTail n (← creation n t.position)
    | .keyword .thisWord => attemptAfter fun t => do
      termTail n (.self (← freshId) t.position)
    | .keyword .trueWord => attemptAfter fun t => do
      termTail n (.boolean (← freshId) true t.position)
    | .keyword .falseWord => attemptAfter fun t => do
      termTail n (.boolean (← freshId) false t.position)
    | .identifier name => attemptAfter fun t => do
      termTail n (.reference (← freshId) name t.position)
    | .integer value => attemptAfter fun t => do
      termTail n (.integer (← freshId) value t.position)
    | .leftParen => attemptAfter fun _ => do
      let inner ← expression n
      let _ ← expectKind .rightParen
      termTail n inner
    | .malformed _ => attemptAfter fun _ => throw .reported
    | _ => noTerm t
termination_by 16 * n + 1

def termTail (n : Nat) (inner : Expression) : Attempt n Expression :=
  match n with
  | 0 => return inner
  | n + 1 => do
    match (← head).kind with
    | .leftBracket => attemptAfter fun t => do
      let index ← expression n
      let _ ← expectKind .rightBracket
      termTail n (.index (← freshId) inner index t.position)
    | .dot => attemptAfter fun _ => do
      termTail n (← invocation n inner)
    | _ => return inner
termination_by 16 * n

def invocation (n : Nat) (receiver : Expression) : Attempt n Expression := do
  match (← head).kind with
  | .keyword _ =>
    let position ← expectKeyword .lengthWord
    return .call (← freshId) receiver Keyword.lengthWord.spelling [] position
  | _ =>
    let (method, position) ← expectIdentifier
    let _ ← expectKind .leftParen
    let arguments ← if ← isAt .rightParen then pure [] else argumentList n
    let _ ← expectKind .rightParen
    return .call (← freshId) receiver method arguments position
termination_by 16 * n + 13

-- One argument or more, up to the closing parenthesis. At the end of input the comma after the
-- argument is missing.
def argumentList (n : Nat) : Attempt n (List Expression) :=
  match n with
  | 0 => do
    let argument ← expression 0
    let _ ← expectKind .comma
    return [argument]
  | n + 1 => do
    let argument ← expression (n + 1)
    if ← isAt .rightParen then return [argument]
    attemptAfter fun t => do
      acceptToken (.token .comma) (ofKind .comma) t
      return argument :: (← argumentList n)
termination_by 16 * n + 12

-- The part of a creation after `new`. Built-in types, and types without a `(`, make arrays.
def creation (n : Nat) (position : Position) : Attempt n Expression := do
  let ((typeName, builtin), _) ← expectType
  if builtin || !(← isAt .leftParen) then
    let _ ← expectKind .leftBracket
    let size ← expression n
    let _ ← expectKind .rightBracket
    return .newArray (← freshId) typeName size position
  else
    let _ ← expectKind .leftParen
    let _ ← expectKind .rightParen
    return .newObject (← freshId) typeName position
termination_by 16 * n + 12

end

end MiniJava.Reading
