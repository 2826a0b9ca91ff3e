import MiniJava.Tree.Cursor

namespace MiniJava.Prefix

open Reading (typeName?)

-- Whether a token of a text can be of that kind, unless it is malformed.
def proper (kind : TokenKind) : Bool :=
  kind.defect? = none && kind ≠ .endOfInput

-- The goals that are left are kept in a stack, and every token is told by the goals at the top
-- whether a program can go on with it. The goals say nothing about trees but one thing: whether the
-- expression that was read last is a call, for only a call is a statement of its own.
inductive Goal
  | exact (kind : TokenKind)
  | identifier
  | type
  | namedType (name : String)
  -- `[]` or nothing
  | brackets
  | expression
  | unary
  | term
  -- The operators but those of the `above` tightest levels, with their right operands. `binary` tells
  -- whether there has been one already.
  | operators (binary : Bool) (above : Nat)
  -- What may stand behind a term.
  | tail (call : Bool)
  -- The parenthesis behind an expression.
  | close
  -- What follows a dot.
  | selector
  -- The arguments of a call with the parenthesis behind them.
  | arguments
  | moreArguments
  -- What follows `new`.
  | creation
  | creationEnd
  | statement
  -- What follows the identifier that a statement starts with.
  | afterName
  | afterBracket
  -- What follows the expression that a statement starts with.
  | ending
  -- An `else` with its statement, or nothing.
  | orElse
  -- Statements with the brace behind them, and the like.
  | statements
  | parameters
  | moreParameters
  | heading
  | members
deriving DecidableEq

inductive Reaction
  -- The token is taken. The goals are what it asks for.
  | take (goals : List Goal)
  -- The goal is met by nothing. `call` tells whether the expression that ends here is a call.
  | leave (call : Bool)
  | refuse

def Reaction.ofStart : Option (List Goal) → Reaction
  | some goals => take goals
  | none       => refuse

def termStart : TokenKind → Option (List Goal)
  | .keyword .newWord                          => some [.creation]
  | .keyword .thisWord | .keyword .trueWord | .keyword .falseWord
  | .identifier _ | .integer _                 => some [.tail false]
  | .leftParen                                 => some [.expression, .close]
  | _                                          => none

def unaryStart : TokenKind → Option (List Goal)
  | .not => some [.term]
  | kind => termStart kind

-- A negation is no call.
def expressionStart (kind : TokenKind) : Option (List Goal) :=
  (unaryStart kind).map (· ++ [.operators (kind = .not) 0])

def conditionGoals : List Goal :=
  [.exact .leftParen, .expression, .exact .rightParen]

def variableStart : TokenKind → Option (List Goal)
  | .identifier _ | .typeName _ _ => some [.brackets, .identifier]
  | _                             => none

def statementStart : TokenKind → Option (List Goal)
  | .typeName _ _         => some [.brackets, .identifier, .exact .semicolon]
  | .keyword .assertWord  => some (conditionGoals ++ [.exact .semicolon])
  | .keyword .ifWord      => some (conditionGoals ++ [.statement, .orElse])
  | .keyword .whileWord   => some (conditionGoals ++ [.statement])
  | .keyword .systemWord  =>
    some ([.exact .dot, .exact (.keyword .outWord), .exact .dot, .exact (.keyword .printlnWord)] ++
      conditionGoals ++ [.exact .semicolon])
  | .keyword .returnWord  => some [.expression, .exact .semicolon]
  | .keyword _            => none
  | .leftBrace            => some [.statements]
  | .identifier _         => some [.afterName]
  | kind                  => (expressionStart kind).map (· ++ [.ending])

-- A method from behind `public`.
def methodGoals : List Goal :=
  [.type, .brackets, .identifier, .exact .leftParen, .parameters, .exact .leftBrace, .statements]

-- What a goal does about the next token. `call` tells whether an expression ends before it that is a
-- call.
def Goal.react (call : Bool) (kind : TokenKind) : Goal → Reaction
  | exact expected   => if kind = expected then .take [] else .refuse
  | identifier       =>
    match kind with
    | .identifier _ => .take []
    | _             => .refuse
  | type             => if (typeName? kind).isSome then .take [] else .refuse
  | namedType name   =>
    match kind with
    | .typeName found _ => if found = name then .take [] else .refuse
    | _                 => .refuse
  | brackets         => if kind = .leftBracket then .take [exact .rightBracket] else .leave false
  | expression       => .ofStart (expressionStart kind)
  | unary            => .ofStart (unaryStart kind)
  | term             => .ofStart (termStart kind)
  | operators b above =>
    match kind with
    | .operator op =>
      if op.precedence + above ≤ BinaryOperator.levels then .take [unary, operators true 0]
      else .leave (call && !b)
    | _            => .leave (call && !b)
  | tail isCall      =>
    match kind with
    | .leftBracket => .take [expression, exact .rightBracket, tail false]
    | .dot         => .take [selector]
    | _            => .leave isCall
  | close            => if kind = .rightParen then .take [tail call] else .refuse
  | selector         =>
    match kind with
    | .keyword .lengthWord => .take [tail true]
    | .identifier _        => .take [exact .leftParen, arguments, tail true]
    | _                    => .refuse
  | arguments        =>
    if kind = .rightParen then .take []
    else .ofStart ((expressionStart kind).map (· ++ [moreArguments]))
  | moreArguments    =>
    match kind with
    | .rightParen => .take []
    | .comma      => .take [expression, moreArguments]
    | _           => .refuse
  | creation         =>
    match typeName? kind with
    | some (_, true)  => .take [exact .leftBracket, expression, exact .rightBracket, tail false]
    | some (_, false) => .take [creationEnd]
    | none            => .refuse
  | creationEnd      =>
    match kind with
    | .leftParen   => .take [exact .rightParen, tail false]
    | .leftBracket => .take [expression, exact .rightBracket, tail false]
    | _            => .refuse
  | statement        => .ofStart (statementStart kind)
  | afterName        =>
    match kind with
    | .identifier _ => .take [exact .semicolon]
    | .leftBracket  => .take [afterBracket]
    | .dot          => .take [selector, operators false 0, ending]
    | .operator _   => .take [unary, operators true 0, ending]
    | .assign       => .take [expression, exact .semicolon]
    | _             => .refuse
  | afterBracket     =>
    if kind = .rightBracket then .take [identifier, exact .semicolon]
    else .ofStart ((expressionStart kind).map
      (· ++ [exact .rightBracket, tail false, operators false 0, ending]))
  | ending           =>
    match kind with
    | .assign    => .take [expression, exact .semicolon]
    | .semicolon => if call then .take [] else .refuse
    | _          => .refuse
  | orElse           => if kind = .keyword .elseWord then .take [statement] else .leave false
  | statements       =>
    if kind = .rightBrace then .take []
    else .ofStart ((statementStart kind).map (· ++ [statements]))
  | parameters       =>
    if kind = .rightParen then .take []
    else .ofStart ((variableStart kind).map (· ++ [moreParameters]))
  | moreParameters   =>
    match kind with
    | .rightParen => .take []
    | .comma      => .take [type, brackets, identifier, moreParameters]
    | _           => .refuse
  | heading          =>
    match kind with
    | .leftBrace            => .take []
    | .keyword .extendsWord => .take [identifier, exact .leftBrace]
    | _                     => .refuse
  | members          =>
    match kind with
    | .rightBrace             => .take []
    | .keyword .publicWord    => .take (methodGoals ++ [members])
    | kind                    =>
      .ofStart ((variableStart kind).map (· ++ [exact .semicolon, members]))

inductive Verdict
  | goes (goals : List Goal)
  | ends
  | stuck

-- The goals that are left, the nearest first, and whether an expression ends here that is a call.
-- When none are left, another class may follow.
structure State where
  call  : Bool
  goals : List Goal

namespace State

def verdict (call : Bool) (kind : TokenKind) : List Goal → Verdict
  | []         =>
    match kind with
    | .keyword .classWord => .goes [.identifier, .heading, .members]
    | .endOfInput         => .ends
    | _                   => .stuck
  | g :: goals =>
    match g.react call kind with
    | .take new   => .goes (new ++ goals)
    | .leave call => verdict call kind goals
    | .refuse     => .stuck

def step (σ : State) (kind : TokenKind) : Verdict :=
  verdict σ.call kind σ.goals

def after (σ : State) : List Token → Option State
  | []     => some σ
  | t :: l =>
    match σ.step t.kind with
    | .goes goals => after ⟨false, goals⟩ l
    | _           => none

-- Nothing has been read yet.
def initial : State where
  call  := false
  goals := [.exact (.keyword .classWord), .identifier, .exact .leftBrace,
    .exact (.keyword .publicWord), .exact (.keyword .staticWord), .namedType "void",
    .exact (.keyword .mainWord), .exact .leftParen, .exact .rightParen, .exact .leftBrace,
    .statements, .exact .rightBrace]

end State

end MiniJava.Prefix
