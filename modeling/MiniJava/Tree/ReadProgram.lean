import MiniJava.Tree.ReadStatement

namespace MiniJava

namespace Reading

def skipClass (s : Cursor n) : Cursor n :=
  s.skipUntil (· = .keyword .classWord)

def skipMember (s : Cursor n) : Cursor n :=
  (s.skipThrough .leftBrace).lift

def parameter (n : Nat) : Step n (Option VariableDeclaration) :=
  recover skipVariable do
    let (type, position) ← typeRef
    variableAfter .formal type position

-- One formal or more, up to the closing parenthesis. At the end of input the comma after the formal
-- is missing.
def parameterList : (n : Nat) → Attempt n (List VariableDeclaration)
  | 0 => do
    let first ← parameter 0
    let _ ← expectKind .comma
    return first.toList
  | n + 1 => do
    let first ← parameter (n + 1)
    if ← isAt .rightParen then return first.toList
    attemptAfter fun t => do
      acceptToken (.token .comma) (ofKind .comma) t
      return first.toList ++ (← parameterList n)

def method (t : Token) : Attempt n Member := do
  acceptToken (.token (.keyword .publicWord)) (ofKind (.keyword .publicWord)) t
  let (returns, _) ← typeRef
  let (name, _) ← expectIdentifier
  let _ ← expectKind .leftParen
  let parameters ← if ← isAt .rightParen then pure [] else parameterList n
  let _ ← expectKind .rightParen
  let _ ← expectKind .leftBrace
  let body ← statementList n
  let _ ← expectKind .rightBrace
  return .method ⟨← freshId, name, returns, parameters, body, t.position⟩

def field (typeName : String) (position : Position) : Attempt n Member := do
  match ← declarationAfter .field typeName position with
  | some declaration => return .field declaration
  | none => return .malformed position

def closeMember (start : Position) (body : Attempt n Member) : Step n Member :=
  return (← recover skipMember body).getD (.malformed start)

def member (s : Cursor (n + 1)) : Member × Cursor n :=
  let first := s.head
  match first.kind with
  | .identifier name | .typeName name _ =>
    afterToken (fun t => closeMember first.position (field name t.position)) s
  | .keyword _ => afterToken (fun t => closeMember first.position (method t)) s
  | .malformed _ => afterToken (fun _ => closeMember first.position (throw .reported)) s
  | kind =>
    (.malformed first.position,
      (s.report (.declarationStart kind) first.position).skipThrough .leftBrace)

def memberList : (n : Nat) → Step n (List Member)
  | 0 => return []
  | n + 1 => fun s =>
    if s.tokens.isEmpty || s.head.kind = .rightBrace then ([], s)
    else
      let (first, s) := member s
      let (others, s) := memberList n s
      (first :: others, s.widen (Nat.le_succ n))

def superclass : Attempt n (Option String) := do
  if ← isAt .leftBrace then return none
  else
    let _ ← expectKeyword .extendsWord
    let (name, _) ← expectIdentifier
    return some name

def classDeclaration (t : Token) : Attempt n ClassDeclaration := do
  acceptToken (.token (.keyword .classWord)) (ofKind (.keyword .classWord)) t
  let (name, _) ← expectIdentifier
  let superclass ← superclass
  let _ ← expectKind .leftBrace
  let members ← memberList n
  let _ ← expectKind .rightBrace
  return ⟨← freshId, name, superclass, members, t.position⟩

-- The classes up to the end of input, less those that cannot be read.
def classList : (n : Nat) → Step n (List ClassDeclaration)
  | 0 => return []
  | n + 1 => fun s =>
    if s.tokens.isEmpty then ([], s)
    else
      let (first, s) := afterToken (fun t => recover skipClass (classDeclaration t)) s
      let (others, s) := classList n s
      (first.toList ++ others, s.widen (Nat.le_succ n))

def mainClass (n : Nat) : Attempt n MainClass := do
  let position ← expectKeyword .classWord
  let (name, _) ← expectIdentifier
  let _ ← expectKind .leftBrace
  let _ ← expectKeyword .publicWord
  let _ ← expectKeyword .staticWord
  let _ ← expectNamedType "void"
  let _ ← expectKeyword .mainWord
  let _ ← expectKind .leftParen
  let _ ← expectKind .rightParen
  let _ ← expectKind .leftBrace
  let body ← statementList n
  let _ ← expectKind .rightBrace
  let _ ← expectKind .rightBrace
  return ⟨← freshId, name, body, position⟩

def program (n : Nat) : Step n Program := do
  let main ← recover skipClass (mainClass n)
  let classes ← classList n
  return ⟨main, classes⟩

end Reading

structure ParsedProgram where
  program : Program
  diagnostics : List Diagnostic

namespace Reading

-- Reads a program and hands over the diagnostics that came up. Reading may go on afterwards, with
-- the numbers that are left.
def Cursor.readProgram (s : Cursor n) : ParsedProgram × Cursor n :=
  let (program, s) := Reading.program n s
  (⟨program, s.diagnostics.toList⟩, { s with diagnostics := #[] })

end Reading

def ParsedProgram.ofStream (s : TokenStream) : ParsedProgram :=
  (Reading.Cursor.ofStream s).readProgram.1

def Program.ofStream (s : TokenStream) : Except CompileError Program :=
  let parsed := ParsedProgram.ofStream s
  acceptUnless parsed.diagnostics parsed.program

end MiniJava
