import MiniJava.Diagnostic.Basic
import MiniJava.Tree.Basic

namespace MiniJava.Reading

structure Input where
  tokens : List Token
  stop : Position
  nextId : NodeId
  diagnostics : Array Diagnostic

-- Taking a token leads from a `Cursor n` to a `Cursor (n - 1)`. So the readers of trees recurse on
-- that bound, and a construct that starts with a token reads the rest of itself below it.
structure Cursor (n : Nat) extends Input where
  fits : tokens.length ≤ n

inductive Mismatch
  -- A malformed token, which has been reported already.
  | reported
  | because (error : SyntaxError) (position : Position)

-- A step always gives a value, an attempt may find its construct missing.
abbrev Step (n : Nat) := StateM (Cursor n)

abbrev Attempt (n : Nat) := ExceptT Mismatch (Step n)

def defect? (t : Token) : Option Diagnostic :=
  t.kind.defect?.map (Diagnostic.lexical · t.position)

namespace Cursor

def ofStream (s : TokenStream) : Cursor s.tokens.length where
  tokens := s.tokens
  stop := s.stop
  nextId := 0
  diagnostics := #[]
  fits := Nat.le_refl _

def widen (h : m ≤ n) (s : Cursor m) : Cursor n :=
  { s with fits := Nat.le_trans s.fits h }

def lift (s : Cursor (n - 1)) : Cursor n :=
  s.widen (Nat.sub_le n 1)

def head (s : Cursor n) : Token :=
  s.tokens.head?.getD ⟨.endOfInput, s.stop⟩

-- Takes the next token, reporting it if it is malformed. The end of input stays.
def next (s : Cursor n) : Token × Cursor (n - 1) :=
  (s.head,
    { s with
      tokens := s.tokens.tail
      diagnostics := s.diagnostics ++ (s.tokens.take 1).filterMap defect?
      fits := by simpa using Nat.sub_le_sub_right s.fits 1 })

-- Passes over tokens, reporting the malformed ones, up to one with `stop`.
def skipUntil (stop : TokenKind → Bool) (s : Cursor n) : Cursor n :=
  { s with
    tokens := s.tokens.dropWhile fun t => !stop t.kind
    diagnostics :=
      s.diagnostics ++ (s.tokens.takeWhile fun t => !stop t.kind).filterMap defect?
    fits := Nat.le_trans (List.dropWhile_sublist _).length_le s.fits }

-- Passes over tokens up to and including the first of kind `last`.
def skipThrough (last : TokenKind) (s : Cursor n) : Cursor (n - 1) :=
  (s.skipUntil (· = last)).next.2

def report (error : SyntaxError) (position : Position) (s : Cursor n) : Cursor n :=
  { s with diagnostics := s.diagnostics.push (.grammatical error position) }

@[simp]
theorem tokens_widen (h : m ≤ n) (s : Cursor m) : (s.widen h).tokens = s.tokens :=
  rfl

@[simp]
theorem tokens_lift (s : Cursor (n - 1)) : s.lift.tokens = s.tokens :=
  rfl

@[simp]
theorem tokens_next (s : Cursor n) : s.next.2.tokens = s.tokens.tail :=
  rfl

theorem tokens_skipUntil_suffix (stop : TokenKind → Bool) (s : Cursor n) :
    (s.skipUntil stop).tokens <:+ s.tokens :=
  List.dropWhile_suffix _

end Cursor

def within (h : m ≤ n) (step : Cursor n → α × Cursor m) : Step n α := fun s =>
  let (a, s) := step s
  (a, s.widen h)

def afterToken (rest : Token → Step n α) (s : Cursor (n + 1)) : α × Cursor n :=
  let (t, s) := s.next
  rest t s

def attemptAfter (rest : Token → Attempt n α) : Attempt (n + 1) α :=
  ExceptT.mk (within (Nat.le_succ n) (afterToken fun t => (rest t).run))

def head : Attempt n Token :=
  return (← get).head

def isAt (kind : TokenKind) : Attempt n Bool :=
  return (← get).head.kind = kind

def below (step : Cursor n → α × Cursor (n - 1)) : Attempt n α :=
  modifyGet (within (Nat.sub_le n 1) step)

def take : Attempt n Token :=
  below Cursor.next

def freshId : Attempt n NodeId :=
  modifyGet fun s => (s.nextId, { s with nextId := s.nextId + 1 })

def giveUp (error : SyntaxError) (position : Position) : Attempt n α :=
  throw (.because error position)

-- Reads a construct. If it is missing, reports why and passes over its remains.
def recover (sync : Cursor n → Cursor n) (body : Attempt n α) : Step n (Option α) := do
  match ← body.run with
  | .ok a => return some a
  | .error .reported =>
    modify sync
    return none
  | .error (.because error position) =>
    modify fun s => sync (s.report error position)
    return none

def acceptToken (expected : Expectation) (extract : TokenKind → Option α) (t : Token) :
    Attempt n α :=
  match extract t.kind with
  | some a => return a
  | none =>
    if t.kind.defect?.isSome then throw .reported
    else giveUp (.unexpected expected t.kind) t.position

def expect (expected : Expectation) (extract : TokenKind → Option α) :
    Attempt n (α × Position) := do
  let t ← take
  return (← acceptToken expected extract t, t.position)

def ofKind (kind : TokenKind) (found : TokenKind) : Option Unit :=
  if found = kind then some () else none

def expectKind (kind : TokenKind) : Attempt n Position :=
  return (← expect (.token kind) (ofKind kind)).2

def expectKeyword (word : Keyword) : Attempt n Position :=
  expectKind (.keyword word)

def expectIdentifier : Attempt n (String × Position) :=
  expect .identifier fun
    | .identifier name => some name
    | _ => none

def typeName? : TokenKind → Option (String × Bool)
  | .typeName name builtin => some (name, builtin)
  | .identifier name => some (name, false)
  | _ => none

def expectType : Attempt n ((String × Bool) × Position) :=
  expect .aType typeName?

def expectNamedType (name : String) : Attempt n Position :=
  return (← expect (.namedType name) fun
    | .typeName found _ => if found = name then some () else none
    | _ => none).2

end MiniJava.Reading
