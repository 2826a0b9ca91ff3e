import MiniJava.Operator
import MiniJava.Position

namespace MiniJava

inductive Keyword
  | classWord | publicWord | staticWord | mainWord | extendsWord | returnWord
  | ifWord | elseWord | whileWord | systemWord | outWord | printlnWord
  | assertWord | newWord | thisWord | trueWord | falseWord | lengthWord
deriving DecidableEq

namespace Keyword

def all : List Keyword :=
  [classWord, publicWord, staticWord, mainWord, extendsWord, returnWord, ifWord, elseWord,
    whileWord, systemWord, outWord, printlnWord, assertWord, newWord, thisWord, trueWord,
    falseWord, lengthWord]

def spelling : Keyword → String
  | classWord => "class"
  | publicWord => "public"
  | staticWord => "static"
  | mainWord => "main"
  | extendsWord => "extends"
  | returnWord => "return"
  | ifWord => "if"
  | elseWord => "else"
  | whileWord => "while"
  | systemWord => "System"
  | outWord => "out"
  | printlnWord => "println"
  | assertWord => "assert"
  | newWord => "new"
  | thisWord => "this"
  | trueWord => "true"
  | falseWord => "false"
  | lengthWord => "length"

def ofWord? (word : String) : Option Keyword :=
  all.find? (·.spelling = word)

theorem mem_all (k : Keyword) : k ∈ all := by
  cases k <;> decide

end Keyword

def builtinTypes : List String := ["int", "boolean", "void"]

inductive LexicalError
  | loneAmpersand
  | loneBar
  | invalidCharacter (c : Char)
  | integerOutOfRange (digits : String)
  | unterminatedComment
  | stated (words : String)
deriving DecidableEq

def LexicalError.message : LexicalError → String
  | loneAmpersand => "expected `&&` but found a single `&`"
  | loneBar => "expected `||` but found a single `|`"
  | invalidCharacter c => "invalid character `" ++ String.singleton c ++ "`"
  | integerOutOfRange digits => "integer literal `" ++ digits ++ "` is out of range"
  | unterminatedComment => "unterminated block comment"
  | stated words => words

inductive TokenKind
  | identifier (name : String)
  | keyword (word : Keyword)
  | typeName (name : String) (builtin : Bool)
  | integer (value : Int)
  | operator (op : BinaryOperator)
  | not
  | assign
  | dot
  | leftParen
  | rightParen
  | leftBracket
  | rightBracket
  | leftBrace
  | rightBrace
  | semicolon
  | comma
  | malformed (error : LexicalError)
  | endOfInput
deriving DecidableEq

namespace TokenKind

def quoted (name : String) : String :=
  "`" ++ name ++ "`"

def display : TokenKind → String
  | identifier name => "identifier " ++ quoted name
  | keyword word => quoted word.spelling
  | typeName name _ => "type " ++ quoted name
  | integer value => "integer " ++ quoted (toString value)
  | operator op => quoted op.symbol
  | not => quoted "!"
  | assign => quoted "="
  | dot => quoted "."
  | leftParen => quoted "("
  | rightParen => quoted ")"
  | leftBracket => quoted "["
  | rightBracket => quoted "]"
  | leftBrace => quoted "\x7b"
  | rightBrace => quoted "\x7d"
  | semicolon => quoted ";"
  | comma => quoted ","
  | malformed _ => "invalid token"
  | endOfInput => "end of input"

def isType : TokenKind → Bool
  | identifier _ | typeName _ _ => true
  | _ => false

def defect? : TokenKind → Option LexicalError
  | malformed error => some error
  | _ => none

end TokenKind

structure Token where
  kind : TokenKind
  position : Position
deriving DecidableEq

-- A finite run of tokens. After them the end of input is read again and again, at `stop`.
structure TokenStream where
  tokens : List Token
  stop : Position

namespace TokenStream

-- The tokens of a list up to its first end of input; the stream ends where its last token stands.
def ofTokens (tokens : List Token) : TokenStream :=
  let kept := tokens.takeWhile (·.kind ≠ .endOfInput)
  ⟨kept, (kept.getLast?.map (·.position)).getD .start⟩

theorem kind_ne_of_mem_ofTokens {tokens : List Token} {t : Token}
    (h : t ∈ (ofTokens tokens).tokens) : t.kind ≠ .endOfInput := by
  simpa using List.all_eq_true.mp List.all_takeWhile t h

def next (s : TokenStream) : Token × TokenStream :=
  match s.tokens with
  | [] => (⟨.endOfInput, s.stop⟩, s)
  | t :: rest => (t, ⟨rest, s.stop⟩)

def take (s : TokenStream) : (count : Nat) → List Token
  | 0 => []
  | count + 1 => s.next.1 :: s.next.2.take count

def toList (s : TokenStream) : List Token :=
  s.tokens ++ [⟨.endOfInput, s.stop⟩]

end TokenStream

end MiniJava
