namespace MiniJava

inductive OperatorFamily
  | arithmetic
  | relational
  | equality
  | logical
deriving DecidableEq

inductive BinaryOperator
  | add | sub | mul | div | mod | less | greater | equal | and | or
deriving DecidableEq

namespace BinaryOperator

def all : List BinaryOperator :=
  [add, sub, mul, div, mod, less, greater, equal, and, or]

def symbol : BinaryOperator → String
  | add => "+"
  | sub => "-"
  | mul => "*"
  | div => "/"
  | mod => "%"
  | less => "<"
  | greater => ">"
  | equal => "=="
  | and => "&&"
  | or => "||"

def ofSymbol? (s : String) : Option BinaryOperator :=
  all.find? (·.symbol = s)

def name : BinaryOperator → String
  | add => "Add"
  | sub => "Sub"
  | mul => "Mul"
  | div => "Div"
  | mod => "Mod"
  | less => "Less"
  | greater => "Greater"
  | equal => "Equal"
  | and => "And"
  | or => "Or"

def family : BinaryOperator → OperatorFamily
  | add | sub | mul | div | mod => .arithmetic
  | less | greater => .relational
  | equal => .equality
  | and | or => .logical

def levels : Nat := 6

def precedence : BinaryOperator → Nat
  | or => 1
  | and => 2
  | equal => 3
  | less | greater => 4
  | add | sub => 5
  | mul | div | mod => 6

theorem precedence_pos (op : BinaryOperator) : 0 < op.precedence := by
  cases op <;> decide

theorem precedence_le_levels (op : BinaryOperator) : op.precedence ≤ levels := by
  cases op <;> decide

end BinaryOperator

end MiniJava
