namespace StoryCodec

inductive Operator
  | add
  | subtract
  | divide
  | multiply
  | modulo
  | negate
  | equal
  | greater
  | less
  | greaterOrEqual
  | lessOrEqual
  | notEqual
  | not
  | and
  | or
  | min
  | max
deriving DecidableEq

namespace Operator

def all : List Operator :=
  [add, subtract, divide, multiply, modulo, negate, equal, greater, less, greaterOrEqual,
    lessOrEqual, notEqual, not, and, or, min, max]

def name : Operator → String
  | add => "Add"
  | subtract => "Subtract"
  | divide => "Divide"
  | multiply => "Multiply"
  | modulo => "Mod"
  | negate => "Negate"
  | equal => "Equal"
  | greater => "Greater"
  | less => "Less"
  | greaterOrEqual => "GreaterThanOrEquals"
  | lessOrEqual => "LessThanOrEquals"
  | notEqual => "NotEquals"
  | not => "Not"
  | and => "And"
  | or => "Or"
  | min => "Min"
  | max => "Max"

/-- The sign of the operator in a compiled story; the underscore keeps negation apart from
subtraction. -/
def symbol : Operator → String
  | add => "+"
  | subtract => "-"
  | divide => "/"
  | multiply => "*"
  | modulo => "%"
  | negate => "_"
  | equal => "=="
  | greater => ">"
  | less => "<"
  | greaterOrEqual => ">="
  | lessOrEqual => "<="
  | notEqual => "!="
  | not => "!"
  | and => "&&"
  | or => "||"
  | min => "MIN"
  | max => "MAX"

def operands : Operator → Nat
  | negate => 1
  | not => 1
  | _ => 2

def ofSymbol? (s : String) : Option Operator :=
  all.find? fun op => op.symbol = s

theorem mem_all (op : Operator) : op ∈ all := by
  cases op <;> decide

theorem symbol_injective : ∀ op other : Operator, op.symbol = other.symbol → op = other := by
  intro op other
  cases op <;> cases other <;> decide

theorem ofSymbol?_symbol (op : Operator) : ofSymbol? op.symbol = some op := by
  cases op <;> decide

end Operator

end StoryCodec
