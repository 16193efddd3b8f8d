/-!
# Operators

The four operations of arithmetic, the six comparisons and the two connectives of a condition.
-/

namespace Litany

/-- An operation of arithmetic. -/
inductive Arithmetic where
  | add
  | subtract
  | multiply
  | divide
deriving DecidableEq, Repr

/-- The spelling of an operation. -/
def Arithmetic.symbol : Arithmetic → String
  | add => "+"
  | subtract => "-"
  | multiply => "*"
  | divide => "/"

/-- A comparison of two values. -/
inductive Comparison where
  | less
  | lessEqual
  | greater
  | greaterEqual
  | equal
  | notEqual
deriving DecidableEq, Repr

namespace Comparison

/-- The spelling of a comparison. -/
def symbol : Comparison → String
  | less => "<"
  | lessEqual => "<="
  | greater => ">"
  | greaterEqual => ">="
  | equal => "=="
  | notEqual => "!="

/-- Whether the comparison holds of two values that stand in the given order. -/
def holds (c : Comparison) (order : Ordering) : Bool :=
  match c with
  | less => order == .lt
  | lessEqual => order != .gt
  | greater => order == .gt
  | greaterEqual => order != .lt
  | equal => order == .eq
  | notEqual => order != .eq

end Comparison

/-- A connective between two terms of a condition. -/
inductive Connective where
  | and
  | or
deriving DecidableEq, Repr

/-- The spelling of a connective. -/
def Connective.symbol : Connective → String
  | and => "&&"
  | or => "||"

end Litany
