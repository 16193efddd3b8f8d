import Litany.Decimal.Shortest
import Litany.Operator
import Litany.Scalar

/-!
# Values

What a storage cell holds: an integer, a float, a text, or an object. An object keeps one cell for
each field path that was ever visited, in order of the first visit; a path such as `a.b` is one
key, so nested objects share the cells of the outermost one.

Texts are carried by cells of any type: `coerce` turns numbers into what the type of a cell can
hold and lets everything else through.
-/

namespace Litany

/-- The content of a cell. -/
inductive Value where
  | int (n : Int64)
  | float (x : Float)
  | text (s : String)
  | object (cells : List (String × Value))

/-- The field cells of an object, in order of their first visit. -/
abbrev Cells := List (String × Value)

namespace Cells

/-- The cells with one for `path`: a new one goes to the end and holds `zero`. -/
def reserve (cells : Cells) (path : String) (zero : Value) : Cells :=
  if (cells.lookup path).isSome then cells else cells ++ [(path, zero)]

/-- Replace the content of the cell at `path`. -/
def put (cells : Cells) (path : String) (v : Value) : Cells :=
  match cells with
  | [] => []
  | (key, old) :: rest => if key = path then (key, v) :: rest else (key, old) :: put rest path v

end Cells

namespace Value

/-- What a fresh cell of the given type holds. -/
def zero : CellType → Value
  | .scalar .f64 => .float 0
  | .scalar _ => .int 0
  | .object _ => .object []

/-- The text that a value prints as. -/
def display : Value → String
  | int n => Decimal.signed n.toInt
  | float x => Decimal.plain x
  | text s => s
  | object cells => "<instance of " ++ Nat.repr cells.length ++ " fields>"

/-- The truth of a value in a condition: numbers other than zero, texts other than the empty one,
and every object. -/
def truth : Value → Bool
  | int n => n != 0
  | float x => x != 0
  | text s => s != ""
  | object _ => true

/-- Whether a value is the number zero, of either sign. -/
def isZero : Value → Bool
  | int n => n == 0
  | float x => x == 0
  | _ => false

/-- A number as an integer. -/
def int? : Value → Option Int64
  | int n => some n
  | float x => some (Decimal.truncate x)
  | _ => none

/-- A number as a float. -/
def float? : Value → Option Float
  | int n => some (Float.ofInt n.toInt)
  | float x => some x
  | _ => none

/-! ### Storing -/

/-- What a cell of scalar type keeps of a value. -/
def coerce (v : Value) (t : Scalar) : Value :=
  match v.int?, v.float? with
  | some n, some x =>
    match t with
    | .f64 => .float x
    | .bool => .int (if v.truth then 1 else 0)
    | _ => .int (t.wrap n)
  | _, _ => v

/-- What a cell of any type keeps of a value. -/
def stored (v : Value) : CellType → Value
  | .scalar t => v.coerce t
  | .object _ => v

/-! ### Arithmetic -/

/-- Combine two numbers as floats. -/
def inFloats (f : Float → Float → Float) (l r : Value) : Option Value := do
  return .float (f (← l.float?) (← r.float?))

/-- The sum of two numbers, or one text after the other. -/
def plus : Value → Value → Option Value
  | int l, int r => some (.int (l + r))
  | text l, text r => some (.text (l ++ r))
  | l, r => inFloats (· + ·) l r

/-- The difference of two numbers. -/
def minus : Value → Value → Option Value
  | int l, int r => some (.int (l - r))
  | l, r => inFloats (· - ·) l r

/-- The product of two numbers. -/
def times : Value → Value → Option Value
  | int l, int r => some (.int (l * r))
  | l, r => inFloats (· * ·) l r

/-- The quotient of two numbers. Integers divide towards zero, and not by zero. -/
def dividedBy : Value → Value → Option Value
  | int l, int r => if r = 0 then none else some (.int (l / r))
  | l, r => inFloats (· / ·) l r

/-- The result of an operation, if the operands support it. Two integers give an integer, other
numbers a float. -/
def combine (op : Arithmetic) (l r : Value) : Option Value :=
  match op with
  | .add => l.plus r
  | .subtract => l.minus r
  | .multiply => l.times r
  | .divide => l.dividedBy r

/-- The number with the opposite sign. -/
def negate? : Value → Option Value
  | int n => some (.int (-n))
  | float x => some (.float (-x))
  | _ => none

/-! ### Comparing -/

/-- The order of two floats, unless one of them is no number. -/
def floatOrder? (x y : Float) : Option Ordering :=
  if x < y then some .lt
  else if y < x then some .gt
  else if x == y then some .eq
  else none

/-- The order of two values: numbers by size, texts by their code points. -/
def order? : Value → Value → Option Ordering
  | int l, int r => some (compare l.toInt r.toInt)
  | text l, text r => some (compareOfLessAndEq l r)
  | l, r => do floatOrder? (← l.float?) (← r.float?)

/-- Whether a comparison holds, if the two values can be compared. -/
def compare? (c : Comparison) (l r : Value) : Option Bool :=
  (l.order? r).map c.holds

/-! ### Fields -/

/-- Visit the field cell at `path`: its content, and the object with that cell. A cell visited for
the first time holds `zero`. -/
def visit? (v : Value) (path : String) (zero : Value) : Option (Value × Value) :=
  match v with
  | object cells =>
    let reserved := Cells.reserve cells path zero
    some ((reserved.lookup path).getD zero, .object reserved)
  | _ => none

/-- Replace the content of the field cell at `path`. -/
def putField (v : Value) (path : String) (content : Value) : Value :=
  match v with
  | object cells => .object (Cells.put cells path content)
  | _ => v

end Value

end Litany
