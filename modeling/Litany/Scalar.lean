/-!
# Storage types

A cell holds a number of one of twelve scalar types, or an object of a class. Classes are known by
their number, in order of declaration.
-/

namespace Litany

/-- The scalar types: signed and unsigned integers of a width in bits, a binary64 float and a
truth value. The two types of width zero hold nothing but zero. -/
inductive Scalar where
  | i0
  | u0
  | i8
  | u8
  | i16
  | u16
  | i32
  | u32
  | i64
  | u64
  | f64
  | bool
deriving DecidableEq, Repr

namespace Scalar

/-- The keyword of a scalar type. -/
def name : Scalar → String
  | i0 => "I0"
  | u0 => "U0"
  | i8 => "I8"
  | u8 => "U8"
  | i16 => "I16"
  | u16 => "U16"
  | i32 => "I32"
  | u32 => "U32"
  | i64 => "I64"
  | u64 => "U64"
  | f64 => "F64"
  | bool => "Bool"

/-- Every scalar type, in the order of declaration. -/
def all : List Scalar :=
  [i0, u0, i8, u8, i16, u16, i32, u32, i64, u64, f64, bool]

/-- The scalar type with the given keyword. The whole word counts, so `I32x` names none. -/
def ofName? (word : String) : Option Scalar :=
  all.find? fun t => t.name == word

/-- Every type is read from its own name. -/
theorem ofName?_name (t : Scalar) : ofName? t.name = some t := by
  cases t <;> decide

/-- The integer that a cell of this type keeps of an integer: the low bits of the width, read
with or without a sign. An unsigned 64-bit cell keeps the signed reading of its bits. -/
def wrap (t : Scalar) (n : Int64) : Int64 :=
  match t with
  | i0 | u0 => 0
  | i8 => Int64.ofInt (n.toInt.bmod 256)
  | u8 => Int64.ofInt (n.toInt % 256)
  | i16 => Int64.ofInt (n.toInt.bmod 65536)
  | u16 => Int64.ofInt (n.toInt % 65536)
  | i32 => Int64.ofInt (n.toInt.bmod 4294967296)
  | u32 => Int64.ofInt (n.toInt % 4294967296)
  | i64 | u64 => n
  | f64 => n
  | bool => if n = 0 then 0 else 1

end Scalar

/-- The type of a cell: a scalar, or an object of the class with the given number. -/
inductive CellType where
  | scalar (type : Scalar)
  | object (number : Nat)
deriving DecidableEq, Repr

end Litany
