/-!
# What the bits of a float stand for

A binary64 number is `mantissa * 2 ^ exponent` with a sign, an infinity, or no number at all.
Everything that turns a float into text or into an integer works on this exact reading, so no
step rounds before the last one.
-/

namespace Litany

namespace Decimal

/-- A finite non-negative binary64 number, `mantissa * 2 ^ exponent`. -/
structure Dyadic where
  mantissa : Nat
  exponent : Int
  /-- The gap to the number below is half the gap to the number above, as it is at the powers
  of two above the smallest normal number. -/
  narrowBelow : Bool
deriving DecidableEq, Repr

/-- The meaning of a float. -/
inductive Reading where
  | nan
  | infinite (negative : Bool)
  | finite (negative : Bool) (size : Dyadic)
deriving DecidableEq, Repr

/-- Split the sixty-four bits into sign, exponent and fraction. -/
def Reading.ofBits (bits : UInt64) : Reading :=
  let negative := bits >>> 63 == 1
  let scale := ((bits >>> 52) &&& 0x7FF).toNat
  let fraction := (bits &&& 0xFFFFFFFFFFFFF).toNat
  if scale = 0x7FF then
    if fraction = 0 then .infinite negative else .nan
  else if scale = 0 then
    .finite negative ⟨fraction, -1074, false⟩
  else
    .finite negative ⟨Nat.pow 2 52 + fraction, (scale : Int) - 1075, fraction == 0 && scale > 1⟩

/-- The meaning of a float. -/
def read (x : Float) : Reading :=
  Reading.ofBits x.toBits

namespace Dyadic

/-- The numerator of the number as a fraction with denominator `d.den`. -/
def num (d : Dyadic) : Nat :=
  d.mantissa * Nat.pow 2 d.exponent.toNat

/-- A power of two that divides the number down to an integer numerator. -/
def den (d : Dyadic) : Nat :=
  Nat.pow 2 (-d.exponent).toNat

/-- The integral part. -/
def floor (d : Dyadic) : Nat :=
  d.num / d.den

end Dyadic

/-! ### Integers from floats -/

/-- The nearest 64-bit integer to an integer of any size. -/
def saturate (n : Int) : Int64 :=
  if n < Int64.minValue.toInt then Int64.minValue
  else if Int64.maxValue.toInt < n then Int64.maxValue
  else Int64.ofInt n

/-- Drop the fraction of a float and keep what fits 64 bits: too large a number gives the nearest
end of the range, and no number at all gives zero. -/
def truncate (x : Float) : Int64 :=
  match read x with
  | .nan => 0
  | .infinite negative => if negative then Int64.minValue else Int64.maxValue
  | .finite negative size => saturate (if negative then -(size.floor : Int) else size.floor)

end Decimal

end Litany
