import Litany.Decimal.Dyadic
import Litany.Decimal.Digits

/-!
# The fewest digits that read back

The real numbers that round to a given float form an interval around it, from halfway to the
number below to halfway to the number above, with its ends exactly when the mantissa is even.
`shortest` looks at ever finer decimal grids and takes the first that has a point in the interval;
of the two neighbours of the number on that grid it takes the nearer, and the upper one when both
are equally near. All comparisons are of natural numbers.

`plain` writes the digits positionally, whatever their number, without an exponent.
-/

namespace Litany

namespace Decimal

/-- The decimal number `digits * 10 ^ exponent`. -/
structure Scaled where
  digits : Nat
  exponent : Int
deriving DecidableEq, Repr

/-- Compare `a * 10 ^ i` with `n * 2 ^ j`. -/
def compareScaled (a : Nat) (i : Int) (n : Nat) (j : Int) : Ordering :=
  compare (a * Nat.pow 10 i.toNat * Nat.pow 2 (-j).toNat)
    (n * Nat.pow 2 j.toNat * Nat.pow 10 (-i).toNat)

namespace Dyadic

/-- Whether a decimal number lies among the reals that round to `d`. -/
def admits (d : Dyadic) (s : Scaled) : Bool :=
  let low := if d.narrowBelow then 4 * d.mantissa - 1 else 4 * d.mantissa - 2
  let high := 4 * d.mantissa + 2
  let closed := d.mantissa % 2 == 0
  let atLow := compareScaled s.digits s.exponent low (d.exponent - 2)
  let atHigh := compareScaled s.digits s.exponent high (d.exponent - 2)
  (atLow == .gt || closed && atLow == .eq) && (atHigh == .lt || closed && atHigh == .eq)

/-- The point of the grid `10 ^ grid` to write for `d`, if one of the two next to `d` reads
back as `d`. -/
def onGrid? (d : Dyadic) (grid : Int) : Option Scaled :=
  let below := d.num * Nat.pow 10 (-grid).toNat / (d.den * Nat.pow 10 grid.toNat)
  let lower : Scaled := ⟨below, grid⟩
  let upper : Scaled := ⟨below + 1, grid⟩
  match d.admits lower, d.admits upper with
  | false, false => none
  | true, false => some lower
  | false, true => some upper
  | true, true =>
    match compareScaled (2 * below + 1) grid (2 * d.mantissa) d.exponent with
    | .gt => some lower
    | _ => some upper

/-- An exponent `k` with `d < 10 ^ k`, and `10 ^ (k - 2) < d` for a positive `d`. -/
def scale (d : Dyadic) : Int :=
  ((d.mantissa.log2 : Int) + d.exponent + 1) * 30103 / 100000 + 1

/-- The number written in full: every binary fraction ends in decimal too. -/
def exact (d : Dyadic) : Scaled :=
  ⟨d.num * Nat.pow 5 (-d.exponent).toNat, -((-d.exponent).toNat : Int)⟩

/-- The fewest decimal digits that read back as `d`. Seventeen always suffice, so the exact
value is written only for a number that no grid of the search admits. -/
def shortest (d : Dyadic) : Scaled :=
  if d.mantissa = 0 then ⟨0, 0⟩
  else ((List.range 20).findSome? fun (i : Nat) => d.onGrid? (d.scale - i)).getD d.exact

end Dyadic

/-- A decimal number without an exponent: zeros fill up to the point on either side. -/
def Scaled.plain (s : Scaled) : String :=
  if s.exponent < 0 then pointed s.digits (-s.exponent).toNat
  else if s.digits = 0 then "0"
  else Nat.repr s.digits ++ zeros s.exponent.toNat

/-- A float in full: the fewest digits that read back, no exponent, and no point in a whole
number. The sign of zero is kept, that of a non-number is not. -/
def plain (x : Float) : String :=
  match read x with
  | .nan => "NaN"
  | .infinite negative => if negative then "-inf" else "inf"
  | .finite negative size => (if negative then "-" else "") ++ size.shortest.plain

end Decimal

end Litany
