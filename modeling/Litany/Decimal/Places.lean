import Litany.Decimal.Dyadic
import Litany.Decimal.Digits

/-!
# A fixed number of places

`fixed` rounds the exact value of a float, not its shortest decimal form, to a given number of
digits after the point; a value halfway between two goes to the even one.
-/

namespace Litany

namespace Decimal

/-- The quotient rounded to the nearest integer, and to the even one when it lies halfway. -/
def roundDiv (num den : Nat) : Nat :=
  let whole := num / den
  match compare (2 * (num % den)) den with
  | .lt => whole
  | .gt => whole + 1
  | .eq => if whole % 2 = 0 then whole else whole + 1

/-- A float with the given number of digits after the point. The sign is kept when all digits
are zero. -/
def fixed (places : Nat) (x : Float) : String :=
  match read x with
  | .nan => "NaN"
  | .infinite negative => if negative then "-inf" else "inf"
  | .finite negative size =>
    let digits := roundDiv (size.num * Nat.pow 10 places) size.den
    (if negative then "-" else "") ++ pointed digits places

end Decimal

end Litany
