/-!
# Runs of decimal digits

Natural numbers from and to decimal text, and where the point goes in a run of digits.
-/

namespace Litany

namespace Decimal

/-- The number that a run of decimal digits writes, the most significant digit first. -/
def value (digits : List Char) : Nat :=
  digits.foldl (fun n c => 10 * n + (c.toNat - '0'.toNat)) 0

/-- An integer in decimal, with a minus sign in front of a negative one. -/
def signed (n : Int) : String :=
  if n < 0 then "-" ++ Nat.repr n.natAbs else Nat.repr n.natAbs

/-- A run of `n` zeros. -/
def zeros (n : Nat) : String :=
  String.ofList (List.replicate n '0')

/-- The number `digits / 10 ^ places` with exactly that many digits after the point, and no point
when there are none. -/
def pointed (digits places : Nat) : String :=
  if places = 0 then
    Nat.repr digits
  else
    let run := (Nat.repr digits).toList
    let padded := List.replicate (places + 1 - run.length) '0' ++ run
    let whole := padded.length - places
    String.ofList (padded.take whole) ++ "." ++ String.ofList (padded.drop whole)

end Decimal

end Litany
