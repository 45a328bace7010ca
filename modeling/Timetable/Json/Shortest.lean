/-!
# Shortest decimals

The shortest decimal of a binary floating point number is the one with the fewest digits
among those that are nearer to it than to any other number of its format; of several it is
the one nearest to the number, and of two that are equally near the one that ends in an
even digit.  On a grid of decimals only the two neighbours of the number can qualify, so it
is enough to look for the coarsest grid on which one of them does.

A number in its binary format stands for all the reals that are rounded to it.  They form an
interval, whose ends belong to it when the significand is even.
-/

namespace Timetable
namespace Json

/-- A positive real interval around a number, as fractions with one denominator. -/
structure RoundingInterval where
  value : Nat
  low : Nat
  high : Nat
  denominator : Nat
  hasEnds : Bool

namespace RoundingInterval

/-- The interval of the reals that are rounded to a positive number with the given fields of
its binary format of 64 bits.  Below a power of two the numbers are twice as dense. -/
def ofFields (exponent fraction : Nat) : RoundingInterval :=
  let significand := if exponent = 0 then fraction else Nat.pow 2 52 + fraction
  let down := if fraction = 0 ∧ 1 < exponent then 1 else 2
  -- the number is `4 * significand * 2 ^ (power - 1077)`
  let power := max exponent 1
  let scale := Nat.pow 2 power
  ⟨4 * significand * scale, (4 * significand - down) * scale, (4 * significand + 2) * scale,
    Nat.pow 2 1077, significand % 2 = 0⟩

/-- Whether a fraction with the interval's denominator lies in the interval. -/
def contains (r : RoundingInterval) (n : Nat) : Bool :=
  if r.hasEnds then r.low ≤ n && n ≤ r.high else r.low < n && n < r.high

/-- The interval multiplied by a number. -/
def times (r : RoundingInterval) (n : Nat) : RoundingInterval :=
  { r with value := r.value * n, low := r.low * n, high := r.high * n }

/-- The multiple of a unit that lies in the interval next to its value, if one does.  From
the middle between two multiples it goes to the even one. -/
def nearestMultiple? (r : RoundingInterval) (unit : Nat) : Option Nat :=
  let step := unit * r.denominator
  let below := r.value / step
  let above := below + 1
  match r.contains (below * step), r.contains (above * step) with
  | true, true =>
      -- twice the value against the middle between the two
      match compare (2 * r.value) ((below + above) * step) with
      | .lt => some below
      | .gt => some above
      | .eq => some (if below % 2 = 0 then below else above)
  | true, false => some below
  | false, true => some above
  | false, false => none

/-- The multiple of a power of ten that lies in the interval next to its value. -/
def nearestDecimal? (r : RoundingInterval) (exponent : Int) : Option Nat :=
  (r.times (Nat.pow 10 (-exponent).toNat)).nearestMultiple? (Nat.pow 10 exponent.toNat)

/-- The shortest decimal in the interval, as digits and a power of ten. -/
def shortest? (r : RoundingInterval) : Option (Nat × Int) :=
  (List.range 660).findSome? fun (i : Nat) =>
    let exponent : Int := 309 - i
    (r.nearestDecimal? exponent).map fun digits => (digits, exponent)

end RoundingInterval

end Json
end Timetable
