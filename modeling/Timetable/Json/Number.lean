import Timetable.Json.Shortest
import Timetable.Text.Numeral

/-!
# JSON numbers with a fraction

A number with a fraction or an exponent, or one that is too large for a whole number, is
held in binary floating point.  It is written as its shortest decimal.  Reading it rounds up
to three times: the digits that fit 64 binary digits make a first number, which a power of
ten multiplies or divides.
-/

namespace Timetable
namespace Json

open Text (decimal)

/-- How numbers with a fraction are written: positionally while the power of ten of their
leading digit lies between the two bounds. -/
structure FloatFormat where
  leastPositional : Int
  greatestPositional : Int

/-- Numbers are written positionally from 0.00001 up to 16 digits before the point. -/
def floatFormat : FloatFormat :=
  ⟨-5, 15⟩

/-- Write digits times a power of ten with a point and at least one digit on either side. -/
def positional (digits : List Char) (exponent : Int) : List Char :=
  if 0 ≤ exponent then
    digits ++ List.replicate exponent.toNat '0' ++ ['.', '0']
  else
    let places := (-exponent).toNat
    let padded := List.replicate (places + 1 - digits.length) '0' ++ digits
    padded.take (padded.length - places) ++ '.' :: padded.drop (padded.length - places)

/-- Write digits with a point after the first one and a signed power of ten. -/
def scientific (digits : List Char) (leading : Int) : List Char :=
  let rest := digits.drop 1
  digits.take 1 ++ (if rest.isEmpty then [] else '.' :: rest) ++ 'e' ::
    (if leading < 0 then '-' else '+') :: decimal leading.natAbs

/-- Write a decimal given by its digits and the power of ten of the last one. -/
def FloatFormat.chars (f : FloatFormat) (digits : Nat) (exponent : Int) : List Char :=
  let digits := decimal digits
  let leading := exponent + (digits.length - 1 : Nat)
  if f.leastPositional ≤ leading ∧ leading ≤ f.greatestPositional then
    positional digits exponent
  else
    scientific digits leading

/-- Write a finite number in binary floating point. -/
def floatChars (x : Float) : List Char :=
  let bits := x.toBits.toNat
  let sign := if bits / Nat.pow 2 63 = 1 then ['-'] else []
  let exponent := bits / Nat.pow 2 52 % Nat.pow 2 11
  let fraction := bits % Nat.pow 2 52
  if exponent = 0 ∧ fraction = 0 then
    sign ++ ['0', '.', '0']
  else
    match (RoundingInterval.ofFields exponent fraction).shortest? with
    | some (digits, power) => sign ++ floatFormat.chars digits power
    | none => sign

/-- Divide by a power of ten, by at most 308 places at a time. -/
def divideByPower (x : Float) (places : Nat) : Float :=
  if places ≤ 308 then
    x / Float.ofScientific 1 false places
  else if x == 0 then
    x
  else
    divideByPower (x / Float.ofScientific 1 false 308) (places - 308)
termination_by places

/-- Multiply by a power of ten; a result outside the format is refused. -/
def scaleByPower? (x : Float) (exponent : Int) : Option Float :=
  if exponent < 0 then
    some (divideByPower x (-exponent).toNat)
  else if exponent ≤ 308 then
    let product := x * Float.ofScientific 1 false exponent.toNat
    if product.isFinite then some product else none
  else if x == 0 then
    some x
  else
    none

/-- The digits of a numeral as far as they make a number of 64 binary digits, and the
number of digits left over. -/
def significand (start : Nat) : List Char → Nat × Nat
  | [] => (start, 0)
  | c :: cs =>
      let next := 10 * start + (c.toNat - '0'.toNat)
      if next < Nat.pow 2 64 then significand next cs else (start, cs.length + 1)

/-- Read a number given by its sign, the digits before and after the point, and its power
of ten.  Digits before the point that are left over count as places; those after it do not
count. -/
def readFloat? (negative : Bool) (whole fraction : List Char) (exponent : Int) :
    Option Float :=
  let (digits, left) := significand 0 whole
  let (digits, unused) := significand digits fraction
  let shift : Int := exponent + left - (fraction.length - unused : Nat)
  (scaleByPower? (Float.ofNat digits) shift).map fun x => if negative then -x else x

end Json
end Timetable
