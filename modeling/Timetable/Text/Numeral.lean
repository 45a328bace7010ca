/-!
# Decimal numerals

Whole numbers in decimal digits, written and read.  Three readers differ in the sign they
take: `digits?` none at all, `unsigned?` an optional plus, `signed?` an optional plus or
minus.  Leading zeros are accepted everywhere; a bound on the value refuses numbers that
are too large for their use.

`digits?_decimal` says that what is written is read back.
-/

namespace Timetable
namespace Text

/-- The decimal digits of a number, without leading zeros. -/
def decimal (n : Nat) : List Char :=
  Nat.toDigits 10 n

/-- The decimal digits of a number, filled up with zeros to a least width. -/
def padded (width n : Nat) : List Char :=
  List.replicate (width - (decimal n).length) '0' ++ decimal n

/-- A number with a minus in front when it is negative. -/
def signedDecimal (n : Int) : List Char :=
  if n < 0 then '-' :: decimal n.natAbs else decimal n.natAbs

/-- Read one or more digits. -/
def digits? (cs : List Char) : Option Nat :=
  if cs ≠ [] ∧ cs.all Char.isDigit then some (Nat.ofDigitChars 10 cs 0) else none

/-- Read exactly `width` digits and give the text that follows them. -/
def leadingDigits? (width : Nat) (cs : List Char) : Option (Nat × List Char) :=
  if (cs.take width).length = width then
    (digits? (cs.take width)).map fun n => (n, cs.drop width)
  else
    none

/-- Read digits after an optional plus, refusing numbers that need more than `bits`
binary digits. -/
def unsigned? (bits : Nat) (cs : List Char) : Option Nat :=
  let value := match cs with
    | '+' :: rest => digits? rest
    | _ => digits? cs
  value.filter (· < Nat.pow 2 bits)

/-- Read digits after an optional plus or minus, refusing numbers that do not fit `bits`
binary digits of which one holds the sign. -/
def signed? (bits : Nat) (cs : List Char) : Option Int :=
  let value : Option Int := match cs with
    | '+' :: rest => (digits? rest).map fun n => (n : Int)
    | '-' :: rest => (digits? rest).map fun n => -(n : Int)
    | _ => (digits? cs).map fun n => (n : Int)
  value.filter fun n =>
    -(Nat.pow 2 (bits - 1) : Int) ≤ n ∧ n < (Nat.pow 2 (bits - 1) : Int)

theorem digits?_eq_some {cs : List Char} (hne : cs ≠ []) (hall : cs.all Char.isDigit) :
    digits? cs = some (Nat.ofDigitChars 10 cs 0) := by
  simp [digits?, hne, hall]

theorem all_isDigit_decimal (n : Nat) : (decimal n).all Char.isDigit = true := by
  simp only [List.all_eq_true]
  exact fun c hc => Nat.isDigit_of_mem_toDigits (by decide) (by decide) hc

/-- A written number reads back as itself. -/
@[simp] theorem digits?_decimal (n : Nat) : digits? (decimal n) = some n := by
  have hne : decimal n ≠ [] := Nat.toDigits_ne_nil
  rw [digits?_eq_some hne (all_isDigit_decimal n)]
  simp [decimal, Nat.ofDigitChars_toDigits]

theorem all_isDigit_padded (width n : Nat) :
    (padded width n).all Char.isDigit = true := by
  have hzero : (List.replicate (width - (decimal n).length) '0').all Char.isDigit = true := by
    simp only [List.all_eq_true]
    intro c hc
    rw [List.eq_of_mem_replicate hc]
    decide
  simp [padded, List.all_append, hzero, all_isDigit_decimal]

/-- Leading zeros do not change what is read. -/
@[simp] theorem digits?_padded (width n : Nat) : digits? (padded width n) = some n := by
  have hne : padded width n ≠ [] := by
    simp [padded, decimal, Nat.toDigits_ne_nil]
  rw [digits?_eq_some hne (all_isDigit_padded width n)]
  simp [padded, decimal, Nat.ofDigitChars_append, Nat.ofDigitChars_toDigits]

end Text
end Timetable
