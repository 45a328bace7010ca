import Timetable.Json.Basic

/-!
# Reading JSON

A JSON text is read from its first to its last character.  A number without a point and an
exponent is a whole number if it fits 64 binary digits, or 63 after a minus; zero after a
minus is not one.

Every value takes up at least one character, so the length of the text bounds the depth to
which values are nested.
-/

namespace Timetable
namespace Json

/-- Drop the blanks that may stand between the parts of a JSON text. -/
def skipBlanks (cs : List Char) : List Char :=
  cs.dropWhile fun c => c == ' ' || c == '\n' || c == '\r' || c == '\t'

/-- Drop an expected word. -/
def dropWord? (word : String) (cs : List Char) : Option (List Char) :=
  let n := word.toList.length
  if cs.take n = word.toList then some (cs.drop n) else none

/-- The value of a hexadecimal digit. -/
def hexDigit? (c : Char) : Option Nat :=
  if c.isDigit then some (c.toNat - '0'.toNat)
  else if 'a' ≤ c ∧ c ≤ 'f' then some (c.toNat - 'a'.toNat + 10)
  else if 'A' ≤ c ∧ c ≤ 'F' then some (c.toNat - 'A'.toNat + 10)
  else none

/-- A unit of 16 bits in four hexadecimal digits. -/
def unit? (a b c d : Char) : Option Nat := do
  return 4096 * (← hexDigit? a) + 256 * (← hexDigit? b) + 16 * (← hexDigit? c) + (← hexDigit? d)

/-- The character of a single unit. -/
def charOfUnit? (unit : Nat) : Option Char :=
  if 0xd800 ≤ unit ∧ unit < 0xe000 then none else some (Char.ofNat unit)

/-- The character of a pair of units. -/
def charOfUnits? (high low : Nat) : Option Char :=
  if 0xd800 ≤ high ∧ high < 0xdc00 ∧ 0xdc00 ≤ low ∧ low < 0xe000 then
    some (Char.ofNat (0x10000 + 0x400 * (high - 0xd800) + (low - 0xdc00)))
  else
    none

/-- The character that a letter after a backslash stands for. -/
def unescape? : Char → Option Char
  | '"' => some '"'
  | '\\' => some '\\'
  | '/' => some '/'
  | 'b' => some '\x08'
  | 'f' => some '\x0c'
  | 'n' => some '\n'
  | 'r' => some '\r'
  | 't' => some '\t'
  | _ => none

/-- Read the rest of a string up to its closing quote. -/
def readString? : List Char → Option (List Char × List Char)
  | [] => none
  | '"' :: cs => some ([], cs)
  | '\\' :: 'u' :: a :: b :: c :: d :: cs => do
      let unit ← unit? a b c d
      match charOfUnit? unit with
      | some x =>
          let (rest, cs) ← readString? cs
          return (x :: rest, cs)
      | none =>
          match cs with
          | '\\' :: 'u' :: a :: b :: c :: d :: cs =>
              let x ← charOfUnits? unit (← unit? a b c d)
              let (rest, cs) ← readString? cs
              return (x :: rest, cs)
          | _ => none
  | '\\' :: c :: cs => do
      let x ← unescape? c
      let (rest, cs) ← readString? cs
      return (x :: rest, cs)
  | c :: cs =>
      if c.toNat < 32 then
        none
      else
        (readString? cs).map fun (rest, cs) => (c :: rest, cs)

/-- Read the power of ten that may follow a number. -/
def readExponent? (cs : List Char) : Option (Option Int × List Char) :=
  match cs with
  | c :: cs =>
      if c == 'e' || c == 'E' then
        let (negative, cs) : Bool × List Char := match cs with
          | '+' :: cs => (false, cs)
          | '-' :: cs => (true, cs)
          | cs => (false, cs)
        (Text.digits? (cs.takeWhile Char.isDigit)).map fun n =>
          (some (if negative then -(n : Int) else n), cs.dropWhile Char.isDigit)
      else
        some (none, c :: cs)
  | [] => some (none, [])

/-- Read the digits that may follow a number after a point. -/
def readFraction? (cs : List Char) : Option (List Char × List Char) :=
  match cs with
  | '.' :: cs =>
      let digits := cs.takeWhile Char.isDigit
      if digits.isEmpty then none else some (digits, cs.dropWhile Char.isDigit)
  | cs => some ([], cs)

/-- The whole number with a sign and a size, if it is kept as one. -/
def wholeNumber? (negative : Bool) (size : Nat) : Option Int :=
  if negative then
    if 0 < size ∧ size ≤ Nat.pow 2 63 then some (-(size : Int)) else none
  else
    if size < Nat.pow 2 64 then some size else none

/-- Read a number. -/
def readNumber? (cs : List Char) : Option (Json × List Char) := do
  let (negative, cs) : Bool × List Char := match cs with
    | '-' :: cs => (true, cs)
    | cs => (false, cs)
  let whole := cs.takeWhile Char.isDigit
  let size ← Text.digits? whole
  if whole.head? = some '0' ∧ 1 < whole.length then none
  let (fraction, cs) ← readFraction? (cs.dropWhile Char.isDigit)
  let (exponent, cs) ← readExponent? cs
  let integer := if fraction.isEmpty && exponent.isNone then wholeNumber? negative size else none
  match integer with
  | some n => return (.integer n, cs)
  | none =>
      let x ← readFloat? negative whole fraction (exponent.getD 0)
      return (.float x, cs)

mutual

/-- Read a value; `depth` bounds how deep values may be nested. -/
def readValue? (depth : Nat) (cs : List Char) : Option (Json × List Char) :=
  match depth with
  | 0 => none
  | depth + 1 =>
      match skipBlanks cs with
      | '"' :: cs => (readString? cs).map fun (s, cs) => (.string (String.ofList s), cs)
      | '[' :: cs =>
          match skipBlanks cs with
          | ']' :: cs => some (.array [], cs)
          | cs => (readItems? depth cs).map fun (items, cs) => (.array items, cs)
      | '\x7b' :: cs =>
          match skipBlanks cs with
          | '\x7d' :: cs => some (.object [], cs)
          | cs => (readMembers? depth cs).map fun (members, cs) => (.object members, cs)
      | 't' :: cs => (dropWord? "rue" cs).map fun cs => (.bool true, cs)
      | 'f' :: cs => (dropWord? "alse" cs).map fun cs => (.bool false, cs)
      | 'n' :: cs => (dropWord? "ull" cs).map fun cs => (.null, cs)
      | cs => readNumber? cs

/-- Read the items of an array and its closing bracket. -/
def readItems? (depth : Nat) (cs : List Char) : Option (List Json × List Char) :=
  match depth with
  | 0 => none
  | depth + 1 => do
      let (item, cs) ← readValue? depth cs
      match skipBlanks cs with
      | ',' :: cs =>
          let (items, cs) ← readItems? depth cs
          return (item :: items, cs)
      | ']' :: cs => return ([item], cs)
      | _ => none

/-- Read the members of an object and its closing brace. -/
def readMembers? (depth : Nat) (cs : List Char) : Option (List (String × Json) × List Char) :=
  match depth with
  | 0 => none
  | depth + 1 => do
      let '"' :: cs := skipBlanks cs | none
      let (name, cs) ← readString? cs
      let ':' :: cs := skipBlanks cs | none
      let (value, cs) ← readValue? depth cs
      let member := (String.ofList name, value)
      match skipBlanks cs with
      | ',' :: cs =>
          let (members, cs) ← readMembers? depth cs
          return (member :: members, cs)
      | '\x7d' :: cs => return ([member], cs)
      | _ => none

end

/-- Read a JSON text. -/
def read? (cs : List Char) : Option Json := do
  let (value, rest) ← readValue? (2 * cs.length + 2) cs
  if (skipBlanks rest).isEmpty then some value else none

end Json
end Timetable
