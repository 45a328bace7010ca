import Std.Time.Zoned
import Timetable.CommandLine.Program

/-!
# The program

The outer layer of the command line: the arguments, the clock and the two output streams.
-/

open Timetable Civil

/-- The present time of the local clock. -/
def presentTime : IO DateTime := do
  let now ← Std.Time.PlainDateTime.now
  let reading := DateTime.ofReading? now.year.toInt now.month.val.toNat now.day.val.toNat
    now.time.hour.val.toNat now.time.minute.val.toNat now.time.second.val.toNat
    now.time.nanosecond.val.toNat
  match reading with
  | some t => return t
  | none => throw (IO.userError "the clock is outside the calendar")

/-- Run the program on its arguments at the present time. -/
def main (arguments : List String) : IO UInt32 := do
  let outcome := CommandLine.run arguments (← presentTime)
  IO.print outcome.output
  IO.eprint outcome.errors
  return outcome.code.toUInt32
