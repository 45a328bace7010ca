import Timetable.Civil.Stamp
import Timetable.Diagnostic
import Timetable.Rule.Draft
import Timetable.Rule.Key
import Timetable.Rule.Property
import Timetable.Text.Numeral

/-!
# Reading rules

A rule is read from text such as `FREQ=MONTHLY;BYDAY=-1FR`, with or without `RRULE:` in
front and in any case of letters.  The text is cut into properties, the properties are
entered into a draft one after the other, and the draft is built.

Of several faults the first one found is reported: a segment that is no property, a
repeated name, a missing or unknown frequency, the first property that cannot be entered,
two endings.  Each comes with the byte range of the segment at fault.
-/

namespace Timetable

open Civil
open Text (unsigned? signed? items trim upper isAscii)

/-- Read the numbers of a list. -/
def ValueRange.readList (range : ValueRange) (cs : List Char) :
    Except Rule.Fault (List Int) :=
  (items cs).mapM fun item =>
    let item := trim item
    match signed? 32 item with
    | none => .error (.invalidValue range.name (String.ofList item))
    | some n => if range.contains n then .ok n else .error (.outOfRange range n)

/-- Read a weekday of two letters as the value of a property or part of it. -/
def Key.readWeekday (key : Key) (cs : List Char) : Except Rule.Fault Weekday :=
  match Weekday.ofToken? cs with
  | some d => .ok d
  | none => .error (.invalidWeekday key.name (String.ofList cs))

namespace WeekdaySelector

/-- Read a weekday with an ordinal in front or without one. -/
def read (frequency : Frequency) (item : List Char) : Except Rule.Fault WeekdaySelector := do
  let malformed : Rule.Fault := .invalidValue Key.weekdays.name (String.ofList item)
  if item.length < 2 || !isAscii item then
    .error malformed
  else
    let ordinal := item.take (item.length - 2)
    let weekday ← Key.weekdays.readWeekday (item.drop (item.length - 2))
    if ordinal.isEmpty then
      return ⟨weekday, none⟩
    else
      match signed? 32 ordinal with
      | none => .error malformed
      | some n =>
          if !ValueRange.ordinal.contains n then
            .error (.outOfRange .ordinal n)
          else if !frequency.allowsOrdinals then
            .error (.ordinalNotAllowed frequency)
          else
            return ⟨weekday, some n⟩

/-- Read a list of weekdays. -/
def readList (frequency : Frequency) (cs : List Char) :
    Except Rule.Fault (List WeekdaySelector) :=
  (items cs).mapM fun item => read frequency (trim item)

end WeekdaySelector

namespace Draft

/-- Enter the value of a property into a draft. -/
def enter (d : Draft) (key : Key) (value : List Char) : Except Rule.Fault Draft :=
  let invalid : Rule.Fault := .invalidValue key.name (String.ofList value)
  match key with
  | .frequency => .ok d
  | .interval =>
      match unsigned? 32 value with
      | none => .error invalid
      | some 0 => .error .zeroInterval
      | some n => .ok { d with interval := n }
  | .count =>
      match unsigned? 32 value with
      | none => .error invalid
      | some n => .ok { d with count := some n }
  | .deadline =>
      match DateTime.ofStamp? value with
      | none => .error (.invalidTimestamp (String.ofList value))
      | some t => .ok (d.withDeadline t)
  | .weekStart =>
      (key.readWeekday value).map fun weekStart => { d with weekStart }
  | .months =>
      (ValueRange.month.readList value).map fun numbers =>
        { d with months := numbers.filterMap fun n => Month.ofNumber? n.toNat }
  | .yearDays =>
      if d.frequency = .yearly then
        (ValueRange.yearDay.readList value).map fun yearDays => { d with yearDays }
      else
        .error (.notAllowed key.name d.frequency)
  | .monthDays =>
      if d.frequency ≠ .weekly then
        (ValueRange.monthDay.readList value).map fun monthDays => { d with monthDays }
      else
        .error (.notAllowed key.name d.frequency)
  | .weekdays =>
      (WeekdaySelector.readList d.frequency value).map fun weekdays => { d with weekdays }
  | .hours =>
      (ValueRange.hour.readList value).map fun ns => { d with hours := ns.map Int.toNat }
  | .minutes =>
      (ValueRange.minute.readList value).map fun ns => { d with minutes := ns.map Int.toNat }
  | .seconds =>
      (ValueRange.second.readList value).map fun ns => { d with seconds := ns.map Int.toNat }
  | .setPositions =>
      (ValueRange.setPosition.readList value).map fun setPositions => { d with setPositions }

/-- Enter a property into a draft. -/
def enterProperty (d : Draft) (p : Property) : Except (Located Rule.Fault) Draft :=
  let entered : Except Rule.Fault Draft := match Key.ofName? p.name with
    | none => .error (.unknownProperty (String.ofList p.name))
    | some key => d.enter key p.value
  entered.mapError fun fault => ⟨fault, p.span⟩

end Draft

namespace Property

/-- Whether a property has the name of a key. -/
def hasKey (p : Property) (key : Key) : Bool :=
  Key.ofName? p.name = some key

/-- Read the frequency among the properties of a rule. -/
def readFrequency (whole : Span) (ps : List Property) :
    Except (Located Rule.Fault) Frequency :=
  match ps.find? fun p => p.hasKey .frequency with
  | none => .error ⟨.missingFrequency, whole⟩
  | some p =>
      match Frequency.ofToken? p.value with
      | none => .error ⟨.unknownFrequency (String.ofList p.value), p.span⟩
      | some frequency => .ok frequency

/-- The later one of the two endings, if there are two. -/
def secondEnding? (ps : List Property) : Option Property :=
  match ps.filter fun p => p.hasKey .count || p.hasKey .deadline with
  | [_, second] => some second
  | _ => none

end Property

namespace Rule

/-- What may stand in front of a rule, in any case of letters. -/
def header : List Char :=
  "RRULE:".toList

/-- The text of a rule without the header, and the byte at which it begins. -/
def body (cs : List Char) : Nat × List Char :=
  if upper (cs.take header.length) = header then
    (header.length, cs.drop header.length)
  else
    (0, cs)

/-- Make a rule of the properties of a text; `whole` is the range of the text. -/
def ofProperties (whole : Span) (ps : List Property) : Except (Located Rule.Fault) Rule := do
  if let some p := Property.findRepeated? [] ps then
    throw ⟨.duplicateProperty (String.ofList p.name), p.span⟩
  let frequency ← Property.readFrequency whole ps
  let draft ← ps.foldlM Draft.enterProperty (Draft.ofFrequency frequency)
  if let some p := Property.secondEnding? ps then
    throw ⟨.twoEndings, p.span⟩
  draft.build.mapError fun fault => ⟨fault, whole⟩

/-- Read a rule from a text that is not blank. -/
def read (cs : List Char) : Except (Located Rule.Fault) Rule := do
  let (start, body) := body cs
  let ps ← Property.readAll start body
  ofProperties ⟨0, Text.byteLength cs⟩ ps

/-- Read a rule. -/
def parse (text : String) : Except Diagnostic Rule :=
  let cs := text.toList
  if (trim cs).isEmpty then
    .error (.argument "rule text is empty")
  else
    (read cs).mapError fun fault => .rule fault.value.message ⟨fault.span, text⟩

end Rule
end Timetable
