import Timetable.Text.Span

/-!
# Diagnostics

What is reported when a text or a set of values is refused.  A fault in the text of a rule
or of a cron expression comes with the text and the byte range at fault; a bad argument has
neither.

`rich` renders a fault with its text and an underline below the byte range.
-/

namespace Timetable

/-- A place in a text. -/
structure Place where
  span : Span
  input : String
  deriving DecidableEq

/-- A report of a refusal. -/
inductive Diagnostic where
  | rule (message : String) (place : Place)
  | cron (message : String) (place : Place)
  | argument (message : String)
  deriving DecidableEq

namespace Diagnostic

/-- What is wrong, in one line. -/
def message : Diagnostic → String
  | .rule message _ => message
  | .cron message _ => message
  | .argument message => message

/-- The text and range at fault, unless the fault is in an argument. -/
def place? : Diagnostic → Option Place
  | .rule _ place => some place
  | .cron _ place => some place
  | .argument _ => none

/-- The range at fault. -/
def span? (d : Diagnostic) : Option Span :=
  d.place?.map Place.span

/-- Whether the fault is in the format of a text. -/
def isFormatError (d : Diagnostic) : Bool :=
  d.place?.isSome

/-- The underline of a range: one blank for every byte before it and two for the indent of
the text above, then one caret for every byte of it, but at least one. -/
def underline (s : Span) : List Char :=
  List.replicate (s.start + 2) ' ' ++ List.replicate (max s.length 1) '^'

/-- The message, followed by the text at fault and its underline if there are any. -/
def rich (d : Diagnostic) : String :=
  match d.place? with
  | some place =>
      "error: " ++ d.message ++ "\n  " ++ place.input ++ "\n" ++
        String.ofList (underline place.span)
  | none => "error: " ++ d.message

end Diagnostic
end Timetable
