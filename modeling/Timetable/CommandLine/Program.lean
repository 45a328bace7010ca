import Timetable.CommandLine.Options
import Timetable.Schedule

/-!
# The command line program

The program reads an expression and shows its next datetimes, its canonical text or its
parts.  `run` is the whole of it as a function of the arguments and of the present time,
which counts only when the arguments do not say where to start.
-/

namespace Timetable
namespace CommandLine

open Civil

/-- What a run leaves behind. -/
structure Outcome where
  code : Nat
  output : String
  errors : String
  deriving DecidableEq

/-- A success that leaves a line of output. -/
def Outcome.success (line : String) : Outcome :=
  ⟨0, line ++ "\n", ""⟩

/-- A failure that leaves a line of errors. -/
def Outcome.failure (code : Nat) (line : String) : Outcome :=
  ⟨code, "", line ++ "\n"⟩

/-- How the program is called. -/
def usageText : String :=
  "Usage: recur [OPTIONS] [EXPRESSION]"

/-- What the program is for and what options it has. -/
def helpText : String :=
  "Occurrences of RRULEs and cron expressions\n\n" ++ usageText ++ "\n\nOptions:\n" ++
    "      --cron         Treat the expression as cron instead of RRULE\n" ++
    "  -n, --n <N>        Number of occurrences to show [default: 1]\n" ++
    "      --from <FROM>  Start timestamp (default: now, local civil time)\n" ++
    "      --json         Output as JSON\n" ++
    "      --check        Validate expression without computing\n" ++
    "      --parse        Show the parsed structure as JSON\n" ++
    "      --canonical    Print the canonical text form\n" ++
    "  -v, --verbose...   More log output on stderr\n" ++
    "  -h, --help         Print help\n" ++
    "  -V, --version      Print version"

/-- The program's name and version. -/
def versionText : String :=
  "recur 0.1.0"

/-- What a run leaves behind that stops at its arguments. -/
def Stop.outcome : Stop → Outcome
  | .usage => .failure 2 usageText
  | .help => .success helpText
  | .version => .success versionText

/-- No more datetimes than this are shown. -/
def greatestNumber : Nat := 1000

/-- Read a start in the written form of a datetime or as a timestamp literal. -/
def readStart? (text : String) : Option DateTime :=
  (DateTime.ofIso? text.toList).or (DateTime.ofStamp? text.toList)

/-- Show the datetimes of a schedule. -/
def showFeed (o : Options) (s : Schedule) (start : DateTime) : Outcome :=
  let number := o.number.getD 1
  let warning :=
    if greatestNumber < number then "warning: capped at 1000 occurrences\n" else ""
  let items := ((s.feed start).take (min number greatestNumber)).items
  if items.isEmpty then
    ⟨0, "", warning ++ "no upcoming occurrences\n"⟩
  else if o.json then
    ⟨0, (Json.array (items.map .datetime)).compact ++ "\n", warning⟩
  else
    ⟨0, String.join (items.map fun t => t.iso ++ "\n"), warning⟩

/-- Do what the options ask for with a schedule. -/
def showSchedule (o : Options) (s : Schedule) (now : DateTime) : Outcome :=
  if o.check then
    .success "✓ valid"
  else if o.parse then
    .success s.toJson.indented
  else if o.canonical then
    .success s.text
  else
    match o.start with
    | none => showFeed o s now
    | some text =>
        match readStart? text with
        | some start => showFeed o s start
        | none => .failure 2 ("error: invalid --from timestamp '" ++ text ++ "'")

/-- Run the program with its options. -/
def runWith (o : Options) (now : DateTime) : Outcome :=
  match o.expression with
  | none => .failure 2 "error: no expression provided"
  | some text =>
      match Schedule.parse o.cron text with
      | .error d => .failure 1 d.rich
      | .ok s => showSchedule o s now

/-- Run the program with its arguments. -/
def run (arguments : List String) (now : DateTime) : Outcome :=
  match readOptions arguments with
  | .error stop => stop.outcome
  | .ok o => runWith o now

end CommandLine
end Timetable
