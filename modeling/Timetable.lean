import Timetable.Civil.Date
import Timetable.Civil.DateTime
import Timetable.Civil.Iso
import Timetable.Civil.Month
import Timetable.Civil.Stamp
import Timetable.Civil.Weekday
import Timetable.Civil.Year
import Timetable.Civil.YearMonth
import Timetable.CommandLine.Options
import Timetable.CommandLine.Program
import Timetable.Cron.Basic
import Timetable.Cron.Fault
import Timetable.Cron.Item
import Timetable.Cron.Kind
import Timetable.Cron.Matching
import Timetable.Cron.Parser
import Timetable.Cron.Printer
import Timetable.Cron.Search
import Timetable.Diagnostic
import Timetable.Feed
import Timetable.Json.Basic
import Timetable.Json.Number
import Timetable.Json.Reader
import Timetable.Json.Schedule
import Timetable.Json.Shortest
import Timetable.Main
import Timetable.Proofs.Civil.Calendar
import Timetable.Proofs.Civil.Order
import Timetable.Proofs.Cron.Cursor
import Timetable.Proofs.Cron.Fields
import Timetable.Proofs.Cron.Search
import Timetable.Proofs.Cron.Step
import Timetable.Proofs.Lists
import Timetable.Proofs.Rule.Clock
import Timetable.Proofs.Rule.Deadline
import Timetable.Proofs.Rule.Offers
import Timetable.Proofs.Rule.Position
import Timetable.Proofs.Rule.Sequence
import Timetable.Proofs.Rule.Spans
import Timetable.Proofs.Rule.TickByTick
import Timetable.Proofs.Rule.Ticks
import Timetable.Proofs.Rule.Validity
import Timetable.Proofs.Text.Joining
import Timetable.Proofs.Text.Reading
import Timetable.Rule.Basic
import Timetable.Rule.Clock
import Timetable.Rule.Draft
import Timetable.Rule.Fault
import Timetable.Rule.Frequency
import Timetable.Rule.Key
import Timetable.Rule.Occurrences
import Timetable.Rule.Parser
import Timetable.Rule.Period
import Timetable.Rule.Position
import Timetable.Rule.Printer
import Timetable.Rule.Property
import Timetable.Rule.Selection
import Timetable.Schedule
import Timetable.Text.Blank
import Timetable.Text.Letters
import Timetable.Text.Numeral
import Timetable.Text.Span
import Timetable.Proofs.Cron.Items
import Timetable.Proofs.Cron.Runs
import Timetable.Proofs.Cron.RoundTrip
import Timetable.Proofs.Civil.Stamp
import Timetable.Rule.Setting
import Timetable.Proofs.Rule.Properties
import Timetable.Proofs.Rule.Entering
import Timetable.Proofs.Rule.RoundTrip
import Timetable.Proofs.Cron.Sequence
import Timetable.Proofs.Rule.Bounded
import Timetable.Proofs.Rule.Members
import Timetable.Proofs.Cron.Lists
import Timetable.Proofs.Agreement
import Timetable.Proofs.Rule.Endings
import Timetable.Proofs.Rule.Units
import Timetable.Proofs.Rule.Reach
import Timetable.Proofs.Rule.Frequencies
import Timetable.Proofs.Rule.Scaling
import Timetable.Proofs.Rule.Resumption
import Timetable.Proofs.Cron.Limits
import Timetable.Proofs.Text.Numerals
import Timetable.Proofs.Civil.Literals
import Timetable.Proofs.Cron.Grammar
import Timetable.Proofs.Rule.Entries
import Timetable.Proofs.Rule.Grammar
import Timetable.Proofs.Rule.Numbering
import Timetable.Proofs.Rule.Meaning
import Timetable.Proofs.Rule.Weeks
import Timetable.Proofs.Rule.FirstOccurrence
import Timetable.Proofs.Rule.Places
import Timetable.Proofs.Rule.Rewording
import Timetable.Proofs.Cron.Days
import Timetable.Proofs.Rule.Passes
import Timetable.Proofs.Text.Spelling
import Timetable.Proofs.Civil.Spelling
import Timetable.Proofs.Rule.Spelling
import Timetable.Proofs.Rule.Respelling
import Timetable.Proofs.Text.Pieces
import Timetable.Proofs.Cron.Faults
import Timetable.Proofs.Rule.Faults
import Timetable.Proofs.Diagnostics
import Timetable.Proofs.Text.Bytes
import Timetable.Proofs.Civil.Bytewise
import Timetable.Proofs.Rule.Bytewise
import Timetable.Proofs.Bytewise
import Timetable.Proofs.Rule.Ranges
import Timetable.Proofs.Machine.Word
import Timetable.Proofs.Machine.Days
import Timetable.Proofs.Machine.Times
import Timetable.Proofs.Machine.Positions
import Timetable.Proofs.Machine.Periods
import Timetable.Proofs.Machine.Ticks
import Timetable.Proofs.Machine.Spans
import Timetable.Proofs.Machine.Occurrences
