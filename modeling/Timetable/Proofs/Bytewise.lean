import Timetable.Cron.Parser
import Timetable.Proofs.Rule.Bytewise

/-!
# No cut divides a character

Rules, cron expressions, properties and literals of time can be read by cutting their texts at
bytes.  A cut that is out of bounds, or does not lie between two characters, would leave such a
reader without any answer.  `byte_cuts_never_fail` says that this happens for no text: the
readers by bytes give what the readers by characters give, which have an answer for all texts.
-/

namespace Timetable

open Text (trim lower words byteLength LiesIn)
open Bytewise (answer cut cut_eq)

namespace Cron

variable {cs : List Char}

/-- The words of a text, each cut out at its byte range. -/
def cutWords (cs : List Char) : Bytewise (Located Fault) (List Piece) :=
  (words cs).mapM fun p => do
    let chars ← cut p.span.start p.span.stop cs
    return ⟨p.start, chars⟩

/-- Read the five to seven words of a text. -/
def ofWords (cs : List Char) : List Piece → Except (Located Fault) Cron
  | [minutes, hours, daysOfMonth, months, daysOfWeek] =>
      ofPieces none minutes hours daysOfMonth months daysOfWeek none
  | [seconds, minutes, hours, daysOfMonth, months, daysOfWeek] =>
      ofPieces (some seconds) minutes hours daysOfMonth months daysOfWeek none
  | [seconds, minutes, hours, daysOfMonth, months, daysOfWeek, years] =>
      ofPieces (some seconds) minutes hours daysOfMonth months daysOfWeek (some years)
  | ps => .error ⟨.wrongFieldCount ps.length, ⟨0, byteLength cs⟩⟩

/-- Read the five to seven fields of a text. -/
def readFieldsByBytes (cs : List Char) : Bytewise (Located Fault) Cron := do
  let ps ← cutWords cs
  answer (ofWords cs ps)

/-- Read a cron expression from a text that is not blank. -/
def readByBytes (cs : List Char) : Bytewise (Located Fault) Cron :=
  let name := trim cs
  if name.head? = some '@' then
    match aliases.find? fun entry => entry.1.toList == lower name with
    | some entry => readFieldsByBytes entry.2.toList
    | none => answer (.error ⟨.unknownAlias (String.ofList name), ⟨0, byteLength cs⟩⟩)
  else
    readFieldsByBytes cs

/-- Read a cron expression. -/
def parseByBytes (text : String) : Bytewise Diagnostic Cron :=
  let cs := text.toList
  if (trim cs).isEmpty then
    answer (.error (.argument "cron expression is empty"))
  else
    (readByBytes cs).adapt fun fault => .cron fault.value.message ⟨fault.span, text⟩

theorem cutWords_eq (cs : List Char) : cutWords cs = pure (words cs) := by
  have hcut (ps : List Piece) (h : ∀ p ∈ ps, LiesIn cs p) :
      (ps.mapM fun p => do
        let chars ← cut p.span.start p.span.stop cs
        return ⟨p.start, chars⟩ : Bytewise (Located Fault) (List Piece)) = pure ps := by
    induction ps with
    | nil => rfl
    | cons p ps ih =>
        obtain ⟨hp, hps⟩ := List.forall_mem_cons.mp h
        rw [List.mapM_cons, cut_eq (Text.slice?_of_liesIn hp), ih hps]
        rfl
  exact hcut _ fun p hp => (((Text.listsAll_words cs).mem_iff p).mp hp).liesIn

theorem readFieldsByBytes_eq (cs : List Char) :
    readFieldsByBytes cs = answer (readFields cs) := by
  rw [readFieldsByBytes, cutWords_eq, pure_bind]
  rfl

theorem readByBytes_eq (cs : List Char) : readByBytes cs = answer (read cs) := by
  unfold readByBytes read
  dsimp only
  split
  next =>
    cases aliases.find? fun entry => entry.1.toList == lower (trim cs) with
    | none => rfl
    | some entry => exact readFieldsByBytes_eq entry.2.toList
  next => exact readFieldsByBytes_eq cs

/-- A cron expression is read by bytes as it is by characters. -/
theorem parseByBytes_eq (text : String) : parseByBytes text = answer (parse text) := by
  unfold parseByBytes parse
  dsimp only
  split
  next => rfl
  next => rw [readByBytes_eq, Bytewise.adapt_answer]

end Cron

open Civil (DateTime)

/-- Whatever a text is, all cuts that its readers make lie in it and between two characters. -/
theorem byte_cuts_never_fail (text : String) :
    (Rule.parseByBytes text).run = some (Rule.parse text) ∧
      (Cron.parseByBytes text).run = some (Cron.parse text) ∧
      (Bytewise.tokenize text.toList).run = some (Property.readAll 0 text.toList) ∧
      DateTime.ofStamp?ByBytes text.toList = some (DateTime.ofStamp? text.toList) := by
  rw [Rule.parseByBytes_eq, Cron.parseByBytes_eq, Bytewise.tokenize_eq]
  exact ⟨rfl, rfl, rfl, DateTime.ofStamp?ByBytes_eq text.toList⟩

end Timetable
