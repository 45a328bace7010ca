/-!
# Frequencies

The unit in which a rule repeats.
-/

namespace Timetable

/-- The unit of time in which a rule repeats. -/
inductive Frequency where
  | secondly
  | minutely
  | hourly
  | daily
  | weekly
  | monthly
  | yearly
  deriving DecidableEq

namespace Frequency

/-- The seven frequencies from the finest on. -/
def all : List Frequency :=
  [.secondly, .minutely, .hourly, .daily, .weekly, .monthly, .yearly]

/-- The word that names a frequency in a rule. -/
def token : Frequency → String
  | .secondly => "SECONDLY"
  | .minutely => "MINUTELY"
  | .hourly => "HOURLY"
  | .daily => "DAILY"
  | .weekly => "WEEKLY"
  | .monthly => "MONTHLY"
  | .yearly => "YEARLY"

/-- The frequency's English name in small letters. -/
def name : Frequency → String
  | .secondly => "secondly"
  | .minutely => "minutely"
  | .hourly => "hourly"
  | .daily => "daily"
  | .weekly => "weekly"
  | .monthly => "monthly"
  | .yearly => "yearly"

/-- The frequency with the given name, in either case. -/
def ofToken? (cs : List Char) : Option Frequency :=
  all.find? fun f => f.token.toList == cs.map Char.toUpper

/-- Whether the weekdays of a rule may carry an ordinal, as in the second Monday. -/
def allowsOrdinals (f : Frequency) : Bool :=
  f = .monthly || f = .yearly

/-- The seconds of the unit of a frequency finer than a day. -/
def unitSeconds? : Frequency → Option Nat
  | .secondly => some 1
  | .minutely => some 60
  | .hourly => some 3600
  | _ => none

theorem unitSeconds?_eq_some_iff {f : Frequency} {unit : Nat} :
    f.unitSeconds? = some unit ↔
      f = .secondly ∧ unit = 1 ∨ f = .minutely ∧ unit = 60 ∨ f = .hourly ∧ unit = 3600 := by
  cases f <;> simp [unitSeconds?, eq_comm]

theorem unitSeconds?_eq_none_iff {f : Frequency} :
    f.unitSeconds? = none ↔ f ≠ .secondly ∧ f ≠ .minutely ∧ f ≠ .hourly := by
  cases f <;> simp [unitSeconds?]

@[simp] theorem ofToken?_token (f : Frequency) : ofToken? f.token.toList = some f := by
  cases f <;> rfl

end Frequency
end Timetable
