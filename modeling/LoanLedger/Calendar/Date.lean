import LoanLedger.Fault

/-!
Dates of the proleptic Gregorian calendar. A date is the number of its day, counted from 1 March of
the year 0, so that order and distance are those of integers; year, month and day are a view.
-/

set_option autoImplicit false
set_option relaxedAutoImplicit false

namespace LoanLedger

/-- A day between -262143-01-01 and +262142-12-31. -/
structure Date where
  day : Int
  first_le : -95745824 ≤ day
  le_last : day ≤ 95745704
  deriving DecidableEq, Repr

/-- Year, month and day of the month. -/
structure Civil where
  year : Int
  month : Int
  day : Int
  deriving DecidableEq, Repr

/-- The number of the day that a civil date names. Years start in March here, so that the leap day
is the last of its year; 400 years have 146097 days. -/
def Civil.dayNumber (c : Civil) : Int :=
  let y := if c.month ≤ 2 then c.year - 1 else c.year
  let era := y / 400
  let yearOfEra := y % 400
  let dayOfYear := (153 * ((c.month + 9) % 12) + 2) / 5 + c.day - 1
  era * 146097 + (yearOfEra * 365 + yearOfEra / 4 - yearOfEra / 100 + dayOfYear)

/-- The civil date of a day. -/
def Civil.ofDayNumber (n : Int) : Civil :=
  let era := n / 146097
  let dayOfEra := n % 146097
  let yearOfEra :=
    (dayOfEra - dayOfEra / 1460 + dayOfEra / 36524 - dayOfEra / 146096) / 365
  let dayOfYear := dayOfEra - (365 * yearOfEra + yearOfEra / 4 - yearOfEra / 100)
  let m := (5 * dayOfYear + 2) / 153
  let month := if m < 10 then m + 3 else m - 9
  let year := yearOfEra + era * 400
  ⟨if month ≤ 2 then year + 1 else year, month, dayOfYear - (153 * m + 2) / 5 + 1⟩

namespace Date

instance : LE Date := ⟨fun a b => a.day ≤ b.day⟩

instance : LT Date := ⟨fun a b => a.day < b.day⟩

instance (a b : Date) : Decidable (a ≤ b) := inferInstanceAs (Decidable (a.day ≤ b.day))

instance (a b : Date) : Decidable (a < b) := inferInstanceAs (Decidable (a.day < b.day))

theorem le_iff {a b : Date} : a ≤ b ↔ a.day ≤ b.day := Iff.rfl

theorem lt_iff {a b : Date} : a < b ↔ a.day < b.day := Iff.rfl

theorem ext_day {a b : Date} (h : a.day = b.day) : a = b := by
  cases a
  cases b
  simpa using h

theorem le_total (a b : Date) : a ≤ b ∨ b ≤ a := Int.le_total a.day b.day

theorem le_trans {a b c : Date} (hab : a ≤ b) (hbc : b ≤ c) : a ≤ c := Int.le_trans hab hbc

theorem not_le_iff {a b : Date} : ¬a ≤ b ↔ b < a := Int.not_le

/-- The date with the given day number, if it is in range. -/
def ofDay? (n : Int) : Option Date :=
  if h : -95745824 ≤ n ∧ n ≤ 95745704 then some ⟨n, h.1, h.2⟩ else none

/-- Year, month and day of a date. -/
def civil (d : Date) : Civil := Civil.ofDayNumber d.day

/-- The date that a civil date names. A civil date exists exactly when the calendar gives it back
from its day number. -/
def ofCivil? (c : Civil) : Option Date :=
  if Civil.ofDayNumber c.dayNumber = c then ofDay? c.dayNumber else none

/-- The days from `a` to `b`, negative when `b` is the earlier one. -/
def daysUntil (a b : Date) : Int := b.day - a.day

theorem daysUntil_pos_iff {a b : Date} : 0 < a.daysUntil b ↔ a < b := Int.sub_pos

@[simp] theorem ofDay?_day (d : Date) : ofDay? d.day = some d := by
  have h : -95745824 ≤ d.day ∧ d.day ≤ 95745704 := ⟨d.first_le, d.le_last⟩
  unfold ofDay?
  rw [dif_pos h]

/-- The date `n` days earlier. -/
def minusDays (d : Date) (n : Nat) : Except Fault Date :=
  match ofDay? (d.day - n) with
  | some e => .ok e
  | none => .error .dateUnderflow

/-- The earlier of two dates. -/
def min (a b : Date) : Date := if a ≤ b then a else b

example : (Civil.mk (-262143) 1 1).dayNumber = -95745824 := by decide
example : (Civil.mk 262142 12 31).dayNumber = 95745704 := by decide
example : Civil.ofDayNumber (Civil.mk 2024 2 29).dayNumber = ⟨2024, 2, 29⟩ := by decide
example : ofCivil? ⟨2023, 2, 29⟩ = none := by decide

end Date
end LoanLedger
