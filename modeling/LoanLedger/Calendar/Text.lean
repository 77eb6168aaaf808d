import LoanLedger.Calendar.Date
import LoanLedger.Text.Blank
import LoanLedger.Text.Digits

/-!
Dates as text, `2024-01-05`, and the calendar day of a point in time such as
`2024-01-31T23:30:00-01:00`. Years outside 0 to 9999 are written with a sign.
-/

set_option autoImplicit false
set_option relaxedAutoImplicit false

namespace LoanLedger

open Text.Digits (padded)

/-- The characters of a year: four digits, with a sign outside 0 to 9999. -/
def Civil.yearChars (y : Int) : List Char :=
  if y < 0 then '-' :: padded 4 y.natAbs
  else if 9999 < y then '+' :: padded 4 y.natAbs
  else padded 4 y.natAbs

/-- The characters of a civil date. -/
def Civil.chars (c : Civil) : List Char :=
  yearChars c.year ++ '-' :: padded 2 c.month.natAbs ++ '-' :: padded 2 c.day.natAbs

namespace Date

/-- The characters of a date. -/
def chars (d : Date) : List Char := d.civil.chars

instance : ToString Date := ⟨fun d => String.ofList d.chars⟩

/-- A number of at most `width` digits at the front, and the rest. -/
def number? (width : Nat) (cs : List Char) : Option (Nat × List Char) :=
  let ds := (Text.Digits.split cs).1.take width
  if ds = [] then none else some (Text.Digits.value ds, cs.drop ds.length)

/-- A year at the front: at most four digits, or a sign and any number of digits. -/
def year? : List Char → Option (Int × List Char)
  | '-' :: cs => (number? cs.length cs).map fun (n, r) => (-(n : Int), r)
  | '+' :: cs => (number? cs.length cs).map fun (n, r) => ((n : Int), r)
  | cs => (number? 4 cs).map fun (n, r) => ((n : Int), r)

/-- What follows a mark, blanks around it aside. -/
def afterMark? (mark : Char) (cs : List Char) : Option (List Char) :=
  match Text.Blank.trimLeft cs with
  | [] => none
  | c :: r => if c = mark then some (Text.Blank.trimLeft r) else none

/-- A date at the front of a text, and the rest. Leading zeros may be missing, and blanks may stand
before the numbers and the hyphens. -/
def front? (cs : List Char) : Option (Date × List Char) := do
  let (y, r) ← year? (Text.Blank.trimLeft cs)
  let (m, r) ← number? 2 (← afterMark? '-' r)
  let (d, r) ← number? 2 (← afterMark? '-' r)
  let date ← ofCivil? ⟨y, m, d⟩
  some (date, r)

/-- The date that a text names, blanks after it aside. -/
def ofChars? (cs : List Char) : Option Date := do
  let (date, r) ← front? cs
  if Text.Blank.trimLeft r = [] then some date else none

/-- The date that a text names. -/
def ofText? (s : String) : Option Date := ofChars? s.toList

/-- Exactly `n` digits at the front, and the rest. -/
def fixed? (n : Nat) (cs : List Char) : Option (Nat × List Char) :=
  let ds := cs.take n
  if ds.length = n then (Text.Digits.number? ds).map fun v => (v, cs.drop n) else none

/-- The hours and minutes of a zone, as minutes, and the rest. Colons and blanks may part them. -/
def offset? (cs : List Char) : Option (Nat × List Char) := do
  let (h, r) ← fixed? 2 cs
  let (m, r) ← fixed? 2 (r.dropWhile fun c => c = ':' || Text.Blank.isBlank c)
  if 59 < m ∨ 24 * 60 ≤ h * 60 + m then none
  some (h * 60 + m, r)

/-- The minutes that a zone is ahead of universal time, and the rest: `UTC` in any case, `Z` in any
case, or a sign with hours and minutes. -/
def zone? (cs : List Char) : Option (Int × List Char) :=
  if (cs.take 3).map Char.toLower = ['u', 't', 'c'] then some (0, cs.drop 3)
  else
    match cs with
    | [] => none
    | c :: r =>
      if c = 'Z' ∨ c = 'z' then some (0, r)
      else if c = '+' then (offset? r).map fun (m, r) => ((m : Int), r)
      else if c = '-' ∨ c = '\u2212' then (offset? r).map fun (m, r) => (-(m : Int), r)
      else none

/-- Skip a fraction of a second. -/
def skipFraction? : List Char → Option (List Char)
  | '.' :: r => if (Text.Digits.split r).1 = [] then none else some (Text.Digits.split r).2
  | r => some r

/-- The time of day at the front of a text, in minutes, and the rest. Seconds are not counted; a
leap second is allowed. -/
def clock? (cs : List Char) : Option (Nat × List Char) := do
  let (h, r) ← number? 2 (Text.Blank.trimLeft cs)
  let (m, r) ← number? 2 (← afterMark? ':' r)
  let (s, r) ← number? 2 (← afterMark? ':' r)
  if 23 < h ∨ 59 < m ∨ 60 < s then none
  some (h * 60 + m, ← skipFraction? r)

/-- The day, in universal time, of a point in time: date, `T` or a blank, time of day and zone. -/
def ofTimestampChars? (cs : List Char) : Option Date := do
  let (date, r) ← front? cs
  let r ← match r with
    | c :: r => if c = 'T' ∨ c = 't' ∨ c = ' ' then some r else none
    | [] => none
  let (minutes, r) ← clock? r
  let (ahead, r) ← zone? (Text.Blank.trimLeft r)
  if Text.Blank.trimLeft r ≠ [] then none
  ofDay? (date.day + ((minutes : Int) - ahead) / (24 * 60))

/-- The day that a text names: that of a point in time when it holds a `T`, else that of a date. -/
def ofMoment? (s : String) : Option Date :=
  if s.toList.contains 'T' then ofTimestampChars? s.toList else ofText? s

example : (ofText? "2024-1-5").map chars = some "2024-01-05".toList := by decide +kernel
example : (ofText? "-0001-12-31").map chars = some "-0001-12-31".toList := by decide +kernel
example : (ofMoment? "2024-02-01T02:00:00+05:00").map chars = some "2024-01-31".toList := by
  decide +kernel
example : (ofMoment? "2024-1-31T23:30:0.5 -01 00").map chars = some "2024-02-01".toList := by
  decide +kernel

end Date
end LoanLedger
