import LoanLedger.Calendar.Text

/-!
Dates come back. The calendar gives the number of a day back from its year, month and day, and a
date is read back from the text that it is written as.
-/

set_option autoImplicit false
set_option relaxedAutoImplicit false

namespace LoanLedger

open Text.Digits (padded)

namespace Civil

/-- The year of an era that day `d` of the era falls in. -/
def yearOfEra (d : Int) : Int := (d - d / 1460 + d / 36524 - d / 146096) / 365

/-- The days of an era before its year `y`. -/
def daysBefore (y : Int) : Int := 365 * y + y / 4 - y / 100

section Era

variable {d : Int} (first : 0 ≤ d) (last : d < 146097)

include first last

theorem yearOfEra_bounds : 0 ≤ yearOfEra d ∧ yearOfEra d ≤ 399 := by
  unfold yearOfEra
  omega

/-- Both the day and its year have a century. Where the two are fixed, what is left is linear. -/
theorem dayOfYear_bounds :
    0 ≤ d - daysBefore (yearOfEra d) ∧ d - daysBefore (yearOfEra d) ≤ 365 := by
  have hyear : (yearOfEra d) / 100 = 0 ∨ yearOfEra d / 100 = 1 ∨ yearOfEra d / 100 = 2 ∨
      yearOfEra d / 100 = 3 := by
    have := yearOfEra_bounds first last
    omega
  have hday : d / 36524 - d / 146096 = 0 ∨ d / 36524 - d / 146096 = 1 ∨
      d / 36524 - d / 146096 = 2 ∨ d / 36524 - d / 146096 = 3 := by omega
  unfold yearOfEra daysBefore at *
  obtain h | h | h | h := hday <;> obtain h' | h' | h' | h' := hyear <;> constructor <;> omega

end Era

/-- The civil date of day `t` of the year `y` that starts in March, `t` counted from zero. -/
def ofMarch (y t : Int) : Civil :=
  let m := (5 * t + 2) / 153
  let month := if m < 10 then m + 3 else m - 9
  ⟨if month ≤ 2 then y + 1 else y, month, t - (153 * m + 2) / 5 + 1⟩

theorem ofMarch_day (y t : Int) : 1 ≤ (ofMarch y t).day ∧ (ofMarch y t).day ≤ 31 := by
  simp only [ofMarch]
  omega

section March

variable {t : Int} (first : 0 ≤ t) (last : t ≤ 365)

include first last

theorem ofMarch_month (y : Int) : 1 ≤ (ofMarch y t).month ∧ (ofMarch y t).month ≤ 12 := by
  simp only [ofMarch]
  split <;> omega

theorem dayNumber_ofMarch (y : Int) :
    (ofMarch y t).dayNumber = y / 400 * 146097 + (daysBefore (y % 400) + t) := by
  by_cases h : (5 * t + 2) / 153 < 10
  · have hmonth : ¬(5 * t + 2) / 153 + 3 ≤ 2 := by omega
    have hback : ((5 * t + 2) / 153 + 3 + 9) % 12 = (5 * t + 2) / 153 := by omega
    simp only [ofMarch, dayNumber, daysBefore, if_pos h, if_neg hmonth, hback]
    omega
  · have hmonth : (5 * t + 2) / 153 - 9 ≤ 2 := by omega
    have hback : ((5 * t + 2) / 153 - 9 + 9) % 12 = (5 * t + 2) / 153 := by omega
    simp only [ofMarch, dayNumber, daysBefore, if_neg h, if_pos hmonth, hback, Int.add_sub_cancel]
    omega

end March

/-- Every day is a day of a year that starts in March, and has its number back. -/
theorem exists_ofMarch (n : Int) :
    ∃ y t : Int, 0 ≤ t ∧ t ≤ 365 ∧ ofDayNumber n = ofMarch y t ∧ (ofMarch y t).dayNumber = n := by
  have hfirst : 0 ≤ n % 146097 := by omega
  have hlast : n % 146097 < 146097 := by omega
  have hyear := yearOfEra_bounds hfirst hlast
  have hday := dayOfYear_bounds hfirst hlast
  have hera : (yearOfEra (n % 146097) + n / 146097 * 400) / 400 = n / 146097 := by omega
  have hof : (yearOfEra (n % 146097) + n / 146097 * 400) % 400 = yearOfEra (n % 146097) := by
    omega
  refine ⟨yearOfEra (n % 146097) + n / 146097 * 400,
    n % 146097 - daysBefore (yearOfEra (n % 146097)), hday.1, hday.2, rfl, ?_⟩
  rw [dayNumber_ofMarch hday.1 hday.2, hera, hof]
  omega

theorem ofDayNumber_month (n : Int) : 1 ≤ (ofDayNumber n).month ∧ (ofDayNumber n).month ≤ 12 := by
  obtain ⟨y, t, hfirst, hlast, h, -⟩ := exists_ofMarch n
  exact h ▸ ofMarch_month hfirst hlast y

theorem ofDayNumber_day (n : Int) : 1 ≤ (ofDayNumber n).day ∧ (ofDayNumber n).day ≤ 31 := by
  obtain ⟨y, t, -, -, h, -⟩ := exists_ofMarch n
  exact h ▸ ofMarch_day y t

@[simp] theorem dayNumber_ofDayNumber (n : Int) : (ofDayNumber n).dayNumber = n := by
  obtain ⟨y, t, -, -, h, hn⟩ := exists_ofMarch n
  rw [h, hn]

end Civil

namespace Date

@[simp] theorem ofCivil?_civil (d : Date) : ofCivil? d.civil = some d := by
  simp [ofCivil?, civil]

theorem number?_padded {width n k : Nat} {r : List Char} (hk : (padded width n).length ≤ k)
    (hr : r.head?.all (fun c => !c.isDigit) = true) :
    number? k (padded width n ++ r) = some (n, r) := by
  have hne : padded width n ≠ [] := by
    obtain ⟨d, ds, h, -⟩ := Text.Digits.exists_padded_cons width n
    exact h ▸ List.cons_ne_nil d ds
  simp only [number?, Text.Digits.split_append (Text.Digits.all_isDigit_padded width n) hr]
  rw [List.take_of_length_le hk, if_neg hne, Text.Digits.value_padded, List.drop_left]

/-- Four digits are read alone, more of them behind a sign. -/
theorem year?_yearChars (y : Int) {r : List Char} (hr : r.head?.all (fun c => !c.isDigit) = true) :
    year? (Civil.yearChars y ++ r) = some (y, r) := by
  have hsigned : (padded 4 y.natAbs).length ≤ (padded 4 y.natAbs ++ r).length := by simp
  unfold Civil.yearChars
  split
  case isTrue hneg =>
    have hy : -(y.natAbs : Int) = y := by omega
    simp only [List.cons_append, year?, number?_padded hsigned hr, Option.map_some, hy]
  case isFalse hpos =>
    have hy : (y.natAbs : Int) = y := by omega
    split
    case isTrue hlarge =>
      simp only [List.cons_append, year?, number?_padded hsigned hr, Option.map_some, hy]
    case isFalse hsmall =>
      have hlen : (padded 4 y.natAbs).length ≤ 4 :=
        Nat.le_of_eq (Text.Digits.length_padded (by decide) (show y.natAbs < 10000 by omega))
      have hnumber := number?_padded hlen hr
      -- the text has no sign in front, since it starts with a digit
      obtain ⟨d, ds, hd, hdigit⟩ := Text.Digits.exists_padded_cons 4 y.natAbs
      rw [hd] at hnumber ⊢
      unfold year?
      split
      · simp_all
      · simp_all
      · simp only [hnumber, Option.map_some, hy]

theorem trimLeft_yearChars (y : Int) (r : List Char) :
    Text.Blank.trimLeft (Civil.yearChars y ++ r) = Civil.yearChars y ++ r := by
  unfold Civil.yearChars
  split
  · exact Text.Blank.trimLeft_of_not_isBlank (by decide)
  · split
    · exact Text.Blank.trimLeft_of_not_isBlank (by decide)
    · obtain ⟨d, ds, hd, hdigit⟩ := Text.Digits.exists_padded_cons 4 y.natAbs
      rw [hd]
      exact Text.Blank.trimLeft_of_not_isBlank (Text.Blank.not_isBlank_of_isDigit hdigit)

theorem afterMark?_padded (mark : Char) (hmark : Text.Blank.isBlank mark = false)
    (width n : Nat) (r : List Char) :
    afterMark? mark (mark :: (padded width n ++ r)) = some (padded width n ++ r) := by
  obtain ⟨d, ds, hd, hdigit⟩ := Text.Digits.exists_padded_cons width n
  simp only [afterMark?, Text.Blank.trimLeft_of_not_isBlank hmark, if_true, hd, List.cons_append,
    Text.Blank.trimLeft_of_not_isBlank (Text.Blank.not_isBlank_of_isDigit hdigit)]

/-- A date is read at the front of a text. -/
theorem front?_chars (d : Date) {r : List Char} (hr : r.head?.all (fun c => !c.isDigit) = true) :
    front? (d.chars ++ r) = some (d, r) := by
  obtain ⟨hm, hm'⟩ := Civil.ofDayNumber_month d.day
  obtain ⟨hd, hd'⟩ := Civil.ofDayNumber_day d.day
  have htwo {n : Nat} (hn : n < 100) : (padded 2 n).length ≤ 2 :=
    Nat.le_of_eq (Text.Digits.length_padded (by decide) hn)
  have hmonth := @htwo d.civil.month.natAbs (by unfold civil; omega)
  have hday := @htwo d.civil.day.natAbs (by unfold civil; omega)
  have hcivil : Civil.mk d.civil.year d.civil.month.natAbs d.civil.day.natAbs = d.civil := by
    have hmabs : (d.civil.month.natAbs : Int) = d.civil.month := by unfold civil; omega
    have hdabs : (d.civil.day.natAbs : Int) = d.civil.day := by unfold civil; omega
    rw [hmabs, hdabs]
  simp only [front?, chars, Civil.chars, List.append_assoc, List.cons_append, trimLeft_yearChars]
  rw [year?_yearChars _ (by rfl)]
  simp only [bind, Option.bind_some, afterMark?_padded '-' (by decide),
    number?_padded hmonth (r := '-' :: _) rfl, number?_padded hday hr, hcivil, ofCivil?_civil]

@[simp] theorem ofText?_toString (d : Date) : ofText? (toString d) = some d := by
  have h := front?_chars d (r := []) rfl
  rw [List.append_nil] at h
  simp only [ofText?, toString, String.toList_ofList, ofChars?, h, bind, Option.bind_some]
  rfl

end Date
end LoanLedger
