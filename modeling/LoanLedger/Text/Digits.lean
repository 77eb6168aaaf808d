import LoanLedger.Power

/-!
Decimal digits as text: writing with leading zeros, and cutting a run of digits off a text.
-/

set_option autoImplicit false
set_option relaxedAutoImplicit false

namespace LoanLedger.Text.Digits

/-- The decimal digits of `n`, with zeros in front up to `width`. -/
def padded (width n : Nat) : List Char :=
  let ds := Nat.toDigits 10 n
  List.replicate (width - ds.length) '0' ++ ds

/-- An integer with a minus sign where it is negative. -/
def signed (i : Int) : List Char :=
  if i < 0 then '-' :: Nat.toDigits 10 i.natAbs else Nat.toDigits 10 i.natAbs

/-- The run of ASCII digits at the front, and the rest. -/
def split (cs : List Char) : List Char × List Char :=
  (cs.takeWhile Char.isDigit, cs.dropWhile Char.isDigit)

/-- The number that a run of digits stands for. -/
def value (ds : List Char) : Nat := Nat.ofDigitChars 10 ds 0

/-- A text made of digits alone, and of one at least, as a number. -/
def number? (cs : List Char) : Option Nat :=
  if cs ≠ [] ∧ cs.all Char.isDigit then some (value cs) else none

@[simp] theorem value_padded (width n : Nat) : value (padded width n) = n := by
  simp [value, padded, Nat.ofDigitChars_append, Nat.ofDigitChars_replicate_zero]

theorem all_isDigit_padded (width n : Nat) : (padded width n).all Char.isDigit = true := by
  simp only [padded, List.all_append, Bool.and_eq_true, List.all_eq_true]
  refine ⟨fun c hc => ?_, fun c hc => Nat.isDigit_of_mem_toDigits (by decide) (by decide) hc⟩
  rw [List.eq_of_mem_replicate hc]
  decide

theorem padded_zero (n : Nat) : padded 0 n = Nat.toDigits 10 n := by simp [padded]

/-- A written number starts with a digit. -/
theorem exists_padded_cons (width n : Nat) :
    ∃ d ds, padded width n = d :: ds ∧ d.isDigit = true := by
  have hall := all_isDigit_padded width n
  cases h : padded width n with
  | nil => simp [padded, Nat.toDigits_ne_nil] at h
  | cons d ds => exact ⟨d, ds, rfl, (by simpa [h] using hall : d.isDigit = true ∧ _).1⟩

theorem le_length_padded (width n : Nat) : width ≤ (padded width n).length := by
  simp only [padded, List.length_append, List.length_replicate]
  omega

theorem length_padded {width n : Nat} (hw : 0 < width) (h : n < tenTo width) :
    (padded width n).length = width := by
  have hle : (Nat.toDigits 10 n).length ≤ width := (Nat.length_toDigits_le_iff (by decide) hw).2 h
  simp only [padded, List.length_append, List.length_replicate]
  omega

theorem split_append {ds rest : List Char} (hd : ds.all Char.isDigit = true)
    (hr : rest.head?.all (fun c => !c.isDigit) = true) : split (ds ++ rest) = (ds, rest) := by
  induction ds with
  | nil =>
    cases rest with
    | nil => rfl
    | cons c r => simp_all [split]
  | cons d ds ih =>
    simp only [List.all_cons, Bool.and_eq_true] at hd
    have h := ih hd.2
    simp only [split, Prod.mk.injEq] at h ⊢
    simp [hd.1, h.1, h.2]

end LoanLedger.Text.Digits
