import LoanLedger.Money.Text

/-!
Amounts come back from the text that they are written as: the same mantissa and the same decimal
places, and the sign too, unless the amount is zero.
-/

set_option autoImplicit false
set_option relaxedAutoImplicit false

namespace LoanLedger.Money

open Text.Digits (padded)

/-- The same amount, without a sign if it is zero. -/
def unsignedZero (a : Money) : Money := { a with negative := a.negative && a.mantissa != 0 }

@[simp] theorem units_unsignedZero (a : Money) : a.unsignedZero.units = a.units := by
  unfold units unsignedZero
  obtain h | h := Nat.eq_zero_or_pos a.mantissa
  · simp [h]
  · simp [Nat.ne_of_gt h]

@[simp] theorem scale_unsignedZero (a : Money) : a.unsignedZero.scale = a.scale := rfl

theorem unsignedZero_of_positive {a : Money} (h : a.negative = false ∨ a.mantissa ≠ 0) :
    a.unsignedZero = a := by
  cases a
  obtain h | h := h <;> simp_all [unsignedZero]

theorem ext_parts {a b : Money} (hnegative : a.negative = b.negative)
    (hmantissa : a.mantissa = b.mantissa) (hscale : a.scale = b.scale) : a = b := by
  cases a
  cases b
  simp_all

namespace Reading

theorem le_ofDigitChars (ds : List Char) (m : Nat) : m ≤ Nat.ofDigitChars 10 ds m := by
  have hpow : 0 < 10 ^ ds.length := Nat.pow_pos (by decide)
  rw [Nat.ofDigitChars_eq_ofDigitChars_zero]
  calc m = 1 * m := (Nat.one_mul m).symm
    _ ≤ 10 ^ ds.length * m := Nat.mul_le_mul_right m hpow
    _ ≤ _ := Nat.le_add_right _ _

theorem step_digit (point digit : Bool) {c : Char} (hc : c.isDigit = true) {a b : Money}
    (hnegative : b.negative = false)
    (hmantissa : b.mantissa = 10 * a.mantissa + (c.toNat - '0'.toNat))
    (hscale : b.scale = if point then a.scale + 1 else 0) :
    step ⟨a, point, digit, false⟩ c = .ok ⟨b, point, true, false⟩ := by
  have hparts : ofParts? false (a.mantissa * 10 + (c.toNat - '0'.toNat))
      (if point then a.scale + 1 else 0) = some b := by
    rw [Nat.mul_comm, ← hmantissa, ← hscale, ← hnegative, ofParts?,
      dif_pos ⟨b.mantissa_lt, b.scale_le⟩]
  simp only [step, if_pos hc, push, Bool.false_eq_true, if_false, hparts]

theorem step_point (a : Money) (digit : Bool) :
    step ⟨a, false, digit, false⟩ '.' = .ok ⟨a, true, digit, false⟩ := rfl

/-- Digits that all find a place, taken one after the other: each is the last of the number so far,
and behind the point each is one more decimal place. -/
theorem foldlM_digits (point digit : Bool) {ds : List Char} (hds : ds.all Char.isDigit = true)
    {a b : Money} (ha : a.negative = false) (hb : b.negative = false)
    (hmantissa : b.mantissa = Nat.ofDigitChars 10 ds a.mantissa)
    (hscale : b.scale = a.scale + if point then ds.length else 0)
    (hwhole : point = false → a.scale = 0) :
    ds.foldlM step ⟨a, point, digit, false⟩ = .ok ⟨b, point, digit || !ds.isEmpty, false⟩ := by
  induction ds generalizing a digit with
  | nil =>
    have hab : a = b := ext_parts (by rw [ha, hb]) hmantissa.symm (by simpa using hscale.symm)
    simp [hab, pure, Except.pure]
  | cons c ds ih =>
    simp only [List.all_cons, Bool.and_eq_true] at hds
    rw [Nat.ofDigitChars_cons] at hmantissa
    have hscale : b.scale =
        (if point then a.scale + 1 else 0) + if point then ds.length else 0 := by
      cases point with
      | false => simpa [hwhole] using hscale
      | true => simpa [Nat.add_assoc, Nat.add_comm 1] using hscale
    have hfits : 10 * a.mantissa + (c.toNat - '0'.toNat) < limit :=
      Nat.lt_of_le_of_lt (hmantissa ▸ le_ofDigitChars ds _) b.mantissa_lt
    have hplace : (if point then a.scale + 1 else 0) ≤ 28 :=
      Nat.le_trans (hscale ▸ Nat.le_add_right _ _) b.scale_le
    have hstep := step_digit point digit hds.1 (a := a) (b := ⟨false, _, _, hfits, hplace⟩)
      rfl rfl rfl
    simp only [List.foldlM_cons, hstep, bind, Except.bind]
    rw [ih true hds.2 rfl hmantissa hscale (fun hp => by simp [hp])]
    simp

end Reading

/-- The digits of an amount: one at least before the point, and as many after it as it has decimal
places. -/
theorem exists_digits (a : Money) :
    ∃ whole places : List Char, whole ≠ [] ∧ places.length = a.scale ∧
      (whole ++ places).all Char.isDigit = true ∧
      Nat.ofDigitChars 10 (whole ++ places) 0 = a.mantissa ∧
      a.chars = (if a.negative then ['-'] else []) ++ whole ++
        (if a.scale = 0 then [] else '.' :: places) := by
  have hlen := Text.Digits.le_length_padded (a.scale + 1) a.mantissa
  refine ⟨_, _, ?_, ?_, ?_, ?_, rfl⟩
  · intro h
    have := congrArg List.length h
    rw [List.length_take, List.length_nil] at this
    omega
  · rw [List.length_drop]
    omega
  · rw [List.take_append_drop]
    exact Text.Digits.all_isDigit_padded _ _
  · rw [List.take_append_drop]
    exact Text.Digits.value_padded _ _

/-- Digits with a point before the last ones are read as their number with so many places. -/
theorem readDigits_point {whole places : List Char} (hwhole : whole ≠ [])
    (hdigits : (whole ++ places).all Char.isDigit = true) {a : Money} (ha : a.negative = false)
    (hmantissa : Nat.ofDigitChars 10 (whole ++ places) 0 = a.mantissa)
    (hscale : places.length = a.scale) :
    readDigits (whole ++ (if a.scale = 0 then [] else '.' :: places)) = .ok a := by
  rw [List.all_append, Bool.and_eq_true] at hdigits
  rw [Nat.ofDigitChars_append] at hmantissa
  have hfits : Nat.ofDigitChars 10 whole 0 < limit :=
    Nat.lt_of_le_of_lt (hmantissa ▸ Reading.le_ofDigitChars places _) a.mantissa_lt
  have hsome : whole.isEmpty = false := by simpa using hwhole
  have hbefore := Reading.foldlM_digits false false hdigits.1 (a := zero)
    (b := ⟨false, _, 0, hfits, Nat.zero_le 28⟩) rfl rfl rfl rfl (fun _ => rfl)
  have hafter := Reading.foldlM_digits true true hdigits.2 (b := a)
    (a := ⟨false, _, 0, hfits, Nat.zero_le 28⟩) rfl ha hmantissa.symm (by simp [hscale])
    (fun h => Bool.noConfusion h)
  rw [hsome] at hbefore
  unfold readDigits Reading.start
  by_cases h : a.scale = 0
  · have hplaces : places = [] := List.eq_nil_of_length_eq_zero (hscale.trans h)
    have hall : a = ⟨false, Nat.ofDigitChars 10 whole 0, 0, hfits, Nat.zero_le 28⟩ :=
      ext_parts ha (by simpa [hplaces] using hmantissa.symm) h
    rw [if_pos h, List.append_nil, hbefore, hall]
    rfl
  · rw [if_neg h, List.foldlM_append, hbefore]
    simp only [List.foldlM_cons, bind, Except.bind, Bool.not_false, Bool.or_true,
      Reading.step_point, hafter, Bool.true_or, if_true]
    rfl

theorem readPlain_digit {c : Char} (hc : c.isDigit = true) (cs : List Char) :
    readPlain (c :: cs) = readDigits (c :: cs) := by
  unfold readPlain
  split
  · simp_all
  · simp_all
  · simp_all
  · rfl

theorem readChars_of_plain {cs : List Char} {a : Money} (h : readPlain cs = .ok a) :
    readChars cs = .ok a := by
  rw [readChars, h]

/-- An amount is read back from its text. -/
@[simp] theorem read_toString (a : Money) : read (toString a) = .ok a.unsignedZero := by
  obtain ⟨whole, places, hwhole, hplaces, hdigits, hmantissa, hchars⟩ := exists_digits a
  have hread := readDigits_point hwhole hdigits (a := { a with negative := false }) rfl hmantissa
    hplaces
  have htext : read (toString a) = readChars a.chars := by simp [read, toString]
  rw [htext, hchars]
  apply readChars_of_plain
  cases hneg : a.negative with
  | true =>
    simp only [if_true, List.cons_append, List.nil_append, readPlain]
    rw [hread]
    simp [unsignedZero, hneg, bind, Except.bind, pure, Except.pure]
  | false =>
    obtain ⟨c, cs, rfl⟩ := List.exists_cons_of_ne_nil hwhole
    have hc : c.isDigit = true := by simp_all
    simp only [Bool.false_eq_true, if_false, List.nil_append, List.cons_append, readPlain_digit hc]
    rw [← List.cons_append, hread, unsignedZero_of_positive (.inl hneg)]
    exact congrArg Except.ok (ext_parts hneg.symm rfl rfl)

example : (read (toString (Money.mk true 0 2 (by decide) (by decide)))).toOption =
    some ⟨false, 0, 2, by decide, by decide⟩ := by decide +kernel

end LoanLedger.Money
