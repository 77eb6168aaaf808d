import LoanLedger.Proofs.Posting
import LoanLedger.Proofs.Range

/-!
The columns of a row in which income accrues, and what a posting says about each of them.
-/

set_option autoImplicit false
set_option relaxedAutoImplicit false

namespace LoanLedger

/-- The columns in which income accrues. -/
inductive Column
  | interest | fee | penalty
  deriving DecidableEq, Repr

/-- What has accrued in a column. -/
def ScheduleRow.accrued (row : ScheduleRow) : Column → Option Money
  | .interest => row.accruedInterest
  | .fee => row.accruedFee
  | .penalty => row.accruedPenalty

/-- What was credited against a column; interest is never credited. -/
def ScheduleRow.credited (row : ScheduleRow) : Column → Option Money
  | .interest => none
  | .fee => row.creditedFee
  | .penalty => row.creditedPenalty

/-- What a posting adds to a column. -/
def Posting.portion (p : Posting) : Column → Option Money
  | .interest => p.transaction.interest
  | .fee => p.transaction.fee
  | .penalty => p.transaction.penalty

/-- What a posting makes of a column. -/
def Posting.total (p : Posting) : Column → Option Money
  | .interest => p.totals.interest
  | .fee => p.totals.fee
  | .penalty => p.totals.penalty

/-- The portion for a column. -/
def PreparedAccrual.Portions.of (parts : PreparedAccrual.Portions) : Column → Portion
  | .interest => parts.interest
  | .fee => parts.fee
  | .penalty => parts.penalty

theorem Posting.IsFor.advances {p : Posting} {row : ScheduleRow} (h : p.IsFor row) (c : Column) :
    Advances (row.accrued c) (p.portion c) (p.total c) := by
  cases c with
  | interest => exact h.interest
  | fee => exact h.fee
  | penalty => exact h.penalty

/-- A column that holds what it held before, or more. -/
def Grows (before after : Option Money) : Prop :=
  (Money.orZero before).Agree (Money.orZero after) ∨
    (Money.orZero before).value < (Money.orZero after).value

theorem Grows.refl (column : Option Money) : Grows column column := .inl (.refl _)

theorem Grows.trans {a b c : Option Money} (hab : Grows a b) (hbc : Grows b c) : Grows a c := by
  rcases hab with hab | hab
  · rcases hbc with hbc | hbc
    · exact .inl (hab.trans hbc)
    · exact .inr (hab.value_eq ▸ hbc)
  · rcases hbc with hbc | hbc
    · exact .inr (hbc.value_eq ▸ hab)
    · exact .inr (hab.trans hbc)

/-- With small amounts, a column that advances by at most one portion advances by its value. -/
theorem AdvancesBy.value_eq {before portion after : Option Money}
    (h : AdvancesBy portion.toList before after) (hbefore : Small (21 * 10 ^ 17) before)
    (hportion : Small (42 * 10 ^ 17) portion) :
    (Money.orZero after).value = (Money.orZero before).value + (Money.orZero portion).value := by
  obtain ⟨total, htotal, hagree⟩ := h
  rw [hagree.value_eq]
  cases portion with
  | none =>
    rw [Option.toList_none, Money.addAll_nil] at htotal
    rw [← Except.ok.inj htotal, Money.orZero_none, Money.value_zero, add_zero]
  | some d =>
    rw [Option.toList_some, Money.addAll_singleton] at htotal
    have hroom : Money.room = 7 * 10 ^ 18 := rfl
    have hsum := abs_add_le (Money.orZero before).value d.value
    have ha := hbefore.size
    have hd := hportion.size
    rw [Money.orZero_some] at hd ⊢
    exact (Money.add_value htotal hbefore.fine hportion.fine (by linarith)).2

theorem Advances.grows {before portion after : Option Money} (h : Advances before portion after)
    (hbefore : Small (21 * 10 ^ 17) before) (hportion : Small (42 * 10 ^ 17) portion) :
    Grows before after := by
  have hvalue := h.advancesBy.value_eq hbefore hportion
  cases portion with
  | none => exact .inl (Money.Agree.symm h)
  | some d =>
    right
    have hpos : 0 < d.value := Money.value_pos_iff.mpr ((Money.isPositive_iff d).mp h.isPositive)
    rw [Money.orZero_some] at hvalue
    linarith

namespace ScheduleRow

/-- A row with other columns and another accrued-till date. -/
def SameTerms (row row' : ScheduleRow) : Prop :=
  row' = { row with
    accruedTill := row'.accruedTill
    accruedInterest := row'.accruedInterest
    accruedFee := row'.accruedFee
    accruedPenalty := row'.accruedPenalty }

variable {row row' row'' : ScheduleRow}

theorem SameTerms.refl (row : ScheduleRow) : row.SameTerms row := rfl

theorem SameTerms.symm (h : row.SameTerms row') : row'.SameTerms row := by
  unfold SameTerms at *
  rw [h]

theorem SameTerms.trans (h : row.SameTerms row') (h' : row'.SameTerms row'') :
    row.SameTerms row'' := by
  unfold SameTerms at *
  rw [h', h]

theorem SameTerms.rowId (h : row.SameTerms row') : row'.rowId = row.rowId :=
  congrArg (·.rowId) h

theorem SameTerms.credited (h : row.SameTerms row') (c : Column) :
    row'.credited c = row.credited c := by
  rw [h]
  cases c <;> rfl

theorem mem_amounts_of_accrued {a : Money} {c : Column} (h : row.accrued c = some a) :
    a ∈ row.amounts := by
  apply mem_amounts.mpr
  cases c with
  | interest => exact .inr (.inl h)
  | fee => exact .inr (.inr (.inl h))
  | penalty => exact .inr (.inr (.inr (.inl h)))

theorem mem_amounts_of_credited {a : Money} {c : Column} (h : row.credited c = some a) :
    a ∈ row.amounts := by
  apply mem_amounts.mpr
  cases c with
  | interest => cases h
  | fee => exact .inr (.inr (.inr (.inr (.inr (.inl h)))))
  | penalty => exact .inr (.inr (.inr (.inr (.inr (.inr h)))))

theorem InRange.small_accrued (h : row.InRange) (c : Column) : Small (10 ^ 18) (row.accrued c) :=
  h.small fun _ => mem_amounts_of_accrued

theorem InRange.small_credited (h : row.InRange) (c : Column) :
    Small (10 ^ 18) (row.credited c) :=
  h.small fun _ => mem_amounts_of_credited

/-- A row that advanced did so in each of its columns. -/
theorem advancedBy_iff {ps : List Posting} : row.AdvancedBy ps row' ↔
    row' = { row with
      accruedInterest := row'.accruedInterest
      accruedFee := row'.accruedFee
      accruedPenalty := row'.accruedPenalty } ∧
    ∀ c, AdvancesBy ((ps.filter fun p => p.totals.rowId = row.rowId).filterMap (·.portion c))
      (row.accrued c) (row'.accrued c) := by
  constructor
  · intro h
    refine ⟨h.terms, fun c => ?_⟩
    cases c with
    | interest => exact h.interest
    | fee => exact h.fee
    | penalty => exact h.penalty
  · rintro ⟨hterms, hcolumns⟩
    exact ⟨hterms, hcolumns .interest, hcolumns .fee, hcolumns .penalty⟩

end ScheduleRow
end LoanLedger
