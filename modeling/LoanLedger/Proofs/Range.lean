import Mathlib.Data.List.ReduceOption
import LoanLedger.Ledger.Basic
import LoanLedger.Proofs.Money.Exact

/-!
The exact range. A loan is in range when the amounts that its accrual reads have at most ten decimal
places and together stay below `10 ^ 18`; all that is computed from them then has room.
-/

set_option autoImplicit false
set_option relaxedAutoImplicit false

namespace LoanLedger

/-- The magnitudes of amounts, added up. -/
def totalSize (as : List Money) : ℚ := (as.map fun a => |a.value|).sum

@[simp] theorem totalSize_nil : totalSize [] = 0 := rfl

@[simp] theorem totalSize_cons (a : Money) (as : List Money) :
    totalSize (a :: as) = |a.value| + totalSize as := rfl

@[simp] theorem totalSize_append (as bs : List Money) :
    totalSize (as ++ bs) = totalSize as + totalSize bs := by
  simp only [totalSize]
  rw [List.map_append, List.sum_append]

theorem totalSize_nonneg (as : List Money) : 0 ≤ totalSize as := by
  induction as with
  | nil => exact le_rfl
  | cons a as ih =>
    rw [totalSize_cons]
    have := abs_nonneg a.value
    linarith

theorem abs_le_totalSize {a : Money} {as : List Money} (h : a ∈ as) :
    |a.value| ≤ totalSize as := by
  induction as with
  | nil => cases h
  | cons b as ih =>
    rw [totalSize_cons]
    have hrest := totalSize_nonneg as
    have hb := abs_nonneg b.value
    rcases List.mem_cons.mp h with rfl | h
    · linarith
    · have := ih h
      linarith

theorem totalSize_le_of_sublist {as bs : List Money} (h : as.Sublist bs) :
    totalSize as ≤ totalSize bs := by
  induction h with
  | slnil => exact le_rfl
  | cons b _ ih =>
    have := abs_nonneg b.value
    rw [totalSize_cons]
    linarith
  | cons_cons b _ ih =>
    rw [totalSize_cons, totalSize_cons]
    linarith

theorem totalSize_le_of_subperm {as bs : List Money} (h : as.Subperm bs) :
    totalSize as ≤ totalSize bs := by
  obtain ⟨cs, hperm, hsub⟩ := h
  have hsize : totalSize cs = totalSize as := (hperm.map _).sum_eq
  rw [← hsize]
  exact totalSize_le_of_sublist hsub

theorem totalSize_reduceOption (os : List (Option Money)) :
    totalSize os.reduceOption = (os.map fun o => |(Money.orZero o).value|).sum := by
  induction os with
  | nil => rfl
  | cons o os ih =>
    cases o with
    | none =>
      rw [List.reduceOption_cons_of_none, ih, List.map_cons, List.sum_cons, Money.orZero_none,
        Money.value_zero, abs_zero, zero_add]
    | some a => rw [List.reduceOption_cons_of_some, totalSize_cons, ih]; rfl

theorem totalSize_flatMap {α : Type} (f : α → List Money) (l : List α) :
    totalSize (l.flatMap f) = (l.map fun a => totalSize (f a)).sum := by
  induction l with
  | nil => rfl
  | cons a l ih => rw [List.flatMap_cons, totalSize_append, ih, List.map_cons, List.sum_cons]

theorem totalSize_flatMap_le {α : Type} {f : α → List Money} {a : α} {l : List α} (h : a ∈ l) :
    totalSize (f a) ≤ totalSize (l.flatMap f) := by
  rw [totalSize_flatMap]
  exact List.single_le_sum (List.forall_mem_map.mpr fun b _ => totalSize_nonneg (f b)) _
    (List.mem_map_of_mem (f := fun b => totalSize (f b)) h)

/-- Values that the sizes of some amounts bound, one by one, add up to no more than their size. -/
theorem sum_le_totalSize_flatMap {α : Type} {f : α → List Money} {g : α → ℚ} {l : List α}
    (h : ∀ a ∈ l, g a ≤ totalSize (f a)) : (l.map g).sum ≤ totalSize (l.flatMap f) := by
  rw [totalSize_flatMap]
  exact List.sum_le_sum h

/-- What an amount comes to with others added to it: the exact sum, where they are fine and have
room together. -/
def Money.Tallies (a : Money) (ds : List Money) (b : Money) : Prop :=
  (∀ d ∈ a :: ds, d.Fine) → totalSize (a :: ds) < Money.room →
    b.value = a.value + (ds.map Money.value).sum

/-- Fine amounts that have room together are added up exactly. -/
theorem Money.tallies_of_addAll {a b : Money} {ds : List Money} (h : a.addAll ds = .ok b) :
    a.Tallies ds b := by
  intro hfine hsize
  induction ds generalizing a with
  | nil => rw [← Except.ok.inj h, List.map_nil, List.sum_nil, add_zero]
  | cons d ds ih =>
    obtain ⟨ha, hfine⟩ := List.forall_mem_cons.mp hfine
    obtain ⟨hd, hfine⟩ := List.forall_mem_cons.mp hfine
    obtain ⟨c, hc, h⟩ := bind_eq_ok.mp h
    simp only [totalSize_cons] at hsize
    have hrest := totalSize_nonneg ds
    have habs := abs_add_le a.value d.value
    obtain ⟨hcfine, hcvalue⟩ := Money.add_value hc ha hd (by linarith)
    have hroom : totalSize (c :: ds) < Money.room := by
      rw [totalSize_cons, hcvalue]
      linarith
    rw [ih h (List.forall_mem_cons.mpr ⟨hcfine, hfine⟩) hroom, hcvalue, List.map_cons,
      List.sum_cons, add_assoc]

/-- The exact sum of a list of amounts. -/
theorem Money.value_sum {as : List Money} {c : Money} (h : Money.sum as = .ok c)
    (hfine : ∀ a ∈ as, a.Fine) (hsize : totalSize as < Money.room) :
    c.value = (as.map Money.value).sum := by
  have hsum := tallies_of_addAll (a := .zero) h (List.forall_mem_cons.mpr ⟨fine_zero, hfine⟩)
    (by rw [totalSize_cons, Money.value_zero, abs_zero, zero_add]; exact hsize)
  rw [hsum, Money.value_zero, zero_add]

/-- The amounts of a row. -/
def ScheduleRow.amounts (row : ScheduleRow) : List Money :=
  [row.interestIncome, row.accruedInterest, row.accruedFee, row.accruedPenalty,
    row.waivedInterest, row.creditedFee, row.creditedPenalty].reduceOption

/-- The amounts of a share that decide its income. -/
def ChargeShare.amounts (s : ChargeShare) : List Money := [s.amount, s.unrecognized]

/-- The amounts of a charge that decide its income. -/
def Charge.amounts (c : Charge) : List Money :=
  [c.amount, c.unrecognized] ++ c.shares.flatMap ChargeShare.amounts

/-- The amounts of a waiver. -/
def InterestWaiver.amounts (w : InterestWaiver) : List Money := [w.recognized, w.unrecognized]

/-- The amounts that the accrual of a loan reads. -/
def Loan.amounts (loan : Loan) : List Money :=
  loan.schedule.flatMap ScheduleRow.amounts ++ loan.charges.flatMap Charge.amounts ++
    (loan.waivedPeriods.map (·.waived) ++ loan.waivers.flatMap InterestWaiver.amounts)

theorem Loan.mem_amounts_of_charges {loan : Loan} {cs ds : List Charge} (hsub : ds ⊆ cs) {a : Money}
    (ha : a ∈ ({ loan with charges := ds } : Loan).amounts) :
    a ∈ ({ loan with charges := cs } : Loan).amounts := by
  rcases List.mem_append.mp ha with ha | ha
  · rcases List.mem_append.mp ha with ha | ha
    · exact List.mem_append_left _ (List.mem_append_left _ ha)
    · obtain ⟨c, hc, ha⟩ := List.mem_flatMap.mp ha
      exact List.mem_append_left _ (List.mem_append_right _
        (List.mem_flatMap.mpr ⟨c, hsub hc, ha⟩))
  · exact List.mem_append_right _ ha

/-- A loan whose accrual is exact. -/
structure Loan.InRange (loan : Loan) : Prop where
  fine : ∀ a ∈ loan.amounts, a.Fine
  places : ∀ row ∈ loan.schedule, row.currency.decimalPlaces.toNat ≤ 10
  size : totalSize loan.amounts < 10 ^ 18

/-- A row together with all that was waived on its loan, in range. -/
structure ScheduleRow.WaiversInRange (row : ScheduleRow) (periods : List WaivedPeriod)
    (ws : List InterestWaiver) : Prop where
  rowFine : ∀ a ∈ row.amounts, a.Fine
  periodsFine : ∀ p ∈ periods, p.waived.Fine
  waiversFine : ∀ a ∈ ws.flatMap InterestWaiver.amounts, a.Fine
  size : totalSize row.amounts + (totalSize (periods.map (·.waived)) +
    totalSize (ws.flatMap InterestWaiver.amounts)) < 10 ^ 18

/-- A row whose amounts and currency are in range. -/
structure ScheduleRow.InRange (row : ScheduleRow) : Prop where
  fine : ∀ a ∈ row.amounts, a.Fine
  places : row.currency.decimalPlaces.toNat ≤ 10
  size : totalSize row.amounts < 10 ^ 18

namespace Loan.InRange

variable {loan : Loan}

theorem row (h : loan.InRange) {row : ScheduleRow} (hrow : row ∈ loan.schedule) :
    row.InRange where
  fine a ha := h.fine a (List.mem_append_left _ (List.mem_append_left _
    (List.mem_flatMap.mpr ⟨row, hrow, ha⟩)))
  places := h.places row hrow
  size := by
    have hsize := h.size
    have hrowSize := totalSize_flatMap_le (f := ScheduleRow.amounts) hrow
    simp only [amounts] at hsize
    rw [totalSize_append, totalSize_append] at hsize
    have hcharges := totalSize_nonneg (loan.charges.flatMap Charge.amounts)
    have hwaivers := totalSize_nonneg
      (loan.waivedPeriods.map (·.waived) ++ loan.waivers.flatMap InterestWaiver.amounts)
    linarith

theorem charges (h : loan.InRange) : (∀ a ∈ loan.charges.flatMap Charge.amounts, a.Fine) ∧
    totalSize (loan.charges.flatMap Charge.amounts) < 10 ^ 18 := by
  refine ⟨fun a ha => h.fine a (List.mem_append_left _ (List.mem_append_right _ ha)), ?_⟩
  have hsize := h.size
  simp only [amounts] at hsize
  rw [totalSize_append, totalSize_append] at hsize
  have hrows := totalSize_nonneg (loan.schedule.flatMap ScheduleRow.amounts)
  have hwaivers := totalSize_nonneg
    (loan.waivedPeriods.map (·.waived) ++ loan.waivers.flatMap InterestWaiver.amounts)
  linarith

theorem rowAndWaivers (h : loan.InRange) {row : ScheduleRow} (hrow : row ∈ loan.schedule) :
    row.WaiversInRange loan.waivedPeriods loan.waivers where
  rowFine := (h.row hrow).fine
  periodsFine p hp := h.fine _ (List.mem_append_right _ (List.mem_append_left _
    (List.mem_map_of_mem hp)))
  waiversFine a ha := h.fine a (List.mem_append_right _ (List.mem_append_right _ ha))
  size := by
    have hsize := h.size
    have hrowSize := totalSize_flatMap_le (f := ScheduleRow.amounts) hrow
    simp only [amounts] at hsize
    rw [totalSize_append, totalSize_append, totalSize_append] at hsize
    have hcharges := totalSize_nonneg (loan.charges.flatMap Charge.amounts)
    linarith

/-- A loan stays in range with some of its charges, in whatever order. -/
theorem withCharges {cs ds : List Charge} (h : ({ loan with charges := cs } : Loan).InRange)
    (hsub : ds.Subperm cs) : ({ loan with charges := ds } : Loan).InRange where
  fine a ha := h.fine a (mem_amounts_of_charges hsub.subset ha)
  places := h.places
  size := by
    have hsize := h.size
    obtain ⟨es, hperm, hsublist⟩ := hsub
    have hcharges : (ds.flatMap Charge.amounts).Subperm (cs.flatMap Charge.amounts) :=
      ⟨_, hperm.flatMap_right _, hsublist.flatMap _⟩
    have hle := totalSize_le_of_subperm hcharges
    simp only [amounts] at hsize ⊢
    rw [totalSize_append, totalSize_append] at hsize ⊢
    linarith

end Loan.InRange

/-- An amount that is fine and not larger than a bound, or none. -/
structure Small (bound : ℚ) (o : Option Money) : Prop where
  fine : (Money.orZero o).Fine
  size : |(Money.orZero o).value| ≤ bound

namespace Small

variable {bound bound' : ℚ} {o : Option Money}

theorem mono (h : Small bound o) (hle : bound ≤ bound') : Small bound' o :=
  ⟨h.fine, h.size.trans hle⟩

theorem none (hbound : 0 ≤ bound) : Small bound none :=
  ⟨Money.fine_zero, by rw [Money.orZero_none, Money.value_zero, abs_zero]; exact hbound⟩

end Small

namespace ScheduleRow.InRange

variable {row : ScheduleRow}

theorem small (h : row.InRange) {o : Option Money} (ho : ∀ a, o = some a → a ∈ row.amounts) :
    Small (10 ^ 18) o := by
  cases o with
  | none => exact .none (by norm_num)
  | some a =>
    have hmem := ho a rfl
    have hsize := abs_le_totalSize hmem
    have htotal := h.size
    exact ⟨h.fine a hmem, by rw [Money.orZero_some]; linarith⟩

end ScheduleRow.InRange

namespace ScheduleRow

variable {row : ScheduleRow} {a : Money}

theorem mem_amounts : a ∈ row.amounts ↔ row.interestIncome = some a ∨
    row.accruedInterest = some a ∨ row.accruedFee = some a ∨ row.accruedPenalty = some a ∨
    row.waivedInterest = some a ∨ row.creditedFee = some a ∨ row.creditedPenalty = some a := by
  simp only [amounts]
  rw [List.reduceOption_mem_iff]
  simp only [List.mem_cons, List.not_mem_nil, or_false, eq_comm]

end ScheduleRow
end LoanLedger
