import LoanLedger.Proofs.Consistency
import LoanLedger.Proofs.Interest.Accruable
import LoanLedger.Proofs.Money.Whole

/-!
What the replay of waived periods conserves. A waiver is used up once at most, and waived interest is
covered or stays uncovered: the amounts that are left and the uncovered ones differ by as much as the
waivers that count and the waived interest of earlier periods. So what can accrue and what waivers take
off it come to the interest of the row, and the shortfall is bounded by what was waived.
-/

set_option autoImplicit false
set_option relaxedAutoImplicit false

namespace LoanLedger

/-- The later of two dates. -/
def Date.max (a b : Date) : Date := if a ≤ b then b else a

/-- What a waiver comes to, the recognized and the unrecognized part together. -/
def InterestWaiver.amount (w : InterestWaiver) : ℚ := w.recognized.value + w.unrecognized.value

theorem InterestWaiver.amount_nonneg {ws : List InterestWaiver}
    (h : ∀ a ∈ ws.flatMap InterestWaiver.amounts, 0 ≤ a.value) : ∀ w ∈ ws, 0 ≤ w.amount := by
  intro w hw
  refine add_nonneg (h _ (List.mem_flatMap.mpr ⟨w, hw, ?_⟩)) (h _ (List.mem_flatMap.mpr ⟨w, hw, ?_⟩))
  · exact List.mem_cons_self
  · exact List.mem_cons_of_mem _ List.mem_cons_self

namespace ScheduleRow

/-- The last date on which a waiver counts for a row, in a window ending at `till`. -/
def lastCounted (row : ScheduleRow) (till : Date) : Date :=
  row.fromDate.max (row.dueDate.min till)

/-- What the waivers that count for a row come to. -/
def waiversCounted (row : ScheduleRow) (till : Date) (ws : List InterestWaiver) : ℚ :=
  ((ws.filter fun w => w.date ≤ row.lastCounted till).map InterestWaiver.amount).sum

/-- The interest waived on the periods that are due before a row. -/
def waivedBefore (row : ScheduleRow) (periods : List WaivedPeriod) : ℚ :=
  ((periods.filter fun p => p.dueDate < row.dueDate).map (·.waived.value)).sum

/-- A row together with all that was waived on its loan, in range and without negative amounts. -/
structure WaiversExact (row : ScheduleRow) (periods : List WaivedPeriod)
    (ws : List InterestWaiver) : Prop extends row.WaiversInRange periods ws where
  rowNonneg : ∀ a ∈ row.amounts, 0 ≤ a.value
  periodsNonneg : ∀ p ∈ periods, 0 ≤ p.waived.value
  waiversNonneg : ∀ a ∈ ws.flatMap InterestWaiver.amounts, 0 ≤ a.value

variable {row : ScheduleRow} {periods : List WaivedPeriod}

@[simp] theorem waivedBefore_nil : row.waivedBefore [] = 0 := rfl

theorem waivedBefore_cons_of_lt {p : WaivedPeriod} (h : p.dueDate < row.dueDate) :
    row.waivedBefore (p :: periods) = p.waived.value + row.waivedBefore periods := by
  rw [waivedBefore, List.filter_cons_of_pos (by simpa using h), List.map_cons, List.sum_cons]
  rfl

theorem waivedBefore_cons_of_le {p : WaivedPeriod} (h : row.dueDate ≤ p.dueDate) :
    row.waivedBefore (p :: periods) = row.waivedBefore periods := by
  have hlater : ¬p.dueDate < row.dueDate := fun hlt => Date.not_le_iff.mpr hlt h
  rw [waivedBefore, List.filter_cons_of_neg (by simpa using hlater)]
  rfl

theorem waivedBefore_append (before after : List WaivedPeriod) :
    row.waivedBefore (before ++ after) = row.waivedBefore before + row.waivedBefore after := by
  rw [waivedBefore, List.filter_append, List.map_append, List.sum_append]
  rfl

theorem waivedBefore_nonneg (h : ∀ p ∈ periods, 0 ≤ p.waived.value) :
    0 ≤ row.waivedBefore periods :=
  List.sum_nonneg (List.forall_mem_map.mpr fun p hp => h p (List.mem_of_mem_filter hp))

theorem WaiversExact.income_plain {ws : List InterestWaiver} (h : row.WaiversExact periods ws) :
    (Money.orZero row.interestIncome).Plain 10 := by
  cases hincome : row.interestIncome with
  | none => exact Money.plain_zero
  | some a =>
    have hmem : a ∈ row.amounts := mem_amounts.mpr (.inl hincome)
    have hle := abs_le_totalSize hmem
    have hperiods := totalSize_nonneg (periods.map (·.waived))
    have hwaivers := totalSize_nonneg (ws.flatMap InterestWaiver.amounts)
    rw [abs_of_nonneg (h.rowNonneg a hmem)] at hle
    exact (h.rowFine a hmem).plain (h.rowNonneg a hmem) (by linarith [h.size])

end ScheduleRow

namespace ReconciledInterest

variable {row : ScheduleRow} {periods : List WaivedPeriod} {ws : List InterestWaiver} {till : Date}
  {bound : ℚ}

theorem counts_iff {w : InterestWaiver} :
    counts row till w = true ↔ w.date ≤ row.lastCounted till := by
  simp only [counts, Bool.or_eq_true, Bool.and_eq_true, decide_eq_true_eq,
    ScheduleRow.lastCounted, Date.max, Date.min]
  split <;> split <;> simp only [Date.le_iff, Date.lt_iff] at * <;> omega

theorem sum_applicable (row : ScheduleRow) (till : Date) (ws : List InterestWaiver) :
    ((applicable row till ws).map InterestWaiver.amount).sum = row.waiversCounted till ws := by
  have hfilter : ws.filter (counts row till) =
      ws.filter fun w => decide (w.date ≤ row.lastCounted till) :=
    List.filter_congr fun w _ => by rw [Bool.eq_iff_iff, counts_iff, decide_eq_true_eq]
  rw [ScheduleRow.waiversCounted, ← hfilter]
  exact ((List.mergeSort_perm _ _).map _).sum_eq

namespace Pool

variable {p p' : Pool} {waived : Money} {period : WaivedPeriod}

/-- What is left of the waivers, taken up or not. -/
def left (p : Pool) : ℚ :=
  p.recognized.value + p.unrecognized.value + (p.pending.map InterestWaiver.amount).sum

theorem Nonneg.left_nonneg (h : p.Nonneg) : 0 ≤ p.left :=
  add_nonneg (add_nonneg h.recognized h.unrecognized)
    (List.sum_nonneg (List.forall_mem_map.mpr (InterestWaiver.amount_nonneg h.pending)))

/-- Taking up a waiver changes neither what is left nor what is uncovered. -/
theorem Fits.left_refill (hp : p.Fits bound) (hbound : bound < Money.room)
    (h : p.refill = .ok p') : p'.left = p.left ∧ p'.uncovered = p.uncovered := by
  rcases refill_cases h with ⟨rfl, -⟩ | ⟨-, w, rest, r, u, hpending, hr, hu, rfl⟩
  · exact ⟨rfl, rfl⟩
  · obtain ⟨-, hrValue, huValue⟩ := hp.takeUp hbound hpending hr hu
    refine ⟨?_, rfl⟩
    rw [left, left, hpending, hrValue, huValue, List.map_cons, List.sum_cons, InterestWaiver.amount]
    abel

/-- What waived interest draws is missing afterwards, and what is missing is uncovered. -/
theorem Draws.balance {r u x r' u' x' : ℚ} (h : Draws r u x r' u' x') :
    r' + u' + x = r + u + x' := by
  rcases h with ⟨-, rfl, rfl, rfl⟩ | ⟨-, -, rfl, rfl, rfl⟩ | ⟨-, -, rfl, rfl, rfl⟩ <;> ring

theorem Draws.held_le {r u x r' u' x' : ℚ} (h : Draws r u x r' u' x') (hr : 0 ≤ r) (hu : 0 ≤ u)
    (hx : 0 ≤ x) : r' + u' ≤ r + u := by
  rcases h with ⟨-, rfl, rfl, rfl⟩ | ⟨-, -, rfl, rfl, rfl⟩ | ⟨-, -, rfl, rfl, rfl⟩ <;> linarith

/-- A pool before and after a replay: as much is missing of the waivers, beyond what was uncovered
then, as was waived on the earlier periods and is not uncovered now. -/
structure Settles (row : ScheduleRow) (periods : List WaivedPeriod) (p p' : Pool) : Prop where
  nonneg : p'.Nonneg
  balance : p'.left + p.uncovered.value + row.waivedBefore periods = p.left + p'.uncovered.value
  left_le : p'.left ≤ p.left

/-- One period is replayed. -/
theorem Fits.settles_replay (hp : p.Fits bound) (hn : p.Nonneg) (hw : period.waived.Fine)
    (hwNonneg : 0 ≤ period.waived.value) (hroom : bound + |period.waived.value| < Money.room)
    (h : p.replay row period = .ok p') : p.Settles row [period] p' := by
  obtain ⟨mid, hmid, hrest⟩ := replay_eq_ok h
  have hbound : bound < Money.room := (le_add_of_nonneg_right (abs_nonneg _)).trans_lt hroom
  obtain ⟨hleft, huncovered⟩ := hp.left_refill hbound hmid
  have hmidFits := hp.refill hbound hmid
  have hmidNonneg := hn.refill hp hbound hmid
  split at hrest
  · next hdue =>
    rw [hrest]
    refine ⟨hmidNonneg, ?_, hleft.le⟩
    rw [ScheduleRow.waivedBefore_cons_of_le hdue, hleft, huncovered, ScheduleRow.waivedBefore_nil,
      add_zero]
  · next hdue =>
    obtain ⟨-, hpending, hdraws⟩ := hmidFits.cover hw hroom hrest
    have hbalance := hdraws.balance
    have hheld := hdraws.held_le hmidNonneg.recognized hmidNonneg.unrecognized
      (add_nonneg hmidNonneg.uncovered hwNonneg)
    rw [left] at hleft
    refine ⟨hmidNonneg.cover hmidFits hw hroom hrest, ?_, ?_⟩
    · rw [ScheduleRow.waivedBefore_cons_of_lt (Date.not_le_iff.mp hdue),
        ScheduleRow.waivedBefore_nil, left, hpending, ← huncovered]
      linarith
    · rw [left, hpending]
      linarith

/-- The periods are replayed one after the other. -/
theorem Fits.settles_foldlM (hp : p.Fits bound) (hn : p.Nonneg)
    (hw : ∀ period ∈ periods, period.waived.Fine)
    (hwNonneg : ∀ period ∈ periods, 0 ≤ period.waived.value)
    (hroom : bound + totalSize (periods.map (·.waived)) < Money.room)
    (h : periods.foldlM (Pool.replay row) p = .ok p') : p.Settles row periods p' := by
  induction periods generalizing p bound with
  | nil =>
    rw [List.foldlM_nil, pure_eq_ok] at h
    subst h
    exact ⟨hn, add_zero _, le_rfl⟩
  | cons period periods ih =>
    obtain ⟨hperiod, hw⟩ := List.forall_mem_cons.mp hw
    obtain ⟨hperiodNonneg, hwNonneg⟩ := List.forall_mem_cons.mp hwNonneg
    rw [List.map_cons, totalSize_cons, ← add_assoc] at hroom
    have hrest := totalSize_nonneg (periods.map (·.waived))
    rw [List.foldlM_cons, bind_eq_ok] at h
    obtain ⟨mid, hmid, h⟩ := h
    have hroom' : bound + |period.waived.value| < Money.room := by linarith
    have hstep := hp.settles_replay hn hperiod hperiodNonneg hroom' hmid
    have hrun := ih (hp.replay hperiod hroom' hmid) hstep.nonneg hw hwNonneg hroom h
    refine ⟨hrun.nonneg, ?_, hrun.left_le.trans hstep.left_le⟩
    have hsplit := @ScheduleRow.waivedBefore_append row [period] periods
    rw [List.singleton_append] at hsplit
    have hstepBalance := hstep.balance
    have hrunBalance := hrun.balance
    linarith

end Pool

/-- What is reported of a row, by what was waived on its loan. The nominal interest is that of the row,
and what can accrue and the reduction come to it; the reduction is no more than what was waived on the
row. Where interest was waived on the row, waived interest of earlier periods stays uncovered at least
as far as it exceeds the waivers that count, and nothing else does; else nothing is replayed. -/
structure Conserves (row : ScheduleRow) (periods : List WaivedPeriod) (ws : List InterestWaiver)
    (till : Date) (i : ReconciledInterest) : Prop where
  nominal : i.nominal = row.interestIncome
  isSome_eq : i.accruable.isSome = i.nominal.isSome
  nonneg : 0 ≤ (Money.orZero i.accruable).value
  le : (Money.orZero i.accruable).value ≤ (Money.orZero i.nominal).value
  sum : (Money.orZero i.accruable).value + i.reduction.value = (Money.orZero i.nominal).value
  reduction_le : i.reduction.value ≤ (Money.orZero row.waivedInterest).value
  shortfall_le : i.shortfall.value ≤ row.waivedBefore periods
  le_shortfall : row.hasWaivedInterest = true →
    max 0 (row.waivedBefore periods - row.waiversCounted till ws) ≤ i.shortfall.value
  shortfall_of_unwaived : row.hasWaivedInterest = false → i.shortfall = .zero

theorem conserves_unchanged (h : row.WaiversExact periods ws) (hnone : row.waivedInterest = none) :
    Conserves row periods ws till (unchanged row.interestIncome) where
  nominal := rfl
  isSome_eq := rfl
  nonneg := h.income_plain.nonneg
  le := le_rfl
  sum := by rw [unchanged, Money.value_zero, add_zero]
  reduction_le := by rw [hnone]; exact le_rfl
  shortfall_le := Money.value_zero.trans_le (ScheduleRow.waivedBefore_nonneg h.periodsNonneg)
  le_shortfall hwaived := by rw [ScheduleRow.hasWaivedInterest, hnone] at hwaived; cases hwaived
  shortfall_of_unwaived _ := rfl

/-- All periods are replayed, from the waivers that count. -/
theorem settles_of_replay {p : Pool} (h : row.WaiversExact periods ws)
    (hp : periods.foldlM (Pool.replay row) ⟨applicable row till ws, .zero, .zero, .zero⟩ = .ok p) :
    Pool.Settles row periods ⟨applicable row till ws, .zero, .zero, .zero⟩ p :=
  (start_fits h.toWaiversInRange).settles_foldlM (start_nonneg h.waiversNonneg) h.periodsFine
    h.periodsNonneg (replay_room h.toWaiversInRange) hp

/-- As much stays uncovered as was waived on the earlier periods beyond the waivers that are used up. -/
theorem uncovered_bounds {p : Pool} (h : row.WaiversExact periods ws)
    (hp : periods.foldlM (Pool.replay row) ⟨applicable row till ws, .zero, .zero, .zero⟩ = .ok p) :
    p.uncovered.value ≤ row.waivedBefore periods ∧
      max 0 (row.waivedBefore periods - row.waiversCounted till ws) ≤ p.uncovered.value := by
  obtain ⟨hnonneg, hbalance, hleft⟩ := settles_of_replay h hp
  have hcounted : Pool.left ⟨applicable row till ws, .zero, .zero, .zero⟩ =
      row.waiversCounted till ws := by
    rw [Pool.left, sum_applicable, Money.value_zero, add_zero, zero_add]
  rw [hcounted] at hbalance hleft
  rw [Money.value_zero, add_zero] at hbalance
  have hpLeft := hnonneg.left_nonneg
  exact ⟨by linarith, max_le hnonneg.uncovered (by linarith)⟩

/-- Of the interest of a row no more is taken off than was waived on it. -/
theorem accruable_bounds {waived excess accruable : Money} {p : Pool}
    (h : row.WaiversExact periods ws) (hwaived : row.waivedInterest = some waived)
    (hp : periods.foldlM (Pool.replay row) ⟨applicable row till ws, .zero, .zero, .zero⟩ = .ok p)
    (hexcess : (if p.recognized < waived then waived.sub p.recognized else pure .zero) = .ok excess)
    (haccruable : (Money.orZero row.interestIncome).monus excess = .ok accruable) :
    accruable.Plain 10 ∧ accruable.value ≤ (Money.orZero row.interestIncome).value ∧
      (Money.orZero row.interestIncome).value ≤ accruable.value + waived.value := by
  obtain ⟨hfine, hsmall, hvalue⟩ :=
    accruable_value h.toWaiversInRange hwaived hp hexcess haccruable
  have hrecognized := (settles_of_replay h hp).nonneg.recognized
  have hincome := h.income_plain.nonneg
  have hwaivedNonneg : 0 ≤ waived.value := h.rowNonneg _
    (ScheduleRow.mem_amounts.mpr (.inr (.inr (.inr (.inr (.inl hwaived))))))
  have hexcessNonneg := le_max_right (waived.value - p.recognized.value) 0
  have hexcessLe : max (waived.value - p.recognized.value) 0 ≤ waived.value :=
    max_le (by linarith) hwaivedNonneg
  have hnonneg : 0 ≤ accruable.value := hvalue ▸ le_max_right _ _
  have hle := le_max_left ((Money.orZero row.interestIncome).value -
    max (waived.value - p.recognized.value) 0) 0
  rw [← hvalue] at hle
  refine ⟨hfine.plain hnonneg (abs_of_nonneg hnonneg ▸ hsmall), ?_, by linarith⟩
  rw [hvalue]
  exact max_le (by linarith) hincome

/-- With waived interest the row keeps what the replay leaves. -/
theorem conserves_of_waived {i : ReconciledInterest} {waived : Money}
    (h : row.WaiversExact periods ws) (hwaived : row.waivedInterest = some waived)
    (hi : ofWaivers row periods ws till = .ok i) : Conserves row periods ws till i := by
  obtain ⟨p, excess, accruable, hp, hexcess, haccruable, hreduction, hnominal, hsame, hshortfall⟩ :=
    ofWaivers_of_waived hwaived hi
  obtain ⟨huncovered, hleast⟩ := uncovered_bounds h hp
  obtain ⟨hplain, hle, hwaivedLe⟩ := accruable_bounds h hwaived hp hexcess haccruable
  obtain ⟨-, hreductionValue⟩ := h.income_plain.sub hplain hreduction hle
  have hshown : (Money.orZero i.accruable).value = accruable.value := by
    rw [hsame]
    cases hnone : row.interestIncome with
    | none =>
      -- of no interest nothing can accrue
      rw [hnone, Money.orZero_none, Money.value_zero] at hle
      exact Money.value_zero.trans (le_antisymm hplain.nonneg hle)
    | some a => rfl
  rw [← hnominal] at hle hwaivedLe hreductionValue
  exact {
    nominal := hnominal
    isSome_eq := by rw [hsame, hnominal, Option.isSome_map]
    nonneg := hshown ▸ hplain.nonneg
    le := hshown ▸ hle
    sum := by rw [hshown, hreductionValue, add_sub_cancel]
    reduction_le := by rw [hreductionValue, hwaived, Money.orZero_some]; linarith
    shortfall_le := hshortfall ▸ huncovered
    le_shortfall := fun _ => hshortfall ▸ hleast
    shortfall_of_unwaived := fun hnone => by
      rw [ScheduleRow.hasWaivedInterest, hwaived] at hnone
      cases hnone }

/-- In range, and without negative amounts, a row has what its waivers leave, and waivers of different
dates leave it the same in whatever order they are given. -/
theorem ofWaivers_conserves (h : row.WaiversExact periods ws) (till : Date) :
    ∃ i, ofWaivers row periods ws till = .ok i ∧ Conserves row periods ws till i ∧
      ∀ ws', ws'.Perm ws → (ws.map (·.date)).Nodup → ofWaivers row periods ws' till = .ok i := by
  obtain ⟨i, hi⟩ := exists_ofWaivers h.toWaiversInRange till
  refine ⟨i, hi, ?_, fun ws' hperm hdates => ?_⟩
  · cases hwaived : row.waivedInterest with
    | none =>
      rw [ofWaivers_of_unwaived hwaived] at hi
      exact Except.ok.inj hi ▸ conserves_unchanged h hwaived
    | some waived => exact conserves_of_waived h hwaived hi
  · rw [← hi]
    simp only [ofWaivers]
    rw [applicable_perm hperm hdates]

end ReconciledInterest

/-! Interest waived on January and on the row of February. -/

/-- The row of 2024-01-31 to 2024-03-01 with an amount of waived interest, or without. -/
def februaryWaived (waived : Option Money) : ScheduleRow :=
  { februaryRow with waivedInterest := waived }

/-- 31.00 was waived on the first period and 21.00 on the second. -/
def winterWaivedPeriods : List WaivedPeriod :=
  [⟨januaryRow.dueDate, cents 3100⟩, ⟨februaryRow.dueDate, cents 2100⟩]

/-- 14.00 on 2024-02-15, and before, on 2024-01-20, 42.00 of recognized and 5.50 of unrecognized
interest. -/
def winterWaivers : List InterestWaiver :=
  [⟨midFebruary, cents 1400, .zero⟩, ⟨⟨739210, by decide, by decide⟩, cents 4200, cents 550⟩]

/-- A row and waivers are in range where whole numbers tell so. -/
theorem ScheduleRow.WaiversExact.of_units {row : ScheduleRow} {periods : List WaivedPeriod}
    {ws : List InterestWaiver} (hrow : ∀ a ∈ row.amounts, a.Fine ∧ 0 ≤ a.units)
    (hperiods : ∀ p ∈ periods, p.waived.Fine ∧ 0 ≤ p.waived.units)
    (hwaivers : ∀ a ∈ ws.flatMap InterestWaiver.amounts, a.Fine ∧ 0 ≤ a.units)
    (hsize : totalSize row.amounts + (totalSize (periods.map (·.waived)) +
      totalSize (ws.flatMap InterestWaiver.amounts)) < 10 ^ 18) : row.WaiversExact periods ws where
  rowFine a ha := (hrow a ha).1
  periodsFine p hp := (hperiods p hp).1
  waiversFine a ha := (hwaivers a ha).1
  size := hsize
  rowNonneg a ha := Money.value_nonneg_iff.mpr (hrow a ha).2
  periodsNonneg p hp := Money.value_nonneg_iff.mpr (hperiods p hp).2
  waiversNonneg a ha := Money.value_nonneg_iff.mpr (hwaivers a ha).2

/-- The waiver of January covers the first period, and 11.00 of its recognized part are left for the
second. -/
theorem ofWaivers_conserves_winter :
    (februaryWaived (some (cents 2100))).WaiversExact winterWaivedPeriods winterWaivers ∧
    winterWaivers.reverse.Perm winterWaivers ∧ (winterWaivers.map (·.date)).Nodup ∧
    ∃ i, ReconciledInterest.ofWaivers (februaryWaived (some (cents 2100))) winterWaivedPeriods
        winterWaivers.reverse firstOfMarch = .ok i ∧
      ReconciledInterest.Conserves (februaryWaived (some (cents 2100))) winterWaivedPeriods
        winterWaivers firstOfMarch i ∧
      i.accruable = some (cents 9000) ∧ i.reduction = cents 1000 ∧ i.shortfall = .zero := by
  have hexact : (februaryWaived (some (cents 2100))).WaiversExact winterWaivedPeriods
      winterWaivers :=
    .of_units (by unfold Money.Fine; decide +kernel) (by unfold Money.Fine; decide +kernel)
      (by unfold Money.Fine; decide +kernel) (by decide +kernel)
  obtain ⟨i, hi, hconserves, hperm⟩ := ReconciledInterest.ofWaivers_conserves hexact firstOfMarch
  have hordered : ReconciledInterest.applicable (februaryWaived (some (cents 2100))) firstOfMarch
      winterWaivers = winterWaivers.reverse := by cbv
  have hrun : ReconciledInterest.ofWaivers (februaryWaived (some (cents 2100))) winterWaivedPeriods
      winterWaivers firstOfMarch =
        .ok ⟨some (cents 10000), some (cents 9000), cents 1000, .zero⟩ := by
    unfold ReconciledInterest.ofWaivers
    rw [hordered]
    rfl
  obtain rfl := Except.ok.inj (hrun.symm.trans hi)
  exact ⟨hexact, List.reverse_perm _, by decide, _, hperm _ (List.reverse_perm _) (by decide),
    hconserves, rfl, rfl, rfl⟩

/-- Without waived interest on the row the periods are not replayed: 10.00 that was waived on an earlier
period, without any waiver, is no shortfall. -/
theorem shortfall_of_unwaivedRow :
    (februaryWaived none).WaiversExact [⟨januaryRow.dueDate, cents 1000⟩] [] ∧
    ∃ i, ReconciledInterest.ofWaivers (februaryWaived none) [⟨januaryRow.dueDate, cents 1000⟩] []
        firstOfMarch = .ok i ∧ i.shortfall = .zero ∧
      (februaryWaived none).waivedBefore [⟨januaryRow.dueDate, cents 1000⟩] = 10 ∧
      (februaryWaived none).waiversCounted firstOfMarch [] = 0 ∧
      ¬max 0 ((februaryWaived none).waivedBefore [⟨januaryRow.dueDate, cents 1000⟩] -
        (februaryWaived none).waiversCounted firstOfMarch []) ≤ i.shortfall.value := by
  have hwaived : (februaryWaived none).waivedBefore [⟨januaryRow.dueDate, cents 1000⟩] = 10 := by
    decide +kernel
  refine ⟨.of_units (by unfold Money.Fine; decide +kernel) (by unfold Money.Fine; decide +kernel)
    (fun _ ha => nomatch ha) (by decide +kernel), _, rfl, rfl, hwaived, rfl, ?_⟩
  rw [hwaived]
  decide +kernel

end LoanLedger
