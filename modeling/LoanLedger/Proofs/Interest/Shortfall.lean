import LoanLedger.Proofs.Interest.Conservation

/-!
The shortfall of a row, exactly. A period that is due before the row takes up one waiver at most, and
only where those taken up before it are used up. The shortfall is what was waived on these periods
beyond the waivers that they take up; waivers that are not taken up are left, though they could cover
it.
-/

set_option autoImplicit false
set_option relaxedAutoImplicit false

namespace LoanLedger

namespace ReconciledInterest

/-- What periods have taken up of waivers in the end, where waivers of `taken` were taken up before
them and interest of `waived` was waived. A period takes up the next waiver if those before are used
up. -/
def takenUp (taken waived : ℚ) : List WaivedPeriod → List InterestWaiver → ℚ
  | [], _ => taken
  | _ :: _, [] => taken
  | period :: periods, w :: ws =>
    if taken ≤ waived then takenUp (taken + w.amount) (waived + period.waived.value) periods ws
    else takenUp taken (waived + period.waived.value) periods (w :: ws)

section TakenUp

variable {taken waived : ℚ} {period : WaivedPeriod} {periods : List WaivedPeriod}
  {w : InterestWaiver} {ws : List InterestWaiver}

@[simp] theorem takenUp_nil (periods : List WaivedPeriod) : takenUp taken waived periods [] = taken := by
  cases periods <;> rfl

theorem takenUp_cons_of_le (h : taken ≤ waived) :
    takenUp taken waived (period :: periods) (w :: ws) =
      takenUp (taken + w.amount) (waived + period.waived.value) periods ws := by
  rw [takenUp, if_pos h]

theorem takenUp_cons_of_lt (h : waived < taken) (ws : List InterestWaiver) :
    takenUp taken waived (period :: periods) ws =
      takenUp taken (waived + period.waived.value) periods ws := by
  cases ws with
  | nil => rw [takenUp_nil, takenUp_nil]
  | cons w ws => rw [takenUp, if_neg (not_le.mpr h)]

/-- No more is taken up than there is. -/
theorem takenUp_le (h : ∀ w ∈ ws, 0 ≤ w.amount) :
    takenUp taken waived periods ws ≤ taken + (ws.map InterestWaiver.amount).sum := by
  induction periods generalizing taken waived ws with
  | nil => exact le_add_of_nonneg_right (List.sum_nonneg (List.forall_mem_map.mpr h))
  | cons period periods ih =>
    cases ws with
    | nil => rw [takenUp_nil, List.map_nil, List.sum_nil, add_zero]
    | cons w ws =>
      rcases le_or_gt taken waived with hle | hlt
      · rw [takenUp_cons_of_le hle, List.map_cons, List.sum_cons, ← add_assoc]
        exact ih (List.forall_mem_cons.mp h).2
      · rw [takenUp_cons_of_lt hlt]
        exact ih h

end TakenUp

end ReconciledInterest

/-- What the periods that are due before a row take up of the waivers that count for it. -/
def ScheduleRow.waiversTaken (row : ScheduleRow) (till : Date) (periods : List WaivedPeriod)
    (ws : List InterestWaiver) : ℚ :=
  ReconciledInterest.takenUp 0 0 (periods.filter fun p => p.dueDate < row.dueDate)
    (ReconciledInterest.applicable row till ws)

namespace ReconciledInterest

variable {row : ScheduleRow} {periods : List WaivedPeriod} {ws : List InterestWaiver} {till : Date}
  {bound taken waived : ℚ}

/-- Waived interest that is drawn leaves what there was beyond it, or stays uncovered as far as it
exceeds that. -/
theorem Pool.Draws.eq_max {r u x r' u' x' : ℚ} (h : Draws r u x r' u' x') (hu : 0 ≤ u) :
    r' + u' = max 0 (r + u - x) ∧ x' = max 0 (x - (r + u)) := by
  rcases h with ⟨hlt, rfl, rfl, rfl⟩ | ⟨hle, hle', rfl, rfl, rfl⟩ | ⟨hle, hlt, rfl, rfl, rfl⟩
  · rw [max_eq_right (by linarith), max_eq_left (by linarith)]
    exact ⟨by ring, rfl⟩
  · rw [max_eq_right (by linarith), max_eq_left (by linarith)]
    exact ⟨by ring, rfl⟩
  · rw [max_eq_left (by linarith), max_eq_right (by linarith)]
    exact ⟨add_zero 0, by ring⟩

namespace Pool

variable {p p' : Pool} {m : Money} {period : WaivedPeriod}

/-- A pool that waivers of `taken` went into and interest of `waived` was covered from: one of them is
left beyond the other, or uncovered. -/
structure Holds (taken waived : ℚ) (p : Pool) : Prop where
  held : p.recognized.value + p.unrecognized.value = max 0 (taken - waived)
  uncovered : p.uncovered.value = max 0 (waived - taken)

theorem Holds.balance (h : p.Holds taken waived) :
    p.recognized.value + p.unrecognized.value - p.uncovered.value = taken - waived := by
  rw [h.held, h.uncovered, ← neg_sub taken waived, max_comm, max_comm 0 (-(taken - waived)),
    max_zero_sub_max_neg_zero_eq_self]

theorem Fits.holds_cover (hp : p.Fits bound) (hn : p.Nonneg) (hm : m.Fine)
    (hroom : bound + |m.value| < Money.room)
    (hbalance : p.recognized.value + p.unrecognized.value - p.uncovered.value = taken - waived)
    (h : p.cover m = .ok p') : p'.Holds taken (waived + m.value) := by
  obtain ⟨-, -, hdraws⟩ := hp.cover hm hroom h
  obtain ⟨hheld, huncovered⟩ := hdraws.eq_max hn.unrecognized
  have hrest : p.recognized.value + p.unrecognized.value - (p.uncovered.value + m.value) =
      taken - (waived + m.value) := by linarith
  refine ⟨by rw [hheld, hrest], ?_⟩
  rw [huncovered, ← neg_sub, hrest, neg_sub]

/-- Something of the waivers is left exactly when they came to more than was waived. -/
theorem Holds.isPositive_iff (hh : p.Holds taken waived) (hn : p.Nonneg) :
    (p.recognized.isPositive || p.unrecognized.isPositive) = true ↔ waived < taken := by
  have hr := hn.recognized
  have hu := hn.unrecognized
  have hheld : 0 < p.recognized.value + p.unrecognized.value ↔ waived < taken := by
    rw [hh.held, lt_max_iff, sub_pos, or_iff_right (lt_irrefl 0)]
  rw [← hheld, Bool.or_eq_true, Money.isPositive_iff, Money.isPositive_iff, ← Money.value_pos_iff,
    ← Money.value_pos_iff]
  refine ⟨by rintro (hpos | hpos) <;> linarith, fun hpos => ?_⟩
  by_contra hdry
  obtain ⟨hr', hu'⟩ := not_or.mp hdry
  linarith

/-- The next waiver is taken up if those before are used up. -/
theorem Holds.exists_refill (hh : p.Holds taken waived) (hp : p.Fits bound) (hn : p.Nonneg)
    (hbound : bound < Money.room) (h : p.refill = .ok p') : ∃ taken',
      p'.recognized.value + p'.unrecognized.value - p'.uncovered.value = taken' - waived ∧
      ∀ period periods, takenUp taken waived (period :: periods) p.pending =
        takenUp taken' (waived + period.waived.value) periods p'.pending := by
  rcases refill_cases h with ⟨rfl, hleft | hnil⟩ | ⟨hdry, w, rest, r, u, hpending, hr, hu, rfl⟩
  · exact ⟨taken, hh.balance, fun _ _ => takenUp_cons_of_lt ((hh.isPositive_iff hn).mp hleft) _⟩
  · refine ⟨taken, hh.balance, fun _ _ => ?_⟩
    rw [hnil, takenUp_nil, takenUp_nil]
  · have hle : taken ≤ waived := by
      refine not_lt.mp fun hlt => ?_
      rw [(hh.isPositive_iff hn).mpr hlt] at hdry
      cases hdry
    obtain ⟨-, hrValue, huValue⟩ := hp.takeUp hbound hpending hr hu
    have hbalance := hh.balance
    refine ⟨taken + w.amount, ?_, fun _ _ => by rw [hpending, takenUp_cons_of_le hle]⟩
    rw [hrValue, huValue, InterestWaiver.amount]
    linarith

/-- A period that is due before the row takes up a waiver if it has to, and draws what was waived on
it. -/
theorem Holds.exists_replay (hh : p.Holds taken waived) (hp : p.Fits bound) (hn : p.Nonneg)
    (hw : period.waived.Fine) (hroom : bound + |period.waived.value| < Money.room)
    (hdue : period.dueDate < row.dueDate) (h : p.replay row period = .ok p') :
    ∃ taken', p'.Holds taken' (waived + period.waived.value) ∧
      ∀ periods, takenUp taken waived (period :: periods) p.pending =
        takenUp taken' (waived + period.waived.value) periods p'.pending := by
  obtain ⟨mid, hmid, hcover⟩ := replay_eq_ok h
  rw [if_neg (Date.not_le_iff.mpr hdue)] at hcover
  have hbound : bound < Money.room := (le_add_of_nonneg_right (abs_nonneg _)).trans_lt hroom
  obtain ⟨taken', hbalance, htaken⟩ := hh.exists_refill hp hn hbound hmid
  have hfits := hp.refill hbound hmid
  obtain ⟨-, hpending, -⟩ := hfits.cover hw hroom hcover
  refine ⟨taken', hfits.holds_cover (hn.refill hp hbound hmid) hw hroom hbalance hcover, ?_⟩
  rw [hpending]
  exact htaken period

/-- Periods that are not due before the row leave uncovered what was. -/
theorem uncovered_of_later (hlater : ∀ period ∈ periods, row.dueDate ≤ period.dueDate)
    (h : periods.foldlM (Pool.replay row) p = .ok p') : p'.uncovered = p.uncovered := by
  induction periods generalizing p with
  | nil =>
    rw [List.foldlM_nil, pure_eq_ok] at h
    rw [h]
  | cons period periods ih =>
    obtain ⟨hdue, hlater⟩ := List.forall_mem_cons.mp hlater
    rw [List.foldlM_cons, bind_eq_ok] at h
    obtain ⟨mid, hmid, h⟩ := h
    obtain ⟨refilled, hrefill, hrest⟩ := replay_eq_ok hmid
    rw [if_pos hdue] at hrest
    rw [ih hlater h, hrest]
    rcases refill_cases hrefill with ⟨rfl, -⟩ | ⟨-, -, -, -, -, -, -, -, rfl⟩ <;> rfl

/-- Over periods in the order of their due dates as much is left uncovered as was waived on the
earlier ones beyond what they take up. -/
theorem Holds.uncovered_foldlM (hh : p.Holds taken waived) (hp : p.Fits bound) (hn : p.Nonneg)
    (hw : ∀ period ∈ periods, period.waived.Fine)
    (hwNonneg : ∀ period ∈ periods, 0 ≤ period.waived.value)
    (hsorted : periods.Pairwise fun a b => a.dueDate ≤ b.dueDate)
    (hroom : bound + totalSize (periods.map (·.waived)) < Money.room)
    (h : periods.foldlM (Pool.replay row) p = .ok p') :
    p'.uncovered.value = max 0 (waived + row.waivedBefore periods -
      takenUp taken waived (periods.filter fun a => a.dueDate < row.dueDate) p.pending) := by
  induction periods generalizing p bound taken waived with
  | nil =>
    rw [List.foldlM_nil, pure_eq_ok] at h
    rw [← h, hh.uncovered, ScheduleRow.waivedBefore_nil, add_zero]
    rfl
  | cons period periods ih =>
    obtain ⟨hfirst, hsorted⟩ := List.pairwise_cons.mp hsorted
    by_cases hdue : row.dueDate ≤ period.dueDate
    · -- neither this period nor a later one is due before the row
      have hlater : ∀ a ∈ period :: periods, row.dueDate ≤ a.dueDate :=
        List.forall_mem_cons.mpr ⟨hdue, fun a ha => Date.le_trans hdue (hfirst a ha)⟩
      have hnone : (period :: periods).filter (fun a => decide (a.dueDate < row.dueDate)) = [] := by
        refine List.filter_eq_nil_iff.mpr fun a ha hlt => ?_
        exact Date.not_le_iff.mpr (of_decide_eq_true hlt) (hlater a ha)
      rw [uncovered_of_later hlater h, hh.uncovered, ScheduleRow.waivedBefore, hnone, List.map_nil,
        List.sum_nil, add_zero]
      rfl
    · obtain ⟨hperiod, hw⟩ := List.forall_mem_cons.mp hw
      obtain ⟨hperiodNonneg, hwNonneg⟩ := List.forall_mem_cons.mp hwNonneg
      have hlt := Date.not_le_iff.mp hdue
      rw [List.map_cons, totalSize_cons, ← add_assoc] at hroom
      have hrest := totalSize_nonneg (periods.map (·.waived))
      have hroom' : bound + |period.waived.value| < Money.room := by linarith
      rw [List.foldlM_cons, bind_eq_ok] at h
      obtain ⟨mid, hmid, h⟩ := h
      obtain ⟨taken', hholds, htaken⟩ := hh.exists_replay hp hn hperiod hroom' hlt hmid
      have hsettles := hp.settles_replay hn hperiod hperiodNonneg hroom' hmid
      rw [ih hholds (hp.replay hperiod hroom' hmid) hsettles.nonneg hw hwNonneg hsorted hroom h,
        ScheduleRow.waivedBefore_cons_of_lt hlt, List.filter_cons_of_pos (by simpa using hlt), htaken,
        add_assoc]

end Pool

private theorem max_sub_eq_iff {a b c : ℚ} (h : b ≤ c) :
    max 0 (a - b) = max 0 (a - c) ↔ a ≤ b ∨ b = c := by
  constructor
  · intro heq
    by_contra hne
    obtain ⟨hlt, hbc⟩ := not_or.mp hne
    rw [max_eq_right (by linarith)] at heq
    rcases max_choice 0 (a - c) with hmax | hmax
    · linarith
    · exact hbc (by linarith)
  · rintro (hle | rfl)
    · rw [max_eq_left (by linarith), max_eq_left (by linarith)]
    · rfl

/-- In range, and with periods in the order of their due dates, the shortfall of a row with waived
interest is what was waived before it beyond the waivers that were taken up. That is what was waived
beyond all waivers that count exactly when the waivers taken up are enough, or come to all. -/
theorem ofWaivers_shortfall (h : row.WaiversExact periods ws)
    (hsorted : periods.Pairwise fun a b => a.dueDate ≤ b.dueDate)
    (hwaived : row.hasWaivedInterest = true) (till : Date) :
    ∃ i, ofWaivers row periods ws till = .ok i ∧
      i.shortfall.value = max 0 (row.waivedBefore periods - row.waiversTaken till periods ws) ∧
      (i.shortfall.value = max 0 (row.waivedBefore periods - row.waiversCounted till ws) ↔
        row.waivedBefore periods ≤ row.waiversTaken till periods ws ∨
          row.waiversTaken till periods ws = row.waiversCounted till ws) := by
  have hrow := h.toWaiversInRange
  obtain ⟨i, hi⟩ := exists_ofWaivers hrow till
  obtain ⟨waived, hsome⟩ := Option.isSome_iff_exists.mp hwaived
  obtain ⟨p, -, -, hp, -, -, -, -, -, hshortfall⟩ := ofWaivers_of_waived hsome hi
  have hstart : Pool.Holds 0 0 ⟨applicable row till ws, .zero, .zero, .zero⟩ :=
    ⟨by rw [Money.value_zero, add_zero, sub_self, max_self],
      by rw [Money.value_zero, sub_self, max_self]⟩
  have hvalue := hstart.uncovered_foldlM (start_fits hrow) (start_nonneg h.waiversNonneg)
    hrow.periodsFine h.periodsNonneg hsorted (replay_room hrow) hp
  rw [zero_add, ← hshortfall] at hvalue
  have htaken : row.waiversTaken till periods ws ≤ row.waiversCounted till ws := by
    have hle := @takenUp_le 0 0 (periods.filter fun a => a.dueDate < row.dueDate)
      (applicable row till ws) (InterestWaiver.amount_nonneg (start_nonneg h.waiversNonneg).pending)
    rwa [zero_add, sum_applicable] at hle
  refine ⟨i, hi, hvalue, ?_⟩
  rw [hvalue]
  exact max_sub_eq_iff htaken

end ReconciledInterest

/-! Waivers that are used up where a period ends, and waivers that are not. -/

/-- 19.00 was waived on a period due on 2024-01-15, 31.00 on one due on 2024-01-31, and 21.00 on the row
of February. -/
def halfMonthPeriods : List WaivedPeriod :=
  ⟨⟨739205, by decide, by decide⟩, cents 1900⟩ :: winterWaivedPeriods

/-- 19.00 on 2024-01-09 and 26.00 on 2024-01-21. -/
def halfMonthWaivers : List InterestWaiver :=
  [⟨⟨739199, by decide, by decide⟩, cents 950, cents 950⟩,
    ⟨⟨739211, by decide, by decide⟩, .zero, cents 2600⟩]

/-- The first waiver covers the first period, the second is taken up for the second period and is short
of 5.00. -/
theorem ofWaivers_shortfall_halfMonth :
    (februaryWaived (some (cents 2100))).WaiversExact halfMonthPeriods halfMonthWaivers ∧
    halfMonthPeriods.Pairwise (fun a b => a.dueDate ≤ b.dueDate) ∧
    (februaryWaived (some (cents 2100))).hasWaivedInterest = true ∧
    ∃ i, ReconciledInterest.ofWaivers (februaryWaived (some (cents 2100))) halfMonthPeriods
        halfMonthWaivers firstOfMarch = .ok i ∧
      i.shortfall.value = 5 ∧
      i.shortfall.value = max 0 ((februaryWaived (some (cents 2100))).waivedBefore halfMonthPeriods -
        (februaryWaived (some (cents 2100))).waiversCounted firstOfMarch halfMonthWaivers) := by
  have hexact : (februaryWaived (some (cents 2100))).WaiversExact halfMonthPeriods
      halfMonthWaivers :=
    .of_units (by unfold Money.Fine; decide +kernel) (by unfold Money.Fine; decide +kernel)
      (by unfold Money.Fine; decide +kernel) (by decide +kernel)
  have hordered : ReconciledInterest.applicable (februaryWaived (some (cents 2100))) firstOfMarch
      halfMonthWaivers = halfMonthWaivers := by cbv
  have htaken : (februaryWaived (some (cents 2100))).waiversTaken firstOfMarch halfMonthPeriods
      halfMonthWaivers = 45 := by
    rw [ScheduleRow.waiversTaken, hordered]
    decide +kernel
  obtain ⟨i, hi, hvalue, hiff⟩ :=
    ReconciledInterest.ofWaivers_shortfall hexact (by decide) rfl firstOfMarch
  rw [htaken] at hvalue hiff
  exact ⟨hexact, by decide, rfl, i, hi, hvalue.trans (by decide +kernel),
    hiff.mpr (.inr (by decide +kernel))⟩

/-- 11.00 on 2024-01-21 and 26.00 on 2024-01-25. -/
def januaryWaivers : List InterestWaiver :=
  [⟨⟨739211, by decide, by decide⟩, cents 1100, .zero⟩,
    ⟨⟨739215, by decide, by decide⟩, .zero, cents 2600⟩]

/-- The first period, of which 31.00 was waived, takes up the first waiver only: 20.00 stay uncovered,
though both waivers come to 37.00. -/
theorem shortfall_of_splitWaiver :
    (februaryWaived (some (cents 2100))).WaiversExact winterWaivedPeriods januaryWaivers ∧
    winterWaivedPeriods.Pairwise (fun a b => a.dueDate ≤ b.dueDate) ∧
    (februaryWaived (some (cents 2100))).hasWaivedInterest = true ∧
    ∃ i, ReconciledInterest.ofWaivers (februaryWaived (some (cents 2100))) winterWaivedPeriods
        januaryWaivers firstOfMarch = .ok i ∧
      i.shortfall = cents 2000 ∧
      (februaryWaived (some (cents 2100))).waivedBefore winterWaivedPeriods = 31 ∧
      (februaryWaived (some (cents 2100))).waiversCounted firstOfMarch januaryWaivers = 37 ∧
      i.shortfall.value ≠ max 0 ((februaryWaived (some (cents 2100))).waivedBefore
        winterWaivedPeriods -
          (februaryWaived (some (cents 2100))).waiversCounted firstOfMarch januaryWaivers) := by
  have hordered : ReconciledInterest.applicable (februaryWaived (some (cents 2100))) firstOfMarch
      januaryWaivers = januaryWaivers := by cbv
  have hrun : ReconciledInterest.ofWaivers (februaryWaived (some (cents 2100))) winterWaivedPeriods
      januaryWaivers firstOfMarch =
        .ok ⟨some (cents 10000), some (cents 7900), cents 2100, cents 2000⟩ := by
    unfold ReconciledInterest.ofWaivers
    rw [hordered]
    rfl
  exact ⟨.of_units (by unfold Money.Fine; decide +kernel) (by unfold Money.Fine; decide +kernel)
    (by unfold Money.Fine; decide +kernel) (by decide +kernel), by decide, rfl, _, hrun, rfl,
    by decide +kernel, by decide +kernel, by decide +kernel⟩

end LoanLedger
