import LoanLedger.Proofs.Money.Fit
import LoanLedger.Proofs.RoundedShare

/-!
Days before interest starts. An accrual up to such a day takes the interest of its row to nothing,
since no day that bears interest has passed; but where interest starts no earlier than the row is
due there are no such days at all, and the whole income is the share.
-/

set_option autoImplicit false
set_option relaxedAutoImplicit false

namespace LoanLedger

variable {row : ScheduleRow} {start till : Date}

namespace ScheduleRow

theorem interestStartBy_of_after (hfrom : row.interestFrom = some start)
    (hafter : row.fromDate < start) (limit : Date) : row.interestStartBy limit = start.min limit := by
  simp only [interestStartBy]
  rw [hfrom]
  exact if_pos hafter

theorem daysPassed_beforeStart (hfrom : row.interestFrom = some start)
    (hafter : row.fromDate < start) (hbefore : till ≤ start) : row.daysPassed till = 0 := by
  have hmin : start.min till = till := by
    unfold Date.min
    split
    · next hle => exact Date.ext_day (Int.le_antisymm hle hbefore)
    · rfl
  rw [daysPassed, interestStartBy_of_after hfrom hafter, hmin]
  exact Int.sub_self till.day

theorem interestDays_pos_iff (hfrom : row.interestFrom = some start)
    (hafter : row.fromDate < start) : 0 < row.interestDays ↔ start < row.dueDate := by
  rw [interestDays, interestStart, interestStartBy_of_after hfrom hafter]
  unfold Date.min
  split
  · exact Date.daysUntil_pos_iff
  · next hlate =>
    rw [Date.daysUntil_pos_iff]
    exact iff_of_false (Int.lt_irrefl _) fun hlt => hlate (Int.le_of_lt hlt)

end ScheduleRow

namespace Portion

variable {target accrued credited : Option Money} {x : Portion}

theorem delta_nonneg (h : towards target accrued credited = .ok x) :
    0 ≤ (Money.orZero x.delta).value := by
  have hadvances := towards_advances h
  cases hdelta : x.delta with
  | none => exact Money.value_zero.ge
  | some d =>
    rw [hdelta] at hadvances
    exact (Money.isPositive_iff_value.mp hadvances.isPositive).le

/-- Where nothing is credited, nothing is added to a column exactly when it has reached its
target. -/
theorem delta_eq_none_iff (h : towards target accrued none = .ok x) :
    x.delta = none ↔ ∀ t ∈ target, t.value ≤ (Money.orZero accrued).value := by
  cases target with
  | none =>
    rw [towards_none] at h
    cases h
    exact iff_of_true rfl fun t ht => nomatch ht
  | some t =>
    obtain ⟨covered, delta, total, hcovered, hdelta, -, rfl⟩ := towards_some_eq_ok.mp h
    have hvalue : covered.value = (Money.orZero accrued).value :=
      (Money.agree_of_add_zero rfl hcovered).value_eq
    have hnonneg : 0 ≤ delta.value := Money.value_nonneg_iff.mpr (Money.monus_units_nonneg hdelta)
    have hpos : 0 < delta.value ↔ (Money.orZero accrued).value < t.value :=
      hvalue ▸ Money.monus_pos_iff hdelta
    rw [Money.nonZero_eq_none_iff, Money.units_eq_zero_iff, ← Money.value_eq_zero_iff]
    constructor
    · rintro hzero u hu
      cases hu
      exact not_lt.mp fun hlt => (hpos.mpr hlt).ne' hzero
    · intro hle
      exact le_antisymm (not_lt.mp fun hlt => (hpos.mp hlt).not_ge (hle t rfl)) hnonneg

/-- A column that holds nothing negative can be taken to zero, and keeps what it holds. -/
theorem exists_towards_zero (haccrued : 0 ≤ (Money.orZero accrued).value) :
    ∃ x, towards (some .zero) accrued none = .ok x ∧ x.delta = none := by
  obtain ⟨covered, hcovered, hagree⟩ := Money.exists_add_zero (d := .zero) rfl (Money.orZero accrued)
  obtain ⟨rest, hrest⟩ := Money.exists_sub_of_nonneg (a := .zero) (b := covered)
    Money.value_zero.ge (hagree.value_eq ▸ haccrued)
  have hdelta : Money.zero.monus covered = .ok rest.clamp := bind_eq_ok.mpr ⟨rest, hrest, rfl⟩
  have hzero : rest.clamp.mantissa = 0 := by
    have hnonneg := Money.value_nonneg_iff.mpr (Money.monus_units_nonneg hdelta)
    have hnot : ¬0 < rest.clamp.value := by
      rw [Money.monus_pos_iff hdelta, hagree.value_eq, Money.value_zero]
      exact haccrued.not_gt
    exact Money.value_eq_zero_iff.mp (le_antisymm (not_lt.mp hnot) hnonneg)
  obtain ⟨total, htotal, -⟩ := Money.exists_add_zero hzero (Money.orZero accrued)
  refine ⟨_, towards_some_eq_ok.mpr ⟨covered, _, total, hcovered, hdelta, htotal, rfl⟩, ?_⟩
  exact (Money.nonZero_eq_none_iff _).mpr ((Money.units_eq_zero_iff _).mpr hzero)

end Portion

/-- A posting that adds no interest: its transaction has no interest portion, and the interest that
has accrued on the row stays what it is. -/
structure Posting.KeepsInterest (x : Posting) (row : ScheduleRow) : Prop where
  portion : x.transaction.interest = none
  total : (Money.orZero x.totals.interest).Agree (Money.orZero row.accruedInterest)

namespace PreparedAccrual

variable {p : PreparedAccrual} {s : Settings} {rounding : RoundingMode} {id : TransactionId}
  {processedOn : Date} {target : Option Money} {parts : Portions} {amount : Money}

/-- Portions that together are not positive are all absent. -/
private theorem interest_eq_none (hparts : p.portions rounding target = .ok parts)
    (hamount : parts.amount = .ok amount) (hpos : ¬amount.isPositive = true) :
    parts.interest.delta = none := by
  obtain ⟨hinterest, hfee, hpenalty⟩ := portions_eq_ok.mp hparts
  obtain ⟨part, hpart, hamount⟩ := bind_eq_ok.mp hamount
  have hadvances := Portion.towards_advances hinterest
  have hfeeNonneg := Portion.delta_nonneg hfee
  have hpenaltyNonneg := Portion.delta_nonneg hpenalty
  cases hdelta : parts.interest.delta with
  | none => rfl
  | some d =>
    rw [hdelta] at hadvances hpart
    have hd : 0 < d.value := Money.isPositive_iff_value.mp hadvances.isPositive
    have hpartPos : 0 < part.value := (Money.add_pos_iff hpart).mpr (by
      rw [Money.orZero_some]
      linarith)
    have hamountPos : 0 < amount.value := (Money.add_pos_iff hamount).mpr (by linarith)
    exact absurd (Money.isPositive_iff_value.mpr hamountPos) hpos

/-- An accrual up to a date adds no interest exactly when its row has accrued the interest that the
date asks for. -/
theorem postTill_keepsInterest_iff {o : Option Posting}
    (htarget : p.interestTill s.rounding till = .ok target)
    (h : p.postTill s id till processedOn = .ok o) :
    (∀ x ∈ o, x.KeepsInterest p.row) ↔
      ∀ t ∈ target, t.value ≤ (Money.orZero p.row.accruedInterest).value := by
  obtain ⟨target', htarget', h⟩ := bind_eq_ok.mp h
  obtain rfl : target = target' := Except.ok.inj (htarget.symm.trans htarget')
  obtain ⟨parts, hparts, hpost⟩ := bind_eq_ok.mp h
  obtain ⟨amount, hamount, rfl⟩ := post_eq_ok.mp hpost
  have hinterest := (portions_eq_ok.mp hparts).1
  rw [← Portion.delta_eq_none_iff hinterest]
  by_cases hpos : amount.isPositive = true
  · rw [if_pos hpos]
    constructor
    · exact fun hkeeps => (hkeeps _ rfl).portion
    · rintro hnone x hx
      cases hx
      have hadvances := Portion.towards_advances hinterest
      rw [hnone] at hadvances
      exact ⟨hnone, hadvances⟩
  · -- nothing is posted only when no portion is left, so the target has been reached
    rw [if_neg hpos]
    exact iff_of_true (fun x hx => nomatch hx) (interest_eq_none hparts hamount hpos)

/-- Before interest starts, a row comes to no interest, unless interest starts no earlier than the row
is due; then it comes to all of it. -/
theorem interestTill_beforeStart (hfrom : p.row.interestFrom = some start)
    (hafter : p.row.fromDate < start) (hbefore : till ≤ start) (rounding : RoundingMode) :
    p.interestTill rounding till = .ok (p.interest.accruable.map fun income =>
      if start < p.row.dueDate then .zero else income.round p.row.currency rounding) := by
  simp only [interestTill]
  cases p.interest.accruable with
  | none => rfl
  | some income =>
    have hpassed : (p.row.interestStartBy till).daysUntil till = 0 :=
      ScheduleRow.daysPassed_beforeStart hfrom hafter hbefore
    have hdays : 0 < p.row.interestStart.daysUntil p.row.dueDate ↔ start < p.row.dueDate :=
      ScheduleRow.interestDays_pos_iff hfrom hafter
    dsimp only [Option.map_some]
    rw [hpassed]
    by_cases hstart : start < p.row.dueDate
    · rw [if_pos hstart, Money.prorate_of_nonpos income (Int.le_refl 0) (hdays.mpr hstart), bind_ok,
        Money.zero_round]
      rfl
    · -- no day of the period bears interest, and the share of no days is the whole
      have hnone : p.row.interestStart.daysUntil p.row.dueDate ≤ 0 :=
        Int.not_lt.mp fun hpos => hstart (hdays.mp hpos)
      have hall : income.prorate 0 (p.row.interestStart.daysUntil p.row.dueDate) = .ok income :=
        if_pos (.inl hnone)
      rw [if_neg hstart, hall]
      rfl

/-- No interest before interest starts. Up to a day before it, an accrual adds no interest exactly
when what has accrued is not negative and, where interest starts no earlier than the row is due, when
all of the income has accrued. In the first case the interest of the row can always be settled. -/
theorem postTill_beforeStart (hfrom : p.row.interestFrom = some start)
    (hafter : p.row.fromDate < start) (hbefore : till ≤ start) (s : Settings) (id : TransactionId)
    (processedOn : Date) :
    (∀ o, p.postTill s id till processedOn = .ok o →
      ((∀ x ∈ o, x.KeepsInterest p.row) ↔ ∀ income ∈ p.interest.accruable,
        if start < p.row.dueDate then 0 ≤ (Money.orZero p.row.accruedInterest).value
        else (income.round p.row.currency s.rounding).value ≤
          (Money.orZero p.row.accruedInterest).value)) ∧
    (start < p.row.dueDate → 0 ≤ (Money.orZero p.row.accruedInterest).value →
      ∃ target x, p.interestTill s.rounding till = .ok target ∧
        Portion.towards target p.row.accruedInterest none = .ok x ∧ x.delta = none) := by
  have htarget := interestTill_beforeStart hfrom hafter hbefore s.rounding
  constructor
  · intro o h
    rw [postTill_keepsInterest_iff htarget h]
    cases p.interest.accruable with
    | none => exact iff_of_true (fun t ht => nomatch ht) fun income hincome => nomatch hincome
    | some income =>
      simp only [Option.map_some, Option.mem_some_iff, forall_eq']
      split
      · rw [Money.value_zero]
      · rfl
  · intro hstart haccrued
    cases haccruable : p.interest.accruable with
    | none =>
      rw [haccruable] at htarget
      exact ⟨none, _, htarget, rfl, rfl⟩
    | some income =>
      rw [haccruable, Option.map_some, if_pos hstart] at htarget
      obtain ⟨x, hx, hdelta⟩ := Portion.exists_towards_zero haccrued
      exact ⟨_, x, htarget, hx, hdelta⟩

end PreparedAccrual

/-- The first row with its interest starting on a day of choice, and a fee of 10.50. -/
def januaryInterestFrom (start : Date) : PreparedAccrual where
  row := { januaryRow with interestFrom := some start }
  charges := ⟨[], some (cents 1050), none⟩
  interest := .unchanged januaryRow.interestIncome

/-- 2024-01-30, the day before the row is due. -/
def thirtiethOfJanuary : Date := ⟨739191 + 29, by decide, by decide⟩

/-- Up to 2024-01-11, interest that starts on 2024-01-30 leaves the fee alone to be posted. -/
theorem postTill_beforeStart_january :
    januaryRow.fromDate < thirtiethOfJanuary ∧ eleventhOfJanuary ≤ thirtiethOfJanuary ∧
    (∃ x, (januaryInterestFrom thirtiethOfJanuary).postTill .standard (.ofNat 0) eleventhOfJanuary
        eleventhOfJanuary = .ok (some x) ∧
      x.transaction.amount = cents 1050 ∧ x.KeepsInterest januaryRow) ∧
    ∃ target x, (januaryInterestFrom thirtiethOfJanuary).interestTill .halfEven eleventhOfJanuary =
        .ok target ∧
      Portion.towards target none none = .ok x ∧ x.delta = none := by
  have hafter : januaryRow.fromDate < thirtiethOfJanuary := by decide
  have hbefore : eleventhOfJanuary ≤ thirtiethOfJanuary := by decide
  obtain ⟨hkeeps, hsettles⟩ := @PreparedAccrual.postTill_beforeStart thirtiethOfJanuary
    eleventhOfJanuary (januaryInterestFrom thirtiethOfJanuary) rfl hafter hbefore .standard
    (.ofNat 0) eleventhOfJanuary
  obtain ⟨x, hx, hamount⟩ : ∃ x, (januaryInterestFrom thirtiethOfJanuary).postTill .standard
      (.ofNat 0) eleventhOfJanuary eleventhOfJanuary = .ok (some x) ∧
        x.transaction.amount = cents 1050 :=
    ⟨(((januaryInterestFrom thirtiethOfJanuary).postTill .standard (.ofNat 0) eleventhOfJanuary
      eleventhOfJanuary).toOption.join).get (by decide +kernel), by decide +kernel,
      by decide +kernel⟩
  have hstart : thirtiethOfJanuary < januaryRow.dueDate := by decide
  have haccrued : 0 ≤ (Money.orZero januaryRow.accruedInterest).value := Money.value_zero.ge
  have hnone : x.KeepsInterest (januaryInterestFrom thirtiethOfJanuary).row :=
    (hkeeps _ hx).mpr (fun income _ => (if_pos hstart).symm ▸ haccrued) x rfl
  exact ⟨hafter, hbefore, ⟨x, hx, hamount, hnone.portion, hnone.total⟩,
    hsettles hstart haccrued⟩

/-- Interest that starts on the due date, of which no day has passed on 2024-01-11, is posted in
full on that day. -/
theorem postTill_of_startOnDueDate :
    januaryRow.fromDate < januaryRow.dueDate ∧ januaryRow.fromDate ≤ eleventhOfJanuary ∧
    eleventhOfJanuary < januaryRow.dueDate ∧
    (januaryInterestFrom januaryRow.dueDate).row.interestFrom = some januaryRow.dueDate ∧
    (januaryInterestFrom januaryRow.dueDate).row.accruedInterest = none ∧
    ((januaryInterestFrom januaryRow.dueDate).postTill .standard (.ofNat 0) eleventhOfJanuary
      eleventhOfJanuary).toOption.map
        (Option.map fun x => (x.transaction.interest, x.totals.interest)) =
      some (some (some (cents 10000), some (cents 10000))) := by
  decide +kernel

end LoanLedger
