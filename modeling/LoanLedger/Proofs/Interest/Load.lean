import LoanLedger.Proofs.Interest.Applicable
import LoanLedger.Proofs.Money.Load

/-!
Waivers within capacity. Whatever is rounded while periods are replayed, a pool and the waivers
still to come have no more load than the waivers and the waived interest that came in, so as long
as these leave room no step of the replay can fail.
-/

set_option autoImplicit false
set_option relaxedAutoImplicit false

namespace LoanLedger

/-- The loads of the amounts of a row, all together. -/
theorem ScheduleRow.loads_le (row : ScheduleRow) :
    (Money.orZero row.interestIncome).load + (Money.orZero row.accruedInterest).load +
      (Money.orZero row.accruedFee).load + (Money.orZero row.accruedPenalty).load +
      (Money.orZero row.waivedInterest).load + (Money.orZero row.creditedFee).load +
      (Money.orZero row.creditedPenalty).load ≤ 10 * totalSize row.amounts := by
  simp only [amounts]
  rw [totalSize_reduceOption]
  simp only [List.map_cons, List.map_nil, List.sum_cons, List.sum_nil]
  have h₁ := (Money.orZero row.interestIncome).load_le
  have h₂ := (Money.orZero row.accruedInterest).load_le
  have h₃ := (Money.orZero row.accruedFee).load_le
  have h₄ := (Money.orZero row.accruedPenalty).load_le
  have h₅ := (Money.orZero row.waivedInterest).load_le
  have h₆ := (Money.orZero row.creditedFee).load_le
  have h₇ := (Money.orZero row.creditedPenalty).load_le
  linarith

theorem ScheduleRow.interest_loads_le (row : ScheduleRow) :
    (Money.orZero row.interestIncome).load + (Money.orZero row.waivedInterest).load ≤
      10 * totalSize row.amounts := by
  have := row.loads_le
  have h₁ := (Money.orZero row.accruedInterest).load_nonneg
  have h₂ := (Money.orZero row.accruedFee).load_nonneg
  have h₃ := (Money.orZero row.accruedPenalty).load_nonneg
  have h₄ := (Money.orZero row.creditedFee).load_nonneg
  have h₅ := (Money.orZero row.creditedPenalty).load_nonneg
  linarith

namespace ReconciledInterest

variable {row : ScheduleRow} {periods : List WaivedPeriod} {ws : List InterestWaiver}

namespace Pool

variable {p : Pool}

/-- What a pool holds, with the waivers that are still to come. -/
def load (p : Pool) : ℚ :=
  p.recognized.load + p.unrecognized.load + p.uncovered.load +
    10 * totalSize (p.pending.flatMap InterestWaiver.amounts)

private theorem pending_nonneg (p : Pool) :
    0 ≤ 10 * totalSize (p.pending.flatMap InterestWaiver.amounts) := by
  have := totalSize_nonneg (p.pending.flatMap InterestWaiver.amounts)
  linarith

theorem recognized_le_load (p : Pool) : p.recognized.load ≤ p.load := by
  have := p.pending_nonneg
  have := p.unrecognized.load_nonneg
  have := p.uncovered.load_nonneg
  simp only [load]
  linarith

theorem exists_refill_of_load (h : p.load ≤ Money.capacity) :
    ∃ p', p.refill = .ok p' ∧ p'.load ≤ p.load := by
  simp only [refill]
  split
  · exact ⟨p, rfl, le_rfl⟩
  · split
    · exact ⟨p, rfl, le_rfl⟩
    · next w rest hpending =>
      simp only [load] at h ⊢
      rw [hpending, List.flatMap_cons, totalSize_append, InterestWaiver.amounts, totalSize_cons,
        totalSize_cons, totalSize_nil] at h ⊢
      have hrest := totalSize_nonneg (rest.flatMap InterestWaiver.amounts)
      have hrecognized := p.recognized.load_nonneg
      have hunrecognized := p.unrecognized.load_nonneg
      have huncovered := p.uncovered.load_nonneg
      have hr := w.recognized.load_le
      have hu := w.unrecognized.load_le
      have hr' := w.recognized.load_nonneg
      have hu' := w.unrecognized.load_nonneg
      obtain ⟨r, hadd, hload⟩ :=
        Money.exists_add_of_load (a := p.recognized) (b := w.recognized) (by linarith)
      obtain ⟨u, hadd', hload'⟩ :=
        Money.exists_add_of_load (a := p.unrecognized) (b := w.unrecognized) (by linarith)
      refine ⟨_, bind_eq_ok.mpr ⟨r, hadd, bind_eq_ok.mpr ⟨u, hadd', rfl⟩⟩, ?_⟩
      dsimp only
      linarith

theorem exists_cover_of_load (p : Pool) (waived : Money)
    (h : p.load + waived.load ≤ Money.capacity) :
    ∃ p', p.cover waived = .ok p' ∧ p'.load ≤ p.load + waived.load := by
  have hpending := p.pending_nonneg
  have hrecognized := p.recognized.load_nonneg
  have hunrecognized := p.unrecognized.load_nonneg
  have huncovered := p.uncovered.load_nonneg
  have hwaived := waived.load_nonneg
  simp only [load] at h ⊢
  obtain ⟨x, hx, hxLoad⟩ :=
    Money.exists_add_of_load (a := p.uncovered) (b := waived) (by linarith)
  obtain ⟨r, hr, hrLoad⟩ :=
    Money.exists_sub_of_load (a := p.recognized) (b := x) (by linarith)
  obtain ⟨y, hy, hyLoad⟩ :=
    Money.exists_sub_of_load (a := x) (b := p.recognized) (by linarith)
  obtain ⟨u, hu, huLoad⟩ :=
    Money.exists_sub_of_load (a := p.unrecognized) (b := y) (by linarith)
  obtain ⟨z, hz, hzLoad⟩ :=
    Money.exists_sub_of_load (a := y) (b := p.unrecognized) (by linarith)
  simp only [cover]
  rw [hx, bind_ok]
  by_cases hlt : x < p.recognized
  · rw [if_pos hlt, hr]
    refine ⟨_, rfl, ?_⟩
    dsimp only
    rw [Money.load_zero]
    linarith
  · rw [if_neg hlt, hy, bind_ok]
    by_cases hle : y ≤ p.unrecognized
    · rw [if_pos hle, hu]
      refine ⟨_, rfl, ?_⟩
      dsimp only
      rw [Money.load_zero]
      linarith
    · rw [if_neg hle, hz]
      refine ⟨_, rfl, ?_⟩
      dsimp only
      rw [Money.load_zero]
      linarith

/-- Over a replay, a pool gains the waived interest of the periods at most. -/
theorem exists_replay_of_load {bound : ℚ} (hbound : bound ≤ Money.capacity)
    (h : p.load + 10 * totalSize (periods.map (·.waived)) ≤ bound) :
    ∃ p', periods.foldlM (Pool.replay row) p = .ok p' ∧ p'.load ≤ bound := by
  obtain ⟨p', hp', hload⟩ := exists_foldlM
    (P := fun (periods : List WaivedPeriod) p =>
      p.load + 10 * totalSize (periods.map (·.waived)) ≤ bound)
    (f := Pool.replay row) (fun period periods p hp => by
      rw [List.map_cons, totalSize_cons] at hp
      have hrest := totalSize_nonneg (periods.map (·.waived))
      have hwaived := period.waived.load_le
      have hnonneg := period.waived.load_nonneg
      obtain ⟨filled, hfilled, hload⟩ := p.exists_refill_of_load (by linarith)
      simp only [replay]
      rw [hfilled, bind_ok]
      split
      · exact ⟨filled, rfl, by linarith⟩
      · obtain ⟨covered, hcovered, hload'⟩ :=
          filled.exists_cover_of_load period.waived (by linarith)
        exact ⟨covered, hcovered, by linarith⟩) h
  rw [List.map_nil, totalSize_nil, mul_zero, add_zero] at hload
  exact ⟨p', hp', hload⟩

end Pool

private theorem applicable_size (row : ScheduleRow) (till : Date) (ws : List InterestWaiver) :
    totalSize ((applicable row till ws).flatMap InterestWaiver.amounts) ≤
      totalSize (ws.flatMap InterestWaiver.amounts) := by
  obtain ⟨l, hperm, hsub⟩ := applicable_subperm row till ws
  exact totalSize_le_of_subperm ⟨_, hperm.flatMap_right _, hsub.flatMap _⟩

/-- The waivers of a loan can be counted against a row when the row and all that was waived leave
room twice over; no more can accrue than all of that. -/
theorem exists_ofWaivers_of_load (row : ScheduleRow) (periods : List WaivedPeriod)
    (ws : List InterestWaiver) (till : Date) {bound : ℚ}
    (h : (Money.orZero row.interestIncome).load + (Money.orZero row.waivedInterest).load +
      10 * (totalSize (periods.map (·.waived)) +
        totalSize (ws.flatMap InterestWaiver.amounts)) ≤ bound)
    (hbound : 2 * bound ≤ Money.capacity) :
    ∃ i, ofWaivers row periods ws till = .ok i ∧ (Money.orZero i.accruable).load ≤ bound := by
  have hperiods := totalSize_nonneg (periods.map (·.waived))
  have hwaivers := totalSize_nonneg (ws.flatMap InterestWaiver.amounts)
  have hincome := (Money.orZero row.interestIncome).load_nonneg
  have hwaived := (Money.orZero row.waivedInterest).load_nonneg
  unfold ofWaivers
  split
  · exact ⟨_, rfl, by simp only [unchanged]; linarith⟩
  · next waived hsome =>
    rw [hsome, Money.orZero_some] at h hwaived
    obtain ⟨p, hp, hpLoad⟩ : ∃ p, periods.foldlM (Pool.replay row)
        ⟨applicable row till ws, .zero, .zero, .zero⟩ = .ok p ∧
          p.load ≤ 10 * (totalSize (periods.map (·.waived)) +
            totalSize (ws.flatMap InterestWaiver.amounts)) := by
      refine Pool.exists_replay_of_load (by linarith) ?_
      have := applicable_size row till ws
      simp only [Pool.load]
      rw [Money.load_zero]
      linarith
    have hrecognized := p.recognized_le_load
    obtain ⟨excess, hexcess, hexcessLoad⟩ : ∃ excess : Money,
        (if p.recognized < waived then waived.sub p.recognized else pure .zero) = .ok excess ∧
          excess.load ≤ waived.load + p.recognized.load := by
      split
      · exact Money.exists_sub_of_load (by linarith)
      · refine ⟨.zero, rfl, ?_⟩
        rw [Money.load_zero]
        linarith [p.recognized.load_nonneg]
    obtain ⟨accruable, haccruable, hload⟩ := Money.exists_monus_of_load
      (a := Money.orZero row.interestIncome) (b := excess) (by linarith)
    obtain ⟨reduction, hreduction, -⟩ := Money.exists_sub_of_load
      (a := Money.orZero row.interestIncome) (b := accruable) (by linarith)
    refine ⟨⟨row.interestIncome, row.interestIncome.map fun _ => accruable, reduction,
      p.uncovered⟩, bind_eq_ok.mpr ⟨p, hp, ?_⟩, ?_⟩
    · dsimp only
      by_cases hlt : p.recognized < waived
      · rw [if_pos hlt] at hexcess ⊢
        exact bind_eq_ok.mpr ⟨excess, hexcess, bind_eq_ok.mpr ⟨accruable, haccruable,
          bind_eq_ok.mpr ⟨reduction, hreduction, rfl⟩⟩⟩
      · rw [if_neg hlt] at hexcess ⊢
        exact bind_eq_ok.mpr ⟨excess, hexcess, bind_eq_ok.mpr ⟨accruable, haccruable,
          bind_eq_ok.mpr ⟨reduction, hreduction, rfl⟩⟩⟩
    · dsimp only
      cases row.interestIncome with
      | none =>
        rw [Option.map_none, Money.orZero_none, Money.load_zero]
        linarith
      | some n =>
        rw [Option.map_some, Money.orZero_some]
        linarith

end ReconciledInterest
end LoanLedger
