import LoanLedger.Proofs.Charge.Load
import LoanLedger.Proofs.Interest.Load

/-!
Accruals within capacity. What a row proposes has no more load than the amounts that go into it, but
for what rounding to the currency adds, and the charges that accrue stay within capacity; so however
many rows are accrued one after the other, none of them can fault.
-/

set_option autoImplicit false
set_option relaxedAutoImplicit false

namespace LoanLedger

variable {row : ScheduleRow} {cs : List Charge}

namespace PreparedAccrual

variable {p : PreparedAccrual}

private theorem load_round_le (o : Option Money) (currency : Currency) (rounding : RoundingMode) :
    (Money.orZero (o.map fun m => m.round currency rounding)).load ≤
      (Money.orZero o).load + 10 := by
  cases o with
  | none =>
    rw [Option.map_none]
    linarith
  | some m => exact m.load_roundTo_le _ rounding

/-- The interest of a row can be found for any extent. -/
theorem exists_interestFor_of_load (rounding : RoundingMode) (e : Extent)
    (h : (Money.orZero p.interest.accruable).load ≤ 2 * 10 ^ 28) :
    ∃ interest, p.interestFor rounding e = .ok interest ∧
      (Money.orZero interest).load ≤ (Money.orZero p.interest.accruable).load + 30 := by
  cases e with
  | whole till =>
    have hround := load_round_le p.interest.accruable p.row.currency rounding
    exact ⟨_, rfl, by linarith⟩
  | upTo till =>
    simp only [interestFor, interestTill]
    cases hincome : p.interest.accruable with
    | none => exact ⟨none, rfl, by linarith⟩
    | some income =>
      rw [hincome, Money.orZero_some] at h
      obtain ⟨share, hshare, hload⟩ := Money.exists_prorate_of_load h
        (AccrualInput.daysUntil_le p.row.interestStart p.row.dueDate)
        ((p.row.interestStartBy till).daysUntil till)
      have hround := load_round_le (some share) p.row.currency rounding
      refine ⟨_, bind_eq_ok.mpr ⟨share, hshare, rfl⟩, hround.trans ?_⟩
      rw [Money.orZero_some, Money.orZero_some]
      linarith

/-- The portions of a row and their total can be found when the row, the income from charges and the
interest leave room. -/
theorem exists_portions_of_load (rounding : RoundingMode) {interest : Option Money}
    (h : 20 * totalSize p.row.amounts + (Money.orZero interest).load +
      (Money.orZero p.charges.feeIncome).load + (Money.orZero p.charges.penaltyIncome).load + 20 ≤
        Money.capacity) :
    ∃ parts amount, p.portions rounding interest = .ok parts ∧ parts.amount = .ok amount := by
  have hrow := p.row.loads_le
  have hfee := load_round_le p.charges.feeIncome p.row.currency rounding
  have hpenalty := load_round_le p.charges.penaltyIncome p.row.currency rounding
  have h₀ := (Money.orZero interest).load_nonneg
  have h₁ := (Money.orZero p.charges.feeIncome).load_nonneg
  have h₂ := (Money.orZero p.charges.penaltyIncome).load_nonneg
  have h₃ := (Money.orZero p.row.interestIncome).load_nonneg
  have h₄ := (Money.orZero p.row.accruedInterest).load_nonneg
  have h₅ := (Money.orZero p.row.accruedFee).load_nonneg
  have h₆ := (Money.orZero p.row.accruedPenalty).load_nonneg
  have h₇ := (Money.orZero p.row.waivedInterest).load_nonneg
  have h₈ := (Money.orZero p.row.creditedFee).load_nonneg
  have h₉ := (Money.orZero p.row.creditedPenalty).load_nonneg
  obtain ⟨x, hx, hxLoad⟩ := Portion.exists_towards_of_load interest p.row.accruedInterest none
    (by rw [Money.orZero_none, Money.load_zero]; linarith)
  obtain ⟨y, hy, hyLoad⟩ := Portion.exists_towards_of_load
    (p.charges.feeIncome.map fun m => m.round p.row.currency rounding) p.row.accruedFee
    p.row.creditedFee (by linarith)
  obtain ⟨z, hz, hzLoad⟩ := Portion.exists_towards_of_load
    (p.charges.penaltyIncome.map fun m => m.round p.row.currency rounding) p.row.accruedPenalty
    p.row.creditedPenalty (by linarith)
  rw [Money.orZero_none, Money.load_zero] at hxLoad
  obtain ⟨part, hpart, hpartLoad⟩ := Money.exists_add_of_load
    (a := Money.orZero x.delta) (b := Money.orZero y.delta) (by linarith)
  obtain ⟨amount, hamount, -⟩ := Money.exists_add_of_load
    (a := part) (b := Money.orZero z.delta) (by linarith)
  exact ⟨⟨x, y, z⟩, amount, portions_eq_ok.mpr ⟨hx, hy, hz⟩,
    bind_eq_ok.mpr ⟨part, hpart, hamount⟩⟩

end PreparedAccrual

namespace AccrualInput

variable {input : AccrualInput}

/-- All amounts of a loan that its accrual reads, those that accrue among them. -/
def figures (input : AccrualInput) : List Money :=
  input.candidates.flatMap ScheduleRow.amounts ++ input.charges.flatMap Charge.figures ++
    (input.waivedPeriods.map (·.waived) ++ input.waivers.flatMap InterestWaiver.amounts)

/-- The room for what has accrued on a charge and may still accrue. -/
def chargeRoom : ℚ := 22 * 10 ^ 27

/-- Charges as an accrual meets them: distinct, within capacity, and with amounts that leave room
together with those of any candidate row and all that was waived. -/
structure Ready (input : AccrualInput) (cs : List Charge) : Prop where
  ids : (cs.map (·.id)).Nodup
  held : ∀ c ∈ cs, c.Held chargeRoom
  size : ∀ row ∈ input.candidates, totalSize row.amounts + totalSize (cs.flatMap Charge.amounts) +
    (totalSize (input.waivedPeriods.map (·.waived)) +
      totalSize (input.waivers.flatMap InterestWaiver.amounts)) ≤ 10 ^ 27

theorem ready_of_size (hids : (input.charges.map (·.id)).Nodup)
    (h : totalSize input.figures < 10 ^ 27) : input.Ready input.charges := by
  have hrows := totalSize_nonneg (input.candidates.flatMap ScheduleRow.amounts)
  have hcharges := totalSize_nonneg (input.charges.flatMap Charge.figures)
  have hperiods := totalSize_nonneg (input.waivedPeriods.map (·.waived))
  have hwaivers := totalSize_nonneg (input.waivers.flatMap InterestWaiver.amounts)
  rw [figures, totalSize_append, totalSize_append, totalSize_append] at h
  refine ⟨hids, fun c hc => Charge.held_of_size ?_, fun row hrow => ?_⟩
  · have := totalSize_flatMap_le (f := Charge.figures) hc
    simp only [chargeRoom]
    linarith
  · have := totalSize_flatMap_le (f := ScheduleRow.amounts) hrow
    have := totalSize_le_of_sublist (Charge.flatMap_amounts_sublist input.charges)
    linarith

/-- A candidate row can be accrued in whole or in part. -/
theorem Ready.exists_propose (h : input.Ready cs) (hrow : row ∈ input.candidates) (s : Settings)
    (processedOn : Date) (id : TransactionId) (e : Extent) :
    ∃ p o, input.propose s processedOn cs id row e = .ok (p, o) := by
  have hsize := h.size row hrow
  have hrowSize := totalSize_nonneg row.amounts
  have hcharges := totalSize_nonneg (cs.flatMap Charge.amounts)
  have hperiods := totalSize_nonneg (input.waivedPeriods.map (·.waived))
  have hwaivers := totalSize_nonneg (input.waivers.flatMap InterestWaiver.amounts)
  have hcapacity : Money.capacity = 7 * 10 ^ 28 := rfl
  have hchargeRoom : chargeRoom = 22 * 10 ^ 27 := rfl
  obtain ⟨a, ha, haLoad⟩ := Apportionment.exists_ofCharges_of_load s.policy row (e.window row)
    h.held (by linarith) (by rw [hchargeRoom]; norm_num)
  obtain ⟨i, hi, hiLoad⟩ := ReconciledInterest.exists_ofWaivers_of_load row input.waivedPeriods
    input.waivers e.waiversTill (add_le_add_left row.interest_loads_le _) (by linarith)
  obtain ⟨p, hp⟩ : ∃ p : PreparedAccrual, p = ⟨row, a, i⟩ := ⟨_, rfl⟩
  have hprepare : input.prepare s.policy row cs (e.window row) e.waiversTill = .ok p :=
    prepare_eq_ok.mpr ⟨hp ▸ ha, hp ▸ hi, by rw [hp]⟩
  obtain ⟨interest, hinterest, hinterestLoad⟩ :=
    p.exists_interestFor_of_load s.rounding e (by rw [hp]; linarith)
  have hroom : 20 * totalSize p.row.amounts + (Money.orZero interest).load +
      (Money.orZero p.charges.feeIncome).load + (Money.orZero p.charges.penaltyIncome).load + 20 ≤
        Money.capacity := by
    rw [hp] at hinterestLoad ⊢
    linarith
  obtain ⟨parts, amount, hparts, hamount⟩ := p.exists_portions_of_load s.rounding hroom
  exact ⟨p, _, (input.propose_eq_ok s processedOn).mpr
    ⟨hprepare, interest, parts, amount, hinterest, hparts, hamount, rfl⟩⟩

/-- What a row proposes can be added to the accrual, and leaves the charges ready. -/
theorem Ready.exists_add {g : Progress} (h : input.Ready g.charges) {s : Settings}
    {processedOn : Date} {id : TransactionId} {e : Extent} {p : PreparedAccrual}
    {o : Option Posting}
    (hpropose : input.propose s processedOn g.charges id row e = .ok (p, o)) :
    ∃ g', g.add p o = .ok g' ∧ input.Ready g'.charges := by
  cases o with
  | none => exact ⟨g, rfl, h⟩
  | some x =>
    obtain ⟨hp, -⟩ := (input.propose_eq_ok s processedOn).mp hpropose
    obtain ⟨hof, -, -⟩ := prepare_eq_ok.mp hp
    obtain ⟨ds, hds, hheld⟩ := Apportionment.exists_applyTo_of_load hof h.ids h.held
      (by norm_num [chargeRoom, Money.capacity])
    have hterms := Apportionment.applyTo_sameTerms hds
    refine ⟨_, bind_eq_ok.mpr ⟨ds, hds, rfl⟩, ?_, hheld, fun row hrow => ?_⟩
    · exact (Charge.map_id_of_sameTerms hterms).symm ▸ h.ids
    · have hsize := h.size row hrow
      rw [← Charge.flatMap_amounts_of_sameTerms hterms] at hsize
      exact hsize

/-- The next row of any run can be accrued. -/
theorem Ready.exists_accrueNext {g : Progress} (h : input.Ready g.charges)
    (hrow : row ∈ input.candidates) (mode : RunMode) (s : Settings) (processedOn : Date) :
    ∃ g', input.accrueNext mode s processedOn g row = .ok g' ∧ input.Ready g'.charges := by
  have hperiod : ∀ till, ∃ g', input.accruePeriod s processedOn till g row = .ok g' ∧
      input.Ready g'.charges := by
    intro till
    obtain ⟨p, o, hpropose⟩ :=
      h.exists_propose hrow s processedOn (.ofNat g.nextId) (.whole till)
    obtain ⟨g', hadd, hready⟩ := h.exists_add hpropose
    exact ⟨g', accruePeriod_eq_ok.mpr ⟨p, o, hpropose, hadd⟩, hready⟩
  cases mode with
  | asOfToday => exact hperiod row.dueDate
  | tillDate till =>
    simp only [accrueNext, accrueRow]
    split
    · rw [atFuture_eq]
      have hfuture : input.Ready ({ g with
          mark := markAt g.mark g.beforeFuture row, beforeFuture := false } : Progress).charges := h
      split
      · obtain ⟨p, o, hpropose⟩ :=
          h.exists_propose hrow s processedOn (.ofNat g.nextId) (.upTo till)
        obtain ⟨g', hadd, hready⟩ := hfuture.exists_add hpropose
        exact ⟨g', accrueTill_eq_ok.mpr ⟨p, o, hpropose, hadd⟩, hready⟩
      · exact ⟨_, rfl, hfuture⟩
    · obtain ⟨g', hg', hready⟩ := hperiod till
      exact ⟨_, bind_eq_ok.mpr ⟨g', hg', rfl⟩, hready⟩

/-- From charges that are ready, all rows can be accrued. -/
theorem Ready.exists_accrueRows (h : input.Ready input.charges) (mode : RunMode) (s : Settings)
    (processedOn : Date) (firstId : Nat) :
    ∃ g, input.accrueRows mode s processedOn firstId = .ok g := by
  obtain ⟨g, hg, -⟩ := exists_foldlM
    (P := fun (rows : List ScheduleRow) (g : Progress) =>
      rows ⊆ input.candidates ∧ input.Ready g.charges)
    (f := input.accrueNext mode s processedOn) (fun row rows g hg => by
      obtain ⟨hrow, hrows⟩ := List.cons_subset.mp hg.1
      obtain ⟨g', hg', hready⟩ := hg.2.exists_accrueNext hrow mode s processedOn
      exact ⟨g', hg', hrows, hready⟩)
    (l := input.candidates) (b := ⟨[], input.charges, none, true, firstId⟩)
    ⟨List.Subset.refl _, h⟩
  exact ⟨g, hg⟩

private theorem objection?_eq_some {r : Refusal} (h : input.objection? row = some r) :
    ∃ text, r = .invalidSchedule input.loanId text := by
  simp only [objection?] at h
  split at h
  · exact ⟨_, (Option.some.inj h).symm⟩
  · split at h
    · exact ⟨_, (Option.some.inj h).symm⟩
    · cases h

theorem validate_cases (input : AccrualInput) : input.validate = .ok () ∨
    ∃ text, input.validate = .error (.invalidSchedule input.loanId text) := by
  simp only [validate]
  split
  · next r hr =>
    obtain ⟨row, -, hrow⟩ := List.exists_of_findSome?_eq_some hr
    obtain ⟨text, rfl⟩ := objection?_eq_some hrow
    exact .inr ⟨text, rfl⟩
  · exact .inl rfl

/-- A loan whose amounts stay below `10 ^ 27` together is accrued, or its schedule is refused. -/
theorem accrue_total (hids : (input.charges.map (·.id)).Nodup)
    (h : totalSize input.figures < 10 ^ 27) (mode : RunMode) (s : Settings) (processedOn : Date)
    (firstId : Nat) :
    (∃ r, input.accrue mode s processedOn firstId = .ok r) ∨
      ∃ text, input.accrue mode s processedOn firstId =
        .error (.refusal (.invalidSchedule input.loanId text)) := by
  obtain ⟨g, hg⟩ := (ready_of_size hids h).exists_accrueRows mode s processedOn firstId
  simp only [accrue]
  rcases input.validate_cases with hvalid | ⟨text, hinvalid⟩
  · rw [hvalid, hg]
    exact .inl ⟨_, rfl⟩
  · rw [hinvalid]
    exact .inr ⟨text, rfl⟩

end AccrualInput
end LoanLedger
