import LoanLedger.Proofs.Accrual.Target
import LoanLedger.Proofs.Money.Load

/-!
Accruals that cannot fault. In the exact range the charges of a loan can be apportioned, the targets
of a row can be found and what is missing from them can be proposed, as long as nothing negative has
accrued; and accruals leave nothing negative.
-/

set_option autoImplicit false
set_option relaxedAutoImplicit false

namespace LoanLedger

variable {policy : ChargePolicy} {row : ScheduleRow} {w : Window} {c d : Charge}
  {cs ds : List Charge}

/-- Nothing negative has accrued on a charge and its shares. -/
structure Charge.AccruedNonneg (c : Charge) : Prop where
  own : 0 ≤ c.accrued.value
  shares : ∀ s ∈ c.shares, 0 ≤ s.accrued.value

namespace Charge

private theorem exists_sub {a b : Money} (hfine : ∀ m ∈ [a, b], m.Fine)
    (hsize : totalSize [a, b] < 10 ^ 18) : ∃ m, a.sub b = .ok m := by
  simp only [totalSize_cons, totalSize_nil, add_zero] at hsize
  have hdiff := abs_sub a.value b.value
  obtain ⟨m, hm, -⟩ := Money.sub_exact (hfine a (by simp)) (hfine b (by simp))
    (by unfold Money.room; linarith)
  exact ⟨m, hm⟩

/-- A contribution can be found when what has accrued can be taken from what can accrue. -/
theorem exists_contribution_of (c : Charge) (n : Option InstallmentNumber) {accruable accrued : Money}
    (h : 0 < accruable.value → ∃ delta, accruable.sub accrued = .ok delta) :
    ∃ x, c.contribution n accruable accrued = .ok x := by
  suffices hdelta : ∃ o, newlyAccruable accruable accrued = .ok o by
    obtain ⟨o, ho⟩ := hdelta
    exact ⟨_, bind_eq_ok.mpr ⟨o, ho, rfl⟩⟩
  simp only [newlyAccruable]
  split
  · exact ⟨none, rfl⟩
  · next hopen =>
    have hpos : accruable.isPositive = true := by
      by_contra hnot
      exact hopen (by simp [hnot])
    obtain ⟨delta, hdelta⟩ := h (Money.value_pos_iff.mpr ((Money.isPositive_iff _).mp hpos))
    exact ⟨_, bind_eq_ok.mpr ⟨delta, hdelta, rfl⟩⟩

theorem exists_contribution (c : Charge) (n : Option InstallmentNumber)
    (accruable : Money) {accrued : Money} (h : 0 ≤ accrued.value) :
    ∃ x, c.contribution n accruable accrued = .ok x :=
  c.exists_contribution_of n fun hpos => Money.exists_sub_of_nonneg hpos.le h

/-- A charge contributes to any window if it can do so by itself, or by each of its shares. -/
theorem exists_contributionTo_of (policy : ChargePolicy) (row : ScheduleRow) (w : Window)
    (hown : c.dueDate.isSome → ∃ m x, c.accruable = .ok m ∧ c.contribution none m c.accrued = .ok x)
    (hshares : c.dueDate = none → ∀ s ∈ c.shares, ∃ m x, s.accruable = .ok m ∧
      c.contribution (some s.installment) m s.accrued = .ok x) :
    ∃ x, c.contributionTo policy row w = .ok x := by
  simp only [contributionTo]
  split
  · next due hdue =>
    split
    · obtain ⟨m, x, hm, hx⟩ := hown (hdue ▸ rfl)
      exact ⟨x, bind_eq_ok.mpr ⟨m, hm, hx⟩⟩
    · exact ⟨_, rfl⟩
  · next hdue =>
    split
    · exact ⟨_, rfl⟩
    · split
      · exact ⟨_, rfl⟩
      · next s hs =>
        obtain ⟨m, x, hm, hx⟩ := hshares hdue s (List.mem_of_find?_eq_some hs)
        exact ⟨x, bind_eq_ok.mpr ⟨m, hm, hx⟩⟩

/-- A charge in range has its contribution. -/
theorem exists_contributionTo (policy : ChargePolicy) (row : ScheduleRow) (w : Window)
    (hfine : ∀ a ∈ c.amounts, a.Fine) (hsize : totalSize c.amounts < 10 ^ 18)
    (h : c.AccruedNonneg) : ∃ x, c.contributionTo policy row w = .ok x := by
  refine exists_contributionTo_of policy row w (fun _ => ?_) fun _ s hs => ?_
  · have hshares := totalSize_nonneg (c.shares.flatMap ChargeShare.amounts)
    have htotal : totalSize c.amounts = totalSize [c.amount, c.unrecognized] +
        totalSize (c.shares.flatMap ChargeShare.amounts) := totalSize_append _ _
    obtain ⟨m, hm⟩ := exists_sub (a := c.amount) (b := c.unrecognized)
      (fun a ha => hfine a (List.mem_append_left _ ha)) (by linarith)
    obtain ⟨x, hx⟩ := exists_contribution c none m h.own
    exact ⟨m, x, hm, hx⟩
  · obtain ⟨hsFine, -, hsSize⟩ := amounts_of_share hs hfine hsize
    obtain ⟨m, hm⟩ := exists_sub hsFine hsSize
    obtain ⟨x, hx⟩ := exists_contribution c (some s.installment) m (h.shares s hs)
    exact ⟨m, x, hm, hx⟩

/-- What is newly accruable is what is left of the accruable amount, and not negative. -/
theorem newlyAccruable_eq_some {accruable accrued delta : Money}
    (h : newlyAccruable accruable accrued = .ok (some delta)) :
    accruable.sub accrued = .ok delta ∧ 0 ≤ delta.value := by
  simp only [newlyAccruable] at h
  split at h
  · cases h
  · obtain ⟨m, hm, h⟩ := bind_eq_ok.mp h
    have h := pure_eq_ok.mp h
    split at h
    · cases h
    · next hnot =>
      obtain rfl := Option.some.inj h
      rw [Money.isNegative_iff] at hnot
      exact ⟨hm, Money.value_nonneg_iff.mpr (not_lt.mp hnot)⟩

/-- What a charge allocates is not negative. -/
theorem contributionTo_nonneg {income : Money} {x : Allocation}
    (h : c.contributionTo policy row w = .ok (income, some x)) : 0 ≤ x.amount.value := by
  have hcontribution : ∀ {n accruable accrued}, c.contribution n accruable accrued =
      .ok (income, some x) → 0 ≤ x.amount.value := by
    intro n accruable accrued hc
    obtain ⟨delta, hdelta, hx⟩ := bind_eq_ok.mp hc
    obtain ⟨m, rfl, rfl⟩ := Option.map_eq_some_iff.mp (congrArg Prod.snd (pure_eq_ok.mp hx))
    exact (newlyAccruable_eq_some hdelta).2
  simp only [contributionTo] at h
  split at h
  · split at h
    · obtain ⟨m, -, hm⟩ := bind_eq_ok.mp h
      exact hcontribution hm
    · cases h
  · split at h
    · cases h
    · split at h
      · cases h
      · obtain ⟨m, -, hm⟩ := bind_eq_ok.mp h
        exact hcontribution hm

end Charge

namespace Apportionment

variable {a : Apportionment}

/-- Charges whose contributions leave room can be apportioned, and bring no more income than those. -/
theorem exists_ofCharges_of (policy : ChargePolicy) (row : ScheduleRow) (w : Window)
    (size : Charge → ℚ) (hsize : (cs.map size).sum ≤ Money.capacity)
    (h : ∀ c ∈ cs, ∃ m o, c.contributionTo policy row w = .ok (m, o) ∧ m.load ≤ size c) :
    ∃ a, ofCharges policy row w cs = .ok a ∧
      (Money.orZero a.feeIncome).load + (Money.orZero a.penaltyIncome).load ≤
        (cs.map size).sum := by
  have hnonneg : ∀ c ∈ cs, 0 ≤ size c := fun c hc => by
    obtain ⟨m, -, -, hle⟩ := h c hc
    exact m.load_nonneg.trans hle
  -- Both totals so far and what the charges to come may bring stay within the sum of the sizes.
  obtain ⟨t, ht, -, hload⟩ := exists_foldlM
    (P := fun (rest : List Charge) (t : Tally) => rest ⊆ cs ∧
      t.fee.load + t.penalty.load + (rest.map size).sum ≤ (cs.map size).sum)
    (f := Tally.include policy row w) (fun c rest t ht => by
      obtain ⟨hsub, hload⟩ := ht
      obtain ⟨hc, hrest⟩ := List.cons_subset.mp hsub
      rw [List.map_cons, List.sum_cons] at hload
      have hfee := t.fee.load_nonneg
      have hpenalty := t.penalty.load_nonneg
      have hrestSize : 0 ≤ (rest.map size).sum :=
        List.sum_nonneg (List.forall_mem_map.mpr fun d hd => hnonneg d (hrest hd))
      obtain ⟨m, o, hm, hmLoad⟩ := h c hc
      obtain ⟨fee, hfeeAdd, hfeeLoad⟩ :=
        Money.exists_add_of_load (a := t.fee) (b := m) (by linarith)
      obtain ⟨penalty, hpenaltyAdd, hpenaltyLoad⟩ :=
        Money.exists_add_of_load (a := t.penalty) (b := m) (by linarith)
      simp only [Tally.include]
      rw [hm, bind_ok]
      dsimp only
      split
      · exact ⟨_, bind_eq_ok.mpr ⟨penalty, hpenaltyAdd, rfl⟩, hrest, by dsimp only; linarith⟩
      · exact ⟨_, bind_eq_ok.mpr ⟨fee, hfeeAdd, rfl⟩, hrest, by dsimp only; linarith⟩)
    (l := cs) (b := ⟨[], .zero, .zero⟩)
    ⟨List.Subset.refl cs, by rw [Money.load_zero]; linarith⟩
  refine ⟨_, bind_eq_ok.mpr ⟨t, ht, rfl⟩, ?_⟩
  rw [List.map_nil, List.sum_nil] at hload
  dsimp only
  rw [Money.load_orZero_nonZero, Money.load_orZero_nonZero]
  linarith

/-- Charges in range can be apportioned. -/
theorem exists_ofCharges (policy : ChargePolicy) (row : ScheduleRow) (w : Window)
    (hfine : ∀ a ∈ cs.flatMap Charge.amounts, a.Fine)
    (hsize : totalSize (cs.flatMap Charge.amounts) < 10 ^ 18) (h : ∀ c ∈ cs, c.AccruedNonneg) :
    ∃ a, ofCharges policy row w cs = .ok a := by
  have hcapacity : Money.capacity = 7 * 10 ^ 28 := rfl
  obtain ⟨a, ha, -⟩ := exists_ofCharges_of policy row w (fun c => 10 * totalSize c.amounts)
    (by rw [List.sum_map_mul_left, ← totalSize_flatMap]; linarith) fun c hc => by
      have hown : ∀ a ∈ c.amounts, a.Fine :=
        fun a ha => hfine a (List.mem_flatMap.mpr ⟨c, hc, ha⟩)
      have hownSize := (totalSize_flatMap_le hc).trans_lt hsize
      obtain ⟨⟨m, o⟩, hm⟩ := Charge.exists_contributionTo policy row w hown hownSize (h c hc)
      obtain ⟨-, hmSize⟩ := Charge.incomeIn_fine hown hownSize (Charge.contributionTo_income hm)
      have hload := m.load_le
      exact ⟨m, o, hm, by linarith⟩
  exact ⟨a, ha⟩

/-- Allocations are not negative. -/
theorem ofCharges_nonneg (h : ofCharges policy row w cs = .ok a) :
    ∀ x ∈ a.allocations, 0 ≤ x.amount.value := by
  have hfold : ∀ {t u : Tally}, cs.foldlM (Tally.include policy row w) t = .ok u →
      (∀ x ∈ t.allocations, 0 ≤ x.amount.value) → ∀ x ∈ u.allocations, 0 ≤ x.amount.value := by
    clear h
    induction cs with
    | nil =>
      intro t u h ht
      rw [List.foldlM_nil, pure_eq_ok] at h
      rwa [← h]
    | cons c cs ih =>
      intro t u h ht
      rw [List.foldlM_cons, bind_eq_ok] at h
      obtain ⟨v, hv, hrest⟩ := h
      refine ih hrest ?_
      obtain ⟨⟨m, o⟩, hm, hadd⟩ := bind_eq_ok.mp hv
      have hall : v.allocations = t.allocations ++ o.toList := by
        dsimp only at hadd
        split at hadd
        · obtain ⟨x, -, hx⟩ := bind_eq_ok.mp hadd
          rw [← pure_eq_ok.mp hx]
        · obtain ⟨x, -, hx⟩ := bind_eq_ok.mp hadd
          rw [← pure_eq_ok.mp hx]
      intro x hx
      rw [hall] at hx
      rcases List.mem_append.mp hx with hx | hx
      · exact ht x hx
      · obtain rfl := Option.mem_toList.mp hx
        exact Charge.contributionTo_nonneg hm
  obtain ⟨t, ht, ha⟩ := bind_eq_ok.mp h
  rw [← pure_eq_ok.mp ha]
  exact hfold ht fun x hx => nomatch hx

/-- Where allocations are not negative, charges accrue nothing negative. -/
theorem applyTo_nonneg (ha : ∀ x ∈ a.allocations, 0 ≤ x.amount.value) (h : a.applyTo cs = .ok ds)
    (hcs : ∀ c ∈ cs, c.AccruedNonneg) : ∀ d ∈ ds, d.AccruedNonneg := by
  intro d hd
  obtain ⟨c, hc, hcd⟩ := exists_mem_of_forall₂ (mapM_eq_ok_iff.mp h).flip hd
  obtain ⟨hown, hshares⟩ := hcs c hc
  simp only [advance] at hcd
  split at hcd
  · rw [← Except.ok.inj hcd]
    exact ⟨hown, hshares⟩
  · next x hx =>
    have hx : 0 ≤ x.amount.value := ha x (List.mem_of_find?_eq_some hx)
    obtain ⟨accrued, haccrued, hrest⟩ := bind_eq_ok.mp hcd
    obtain ⟨shares, hsharesMap, hd⟩ := bind_eq_ok.mp hrest
    rw [← pure_eq_ok.mp hd]
    refine ⟨Money.nonneg_of_add hown hx haccrued, fun t ht => ?_⟩
    obtain ⟨s, hs, hst⟩ := exists_mem_of_forall₂ (mapM_eq_ok_iff.mp hsharesMap).flip ht
    simp only [advanceShare] at hst
    split at hst
    · obtain ⟨m, hm, ht⟩ := bind_eq_ok.mp hst
      rw [← pure_eq_ok.mp ht]
      exact Money.nonneg_of_add (hshares s hs) hx hm
    · rw [← Except.ok.inj hst]
      exact hshares s hs

end Apportionment

theorem Accrues.accruedNonneg {input : AccrualInput} {s : Settings} {processedOn : Date} {n : Nat}
    {tasks : List (ScheduleRow × Extent)} {os : List (Option Posting)}
    (h : Accrues input s processedOn cs n tasks os ds) (hcs : ∀ c ∈ cs, c.AccruedNonneg) :
    ∀ d ∈ ds, d.AccruedNonneg := by
  induction h with
  | done => exact hcs
  | rest _ _ ih => exact ih hcs
  | posts hpropose happly _ ih =>
    obtain ⟨hp, -⟩ := (AccrualInput.propose_eq_ok _ _ _).mp hpropose
    obtain ⟨hcharges, -, -⟩ := AccrualInput.prepare_eq_ok.mp hp
    exact ih (Apportionment.applyTo_nonneg (Apportionment.ofCharges_nonneg hcharges) happly hcs)

namespace Portion

variable {target accrued credited : Option Money}

/-- What is missing to a target can be found within capacity. -/
theorem exists_towards_of_load (target accrued credited : Option Money)
    (h : (Money.orZero target).load + 2 * (Money.orZero accrued).load +
      (Money.orZero credited).load ≤ Money.capacity) :
    ∃ x, towards target accrued credited = .ok x ∧ (Money.orZero x.delta).load ≤
      (Money.orZero target).load + (Money.orZero accrued).load + (Money.orZero credited).load := by
  have haccrued := (Money.orZero accrued).load_nonneg
  have hcredited := (Money.orZero credited).load_nonneg
  have htarget := (Money.orZero target).load_nonneg
  cases target with
  | none =>
    refine ⟨⟨none, accrued⟩, towards_none accrued credited, ?_⟩
    dsimp only
    rw [Money.orZero_none, Money.load_zero]
    linarith
  | some t =>
    rw [Money.orZero_some] at h htarget ⊢
    obtain ⟨covered, hcovered, hcoveredLoad⟩ := Money.exists_add_of_load
      (a := Money.orZero accrued) (b := Money.orZero credited) (by linarith)
    obtain ⟨delta, hdelta, hdeltaLoad⟩ :=
      Money.exists_monus_of_load (a := t) (b := covered) (by linarith)
    obtain ⟨total, htotal, -⟩ :=
      Money.exists_add_of_load (a := Money.orZero accrued) (b := delta) (by linarith)
    refine ⟨_, towards_some_eq_ok.mpr ⟨covered, delta, total, hcovered, hdelta, htotal, rfl⟩, ?_⟩
    dsimp only
    rw [Money.load_orZero_nonZero]
    linarith

theorem exists_towards (h : Exact target accrued credited) :
    ∃ x, towards target accrued credited = .ok x := by
  have ht := h.target.size
  have ha := h.accrued.size
  have hc := h.credited.size
  have htarget := (Money.orZero target).load_le
  have haccrued := (Money.orZero accrued).load_le
  have hcredited := (Money.orZero credited).load_le
  have hcapacity : Money.capacity = 7 * 10 ^ 28 := rfl
  obtain ⟨x, hx, -⟩ := exists_towards_of_load target accrued credited (by linarith)
  exact ⟨x, hx⟩

end Portion

namespace AccrualInput

variable {input : AccrualInput} {s : Settings} {processedOn : Date} {e : Extent} {x : Targets}

private theorem exists_interestTarget (mode : RoundingMode) (row : ScheduleRow) (e : Extent)
    {accruable : Option Money} (ha : ∀ a, accruable = some a → |a.value| < 10 ^ 18) :
    ∃ target, interestTarget mode row e accruable = .ok target := by
  simp only [interestTarget]
  split
  · exact ⟨_, rfl⟩
  · exact ⟨_, rfl⟩
  · next till income =>
    have hload := income.load_le
    have hsize := ha income rfl
    obtain ⟨share, hshare, -⟩ := Money.exists_prorate_of_load (x := income) (by linarith)
      (daysUntil_le row.interestStart row.dueDate) ((row.interestStartBy till).daysUntil till)
    exact ⟨_, bind_eq_ok.mpr ⟨share, hshare, rfl⟩⟩

theorem exists_targets (s : Settings) (e : Extent) (hin : input.InRange cs row)
    (hcs : ∀ c ∈ cs, c.AccruedNonneg) : ∃ x, input.targets s cs row e = .ok x := by
  obtain ⟨a, ha⟩ := Apportionment.exists_ofCharges s.policy row (e.window row) hin.chargesFine
    hin.chargesSize hcs
  obtain ⟨fee, penalty, hfee, hpenalty, -, -⟩ := Apportionment.ofCharges_income ha
  obtain ⟨i, hi⟩ := ReconciledInterest.exists_ofWaivers hin.waivers e.waiversTill
  obtain ⟨interest, hinterest⟩ := exists_interestTarget s.rounding row e fun a ha =>
    (ReconciledInterest.ofWaivers_fine hin.waivers hi ha).2
  exact ⟨⟨interest, _, _⟩, targets_eq_ok.mpr ⟨fee, penalty, i, hfee, hpenalty, hi, hinterest, rfl,
    rfl⟩⟩

end AccrualInput
end LoanLedger
