import LoanLedger.Proofs.Charge.Exclusive

/-!
Exhausted apportionments. What is allocated to a charge is all that was left to accrue on the dues
that it brings to the window; once it has accrued, the same window brings the same income and nothing
new.
-/

set_option autoImplicit false
set_option relaxedAutoImplicit false

namespace LoanLedger

variable {policy : ChargePolicy} {row : ScheduleRow} {w : Window} {a : Apportionment}
  {c d : Charge} {cs ds : List Charge} {x : Dues} {y : Allocation} {m amount : Money}

/-- An amount in the exact range. -/
def Money.Moderate (a : Money) : Prop := a.Fine ∧ |a.value| < 10 ^ 18

theorem Charge.moderate_of_mem (hfine : ∀ a ∈ cs.flatMap Charge.figures, a.Fine)
    (hsize : totalSize (cs.flatMap Charge.figures) < 10 ^ 18) (hc : c ∈ cs) :
    ∀ a ∈ c.figures, a.Moderate := by
  intro a ha
  have hmem : a ∈ cs.flatMap Charge.figures := List.mem_flatMap.mpr ⟨c, hc, ha⟩
  exact ⟨hfine a hmem, (abs_le_totalSize hmem).trans_lt hsize⟩

theorem Money.Moderate.exists_add {z : Money} (hz : z.Moderate) (hfine : amount.Fine)
    (hpos : 0 < amount.value) (hlt : amount.value < 3 * 10 ^ 18) :
    ∃ b, z.add amount = .ok b ∧ b.value = z.value + amount.value := by
  have hroom : Money.room = 7 * 10 ^ 18 := rfl
  obtain ⟨hlow, hhigh⟩ := abs_lt.mp hz.2
  obtain ⟨b, hb, -, hvalue⟩ := Money.add_exact hz.1 hfine
    (abs_lt.mpr ⟨by linarith, by linarith⟩)
  exact ⟨b, hb, hvalue⟩

theorem Charge.newlyAccruable_of_accrued {accrued : Money} (h : accrued.value = m.value) :
    newlyAccruable m accrued = .ok none := by
  refine if_pos ?_
  rw [Bool.or_eq_true, decide_eq_true_eq]
  exact .inr (Money.equiv_iff_value.mpr h.symm)

/-- What is newly accruable on moderate dues is positive, and leaves nothing to accrue. -/
theorem Dues.newlyAccruable_exact (hx : ∀ a ∈ x.figures, a.Moderate)
    (hm : x.amount.sub x.unrecognized = .ok m)
    (h : Charge.newlyAccruable m x.accrued = .ok (some amount)) :
    amount.Fine ∧ 0 < amount.value ∧ amount.value < 3 * 10 ^ 18 ∧
      x.accrued.value + amount.value = m.value := by
  obtain ⟨hamount, -, -, -, haccrued, hunrecognized⟩ := forall_mem_figures.mp hx
  have hroom : Money.room = 7 * 10 ^ 18 := rfl
  obtain ⟨hamountLow, hamountHigh⟩ := abs_lt.mp hamount.2
  obtain ⟨haccruedLow, haccruedHigh⟩ := abs_lt.mp haccrued.2
  obtain ⟨hunrecognizedLow, hunrecognizedHigh⟩ := abs_lt.mp hunrecognized.2
  obtain ⟨hmFine, hmValue⟩ := Money.sub_value hm hamount.1 hunrecognized.1
    (abs_lt.mpr ⟨by linarith, by linarith⟩)
  obtain ⟨hsub, hnonneg⟩ := Charge.newlyAccruable_eq_some h
  obtain ⟨hfine, hvalue⟩ := Money.sub_value hsub hmFine haccrued.1
    (abs_lt.mpr ⟨by linarith, by linarith⟩)
  have hne : amount.value ≠ 0 := by
    intro hzero
    rw [Charge.newlyAccruable_of_accrued (by linarith)] at h
    cases h
  exact ⟨hfine, lt_of_le_of_ne hnonneg hne.symm, by linarith, by linarith⟩

namespace Charge

theorem figures_of_partOf? {n : InstallmentNumber} (h : c.partOf? n = some x) :
    x.figures ⊆ c.figures := by
  cases hdue : c.dueDate with
  | some due =>
    rw [partOf?_of_due hdue] at h
    exact Option.some.inj h ▸ List.subset_append_left _ _
  | none =>
    rw [partOf?_of_shares hdue] at h
    obtain ⟨s, hs, rfl⟩ := Option.map_eq_some_iff.mp h
    intro a ha
    exact List.mem_append_right _ (List.mem_flatMap.mpr ⟨s, List.mem_of_find?_eq_some hs, ha⟩)

/-- What is allocated to a charge of moderate amounts is positive, and takes what has accrued on the
dues that it brings to all that can accrue. -/
theorem contributionTo_exact (hc : ∀ a ∈ c.figures, a.Moderate)
    (h : c.contributionTo policy row w = .ok (m, some y)) :
    ∃ x, c.brought policy row w = some x ∧ x.amount.sub x.unrecognized = .ok m ∧
      y.amount.Fine ∧ 0 < y.amount.value ∧ y.amount.value < 3 * 10 ^ 18 ∧
      x.accrued.value + y.amount.value = m.value := by
  obtain ⟨x, hbrought, hm, hdelta⟩ := contributionTo_some h
  have hfigures := figures_of_partOf? (brought_eq_some.mp hbrought).2
  exact ⟨x, hbrought, hm,
    Dues.newlyAccruable_exact (fun a ha => hc a (hfigures ha)) hm hdelta⟩

theorem contributionTo_of_accrued (hbrought : d.brought policy row w = some x)
    (hm : x.amount.sub x.unrecognized = .ok m) (haccrued : x.accrued.value = m.value) :
    d.contributionTo policy row w = .ok (m, none) := by
  rw [contributionTo_eq, hbrought]
  dsimp only
  rw [hm, bind_ok, contribution, newlyAccruable_of_accrued haccrued]
  rfl

/-- A charge after its allocation, if it has one: what has accrued on it is raised by the allocation,
and for an installment fee what has accrued on the one share of the installment. Nothing else
changes. -/
def RaisedBy (c d : Charge) : Option Allocation → Prop
  | none => d = c
  | some y => ∃ b : Money, b.value = c.accrued.value + y.amount.value ∧
    match y.installment with
    | none => d = { c with accruedSoFar := some b }
    | some n => ∃ (before after : List ChargeShare) (s : ChargeShare) (t : Money),
      c.shares = before ++ s :: after ∧ s.installment = n ∧
      t.value = s.accrued.value + y.amount.value ∧
      d = { c with
        accruedSoFar := some b
        shares := before ++ { s with accruedSoFar := some t } :: after }

end Charge

/-- A charge from which all was taken that it brings to a window: its allocation has accrued, and it
brings the same income again and nothing new. -/
structure Charge.Exhausted (policy : ChargePolicy) (row : ScheduleRow) (w : Window)
    (a : Apportionment) (c d : Charge) : Prop where
  raised : c.RaisedBy d (a.allocationFor? c.id)
  isPenalty : d.isPenalty = c.isPenalty
  income : ∃ m, c.contributionTo policy row w = .ok (m, a.allocationFor? c.id) ∧
    d.contributionTo policy row w = .ok (m, none)

namespace Apportionment

/-- The allocation of a charge with a due date accrues on the charge itself. -/
private theorem exists_advance_of_due {due : Date} (hdue : c.dueDate = some due)
    (hc : ∀ a ∈ c.figures, a.Moderate) (hy : a.allocationFor? c.id = some y)
    (h : c.contributionTo policy row w = .ok (m, some y)) :
    ∃ d, a.advance c = .ok d ∧ c.RaisedBy d (some y) ∧ d.isPenalty = c.isPenalty ∧
      d.contributionTo policy row w = .ok (m, none) := by
  have hn : y.installment = none := by
    rw [(Charge.contributionTo_isOf h).installment, hdue]
    rfl
  obtain ⟨x, hbrought, hm, hfine, hpos, hlt, hall⟩ := Charge.contributionTo_exact hc h
  have hdues : c.selected policy due row w = true ∧ c.dues = x := by
    rw [Charge.brought_of_due hdue] at hbrought
    simpa using hbrought
  obtain ⟨hselected, rfl⟩ := hdues
  have haccrued : c.accrued.Moderate := hc _ (by simp [Charge.figures, Dues.figures, Charge.dues])
  obtain ⟨b, hb, hbValue⟩ := haccrued.exists_add hfine hpos hlt
  have hshares : c.shares.mapM (advanceShare y) = .ok c.shares := by
    refine mapM_eq_ok_iff.mpr (List.forall₂_same.mpr fun s _ => ?_)
    simp only [advanceShare]
    rw [hn, if_neg (Option.some_ne_none _).symm]
  refine ⟨{ c with accruedSoFar := some b }, ?_, ⟨b, hbValue, ?_⟩, rfl, ?_⟩
  · simp only [advance]
    rw [hy]
    exact bind_eq_ok.mpr ⟨b, hb, bind_eq_ok.mpr ⟨c.shares, hshares, rfl⟩⟩
  · rw [hn]
  · refine Charge.contributionTo_of_accrued (x := { c.dues with accrued := b }) ?_ hm
      (hbValue.trans hall)
    rw [Charge.brought_of_due (c := { c with accruedSoFar := some b }) hdue]
    exact if_pos hselected

/-- Among shares of different installments, an allocation accrues on the one of its installment. -/
private theorem mapM_advanceShare {before after : List ChargeShare} {s : ChargeShare} {t : Money}
    (hn : y.installment = some s.installment)
    (hnodup : ((before ++ s :: after).map (·.installment)).Nodup)
    (ht : s.accrued.add y.amount = .ok t) : (before ++ s :: after).mapM (advanceShare y) =
      .ok (before ++ { s with accruedSoFar := some t } :: after) := by
  rw [List.map_append, List.map_cons, List.nodup_append] at hnodup
  obtain ⟨-, hcons, hdisjoint⟩ := hnodup
  have hother : ∀ u : ChargeShare, u.installment ≠ s.installment → advanceShare y u = .ok u :=
    fun u hne => if_neg fun heq => hne (Option.some.inj (heq.symm.trans hn))
  have hown : advanceShare y s = .ok { s with accruedSoFar := some t } := by
    simp only [advanceShare]
    rw [if_pos hn]
    exact bind_eq_ok.mpr ⟨t, ht, rfl⟩
  refine mapM_eq_ok_iff.mpr (List.rel_append ?_ (.cons hown ?_))
  · refine List.forall₂_same.mpr fun u hu => hother u ?_
    exact hdisjoint _ (List.mem_map_of_mem hu) _ List.mem_cons_self
  · refine List.forall₂_same.mpr fun u hu => hother u fun heq => ?_
    exact (List.nodup_cons.mp hcons).1 (heq ▸ List.mem_map_of_mem hu)

/-- The allocation of an installment fee accrues on the fee and on the share of the installment. -/
private theorem exists_advance_of_shares (hdue : c.dueDate = none)
    (hshares : (c.shares.map (·.installment)).Nodup) (hc : ∀ a ∈ c.figures, a.Moderate)
    (hy : a.allocationFor? c.id = some y)
    (h : c.contributionTo policy row w = .ok (m, some y)) :
    ∃ d, a.advance c = .ok d ∧ c.RaisedBy d (some y) ∧ d.isPenalty = c.isPenalty ∧
      d.contributionTo policy row w = .ok (m, none) := by
  have hn : y.installment = some row.installment := by
    rw [(Charge.contributionTo_isOf h).installment, hdue]
    rfl
  obtain ⟨x, hbrought, hm, hfine, hpos, hlt, hall⟩ := Charge.contributionTo_exact hc h
  obtain ⟨hfalls, hpart⟩ := Charge.brought_eq_some.mp hbrought
  have hfigures := Charge.figures_of_partOf? hpart
  rw [Charge.partOf?_of_shares hdue] at hpart
  obtain ⟨s, hs, rfl⟩ := Option.map_eq_some_iff.mp hpart
  have hnumber : s.installment = row.installment := by simpa using List.find?_some hs
  have hown : c.accrued.Moderate := hc _ (by simp [Charge.figures, Dues.figures, Charge.dues])
  have hshare : s.accrued.Moderate := hc _ (hfigures (by simp [Dues.figures, ChargeShare.dues]))
  obtain ⟨b, hb, hbValue⟩ := hown.exists_add hfine hpos hlt
  obtain ⟨t, ht, htValue⟩ := hshare.exists_add hfine hpos hlt
  -- the share that is found first is the only one of its installment, before and after
  obtain ⟨before, after, hsplit⟩ := List.append_of_mem (List.mem_of_find?_eq_some hs)
  obtain ⟨ts, hts⟩ : ∃ ts, ts = before ++ { s with accruedSoFar := some t } :: after := ⟨_, rfl⟩
  have hinstallments : ts.map (·.installment) = c.shares.map (·.installment) := by
    rw [hts, hsplit]
    simp
  have hadvanced : c.shares.mapM (advanceShare y) = .ok ts := by
    rw [hsplit] at hshares ⊢
    exact hts ▸ mapM_advanceShare (hn.trans (congrArg some hnumber.symm)) hshares ht
  refine ⟨{ c with accruedSoFar := some b, shares := ts }, ?_, ⟨b, hbValue, ?_⟩, rfl, ?_⟩
  · simp only [advance]
    rw [hy]
    exact bind_eq_ok.mpr ⟨b, hb, bind_eq_ok.mpr ⟨ts, hadvanced, rfl⟩⟩
  · rw [hn, hts]
    exact ⟨before, after, s, t, hsplit, hnumber, htValue, rfl⟩
  · have hfound : (ts.find? fun u => u.installment == row.installment) =
        some { s with accruedSoFar := some t } := by
      rw [← hnumber]
      exact find?_key_eq_some (x := { s with accruedSoFar := some t }) ChargeShare.installment
        (hinstallments ▸ hshares) (hts ▸ by simp)
    refine Charge.contributionTo_of_accrued (x := { s.dues with accrued := t }) ?_ hm
      (htValue.trans hall)
    refine Charge.brought_eq_some.mpr ⟨hfalls, ?_⟩
    rw [Charge.partOf?_of_shares (c := { c with accruedSoFar := some b, shares := ts }) hdue,
      Charge.share?, hfound]
    rfl

/-- Accruing its allocation exhausts a charge. -/
theorem exists_advance (hshares : (c.shares.map (·.installment)).Nodup)
    (hc : ∀ a ∈ c.figures, a.Moderate)
    (h : c.contributionTo policy row w = .ok (m, a.allocationFor? c.id)) :
    ∃ d, a.advance c = .ok d ∧ c.Exhausted policy row w a d := by
  cases hy : a.allocationFor? c.id with
  | none =>
    refine ⟨c, by rw [advance, hy], ?_, rfl, m, h, hy ▸ h⟩
    rw [hy]
    rfl
  | some y =>
    obtain ⟨d, hd, hraised, hpenalty, hincome⟩ : ∃ d, a.advance c = .ok d ∧
        c.RaisedBy d (some y) ∧ d.isPenalty = c.isPenalty ∧
          d.contributionTo policy row w = .ok (m, none) := by
      cases hdue : c.dueDate with
      | some due => exact exists_advance_of_due hdue hc hy (hy ▸ h)
      | none => exact exists_advance_of_shares hdue hshares hc hy (hy ▸ h)
    exact ⟨d, hd, hy ▸ hraised, hpenalty, m, h, hincome⟩

private theorem foldlM_include_exhausted {t u : Tally}
    (hcs : List.Forall₂ (Charge.Exhausted policy row w a) cs ds)
    (h : cs.foldlM (Tally.include policy row w) t = .ok u) :
    ds.foldlM (Tally.include policy row w) ⟨[], t.fee, t.penalty⟩ =
      .ok ⟨[], u.fee, u.penalty⟩ := by
  induction hcs generalizing t with
  | nil =>
    rw [List.foldlM_nil, pure_eq_ok] at h
    rw [h]
    rfl
  | @cons c d cs ds hcd _ ih =>
    rw [List.foldlM_cons, bind_eq_ok] at h
    obtain ⟨v, hv, hrest⟩ := h
    have hstep : Tally.include policy row w ⟨[], t.fee, t.penalty⟩ d =
        .ok ⟨[], v.fee, v.penalty⟩ := by
      obtain ⟨m, hc, hd⟩ := hcd.income
      simp only [Tally.include] at hv ⊢
      rw [hc, bind_ok] at hv
      rw [hd, bind_ok]
      dsimp only at hv ⊢
      rw [hcd.isPenalty]
      split at hv
      · next hpenalty =>
        obtain ⟨total, htotal, hv⟩ := bind_eq_ok.mp hv
        rw [← pure_eq_ok.mp hv, if_pos hpenalty, htotal]
        rfl
      · next hfee =>
        obtain ⟨total, htotal, hv⟩ := bind_eq_ok.mp hv
        rw [← pure_eq_ok.mp hv, if_neg hfee, htotal]
        rfl
    rw [List.foldlM_cons, hstep, bind_ok]
    exact ih hrest

/-- Exhausted charges bring the same incomes again, and no allocations. -/
theorem ofCharges_of_exhausted (hcs : List.Forall₂ (Charge.Exhausted policy row w a) cs ds)
    (h : ofCharges policy row w cs = .ok a) :
    ofCharges policy row w ds = .ok { a with allocations := [] } := by
  obtain ⟨t, ht, ha⟩ := bind_eq_ok.mp h
  rw [← pure_eq_ok.mp ha]
  exact bind_eq_ok.mpr ⟨_, foldlM_include_exhausted hcs ht, rfl⟩

/-- An apportionment of charges, and the charges after it has accrued. The allocations are positive
and for different charges in their order; each charge is raised by its own, and the same window then
brings the same incomes and no allocations. -/
structure Exhausts (policy : ChargePolicy) (row : ScheduleRow) (w : Window) (cs : List Charge)
    (a : Apportionment) (ds : List Charge) : Prop where
  positive : ∀ y ∈ a.allocations, y.amount.isPositive = true
  ordered : List.SublistForall₂ (Allocation.IsOf row) a.allocations cs
  distinct : (a.allocations.map (·.chargeId)).Nodup
  applied : a.applyTo cs = .ok ds
  raised : List.Forall₂ (fun c d => c.RaisedBy d (a.allocationFor? c.id)) cs ds
  again : ofCharges policy row w ds = .ok { a with allocations := [] }

/-- Applying an apportionment exhausts it. -/
theorem exists_exhausts (policy : ChargePolicy) (row : ScheduleRow) (w : Window)
    (hids : (cs.map (·.id)).Nodup) (hshares : ∀ c ∈ cs, (c.shares.map (·.installment)).Nodup)
    (hfine : ∀ a ∈ cs.flatMap Charge.figures, a.Fine)
    (hsize : totalSize (cs.flatMap Charge.figures) < 10 ^ 18) :
    ∃ a ds, ofCharges policy row w cs = .ok a ∧ Exhausts policy row w cs a ds := by
  obtain ⟨a, ha, -⟩ := exists_ofCharges_of_figures policy row w hfine hsize
  have hmoderate : ∀ c ∈ cs, ∀ a ∈ c.figures, a.Moderate :=
    fun c hc => Charge.moderate_of_mem hfine hsize hc
  have hadvance : ∀ c ∈ cs, ∃ d, a.advance c = .ok d ∧ c.Exhausted policy row w a d := by
    intro c hc
    obtain ⟨m, hm⟩ := allocationFor?_eq ha hids hc
    exact exists_advance (hshares c hc) (hmoderate c hc) hm
  obtain ⟨ds, hds⟩ := exists_mapM (f := a.advance) (l := cs) fun c hc =>
    (hadvance c hc).imp fun d hd => hd.1
  have hexhausted : List.Forall₂ (Charge.Exhausted policy row w a) cs ds := by
    refine (forall₂_mem (mapM_eq_ok_iff.mp hds)).imp ?_
    rintro c d ⟨hc, -, hcd⟩
    obtain ⟨d', hd', hexhausted⟩ := hadvance c hc
    exact Except.ok.inj (hd'.symm.trans hcd) ▸ hexhausted
  refine ⟨a, ds, ha, fun y hy => ?_, ofCharges_allocations ha, nodup_allocations ha hids, hds,
    hexhausted.imp fun c d hcd => hcd.raised, ofCharges_of_exhausted hexhausted ha⟩
  obtain ⟨c, hc, m, hm⟩ := exists_contributionTo_of_mem ha hy
  obtain ⟨-, -, -, -, hpos, -⟩ := Charge.contributionTo_exact (hmoderate c hc) hm
  exact Money.isPositive_iff_value.mpr hpos

end Apportionment

/-- Charges around the first row. On one fee 4.10 has accrued and on another more than all of it, and
a third was waived before it accrued. -/
def partlyAccruedCharges : List Charge :=
  let fee := tenFee 18 januaryRow.dueDate
  boundaryCharges ++ [
    { tenFee 16 januaryRow.dueDate with accruedSoFar := some (cents 410) },
    { tenFee 17 januaryRow.dueDate with accruedSoFar := some (cents 1210) },
    { fee with waived := fee.amount, unrecognizedSoFar := some fee.amount }]

theorem exists_exhausts_partlyAccrued :
    ((partlyAccruedCharges.map (·.id)).Nodup ∧
      (∀ c ∈ partlyAccruedCharges, (c.shares.map (·.installment)).Nodup) ∧
      (∀ a ∈ partlyAccruedCharges.flatMap Charge.figures, a.Fine) ∧
      totalSize (partlyAccruedCharges.flatMap Charge.figures) < 10 ^ 18) ∧
    (∃ a ds, Apportionment.ofCharges .dueDate januaryRow januaryRow.period partlyAccruedCharges =
        .ok a ∧
      Apportionment.Exhausts .dueDate januaryRow januaryRow.period partlyAccruedCharges a ds) ∧
    (Apportionment.ofCharges .dueDate januaryRow januaryRow.period partlyAccruedCharges).toOption.map
        (fun a => (a.allocations.map fun y => (y.chargeId, y.amount, y.installment), a.feeIncome)) =
      some ([(11, cents 1000, none), (14, cents 1000, none), (13, cents 300, some 1),
        (16, cents 590, none)], some (cents 4300)) := by
  have hids : (partlyAccruedCharges.map (·.id)).Nodup := by decide
  have hshares : ∀ c ∈ partlyAccruedCharges, (c.shares.map (·.installment)).Nodup := by decide
  have hfine : ∀ a ∈ partlyAccruedCharges.flatMap Charge.figures, a.Fine := by
    unfold Money.Fine
    decide +kernel
  have hsize : totalSize (partlyAccruedCharges.flatMap Charge.figures) < 10 ^ 18 := by
    decide +kernel
  exact ⟨⟨hids, hshares, hfine, hsize⟩,
    Apportionment.exists_exhausts .dueDate januaryRow januaryRow.period hids hshares hfine hsize,
    by decide +kernel⟩

end LoanLedger
