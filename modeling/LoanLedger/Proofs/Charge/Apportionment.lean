import LoanLedger.Accrual.Posting
import LoanLedger.Proofs.Lists
import LoanLedger.Proofs.Money.Value

/-!
What apportionment selects and what it leaves behind. Every allocation belongs to a charge of the
list, and each charge has at most one; once the allocations have accrued, a charge differs by the
amounts that were paid into it and by nothing else.
-/

set_option autoImplicit false
set_option relaxedAutoImplicit false

namespace LoanLedger

variable {policy : ChargePolicy} {row : ScheduleRow} {w : Window} {a : Apportionment}
  {c d : Charge} {cs ds : List Charge}

/-- What an allocation of a charge to a row says. -/
structure Allocation.IsOf (row : ScheduleRow) (x : Allocation) (c : Charge) : Prop where
  chargeId : x.chargeId = c.id
  kind : x.kind = c.kind
  isPenalty : x.isPenalty = c.isPenalty
  installment : x.installment = if c.dueDate.isSome then none else some row.installment

private theorem contribution_isOf {n : Option InstallmentNumber} {accruable accrued income : Money}
    {x : Allocation} (h : c.contribution n accruable accrued = .ok (income, some x)) :
    x.chargeId = c.id ∧ x.kind = c.kind ∧ x.isPenalty = c.isPenalty ∧ x.installment = n := by
  obtain ⟨delta, -, hx⟩ := bind_eq_ok.mp h
  have hx := congrArg Prod.snd (pure_eq_ok.mp hx)
  obtain ⟨m, -, rfl⟩ := Option.map_eq_some_iff.mp hx
  exact ⟨rfl, rfl, rfl, rfl⟩

/-- A charge brings its own allocation. -/
theorem Charge.contributionTo_isOf {income : Money} {x : Allocation}
    (h : c.contributionTo policy row w = .ok (income, some x)) : x.IsOf row c := by
  simp only [contributionTo] at h
  split at h
  · next due hdue =>
    split at h
    · obtain ⟨m, -, hm⟩ := bind_eq_ok.mp h
      obtain ⟨hid, hkind, hpenalty, hn⟩ := contribution_isOf hm
      exact ⟨hid, hkind, hpenalty, by simpa [hdue] using hn⟩
    · cases h
  · next hdue =>
    split at h
    · cases h
    · split at h
      · cases h
      · next s hs =>
        obtain ⟨m, -, hm⟩ := bind_eq_ok.mp h
        obtain ⟨hid, hkind, hpenalty, hn⟩ := contribution_isOf hm
        have hinstallment : s.installment = row.installment := by
          simpa using List.find?_some hs
        exact ⟨hid, hkind, hpenalty, by simpa [hdue, hinstallment] using hn⟩

namespace Apportionment

private theorem include_allocations {t u : Tally} (h : t.include policy row w c = .ok u) :
    ∃ o : Option Allocation, u.allocations = t.allocations ++ o.toList ∧
      ∀ x, o = some x → x.IsOf row c := by
  obtain ⟨⟨income, o⟩, hc, hu⟩ := bind_eq_ok.mp h
  refine ⟨o, ?_, ?_⟩
  · dsimp only at hu
    split at hu
    · obtain ⟨m, -, hm⟩ := bind_eq_ok.mp hu
      rw [← pure_eq_ok.mp hm]
    · obtain ⟨m, -, hm⟩ := bind_eq_ok.mp hu
      rw [← pure_eq_ok.mp hm]
  · rintro x rfl
    exact Charge.contributionTo_isOf hc

private theorem foldlM_include_allocations {t u : Tally}
    (h : cs.foldlM (Tally.include policy row w) t = .ok u) :
    ∃ new, u.allocations = t.allocations ++ new ∧
      List.SublistForall₂ (Allocation.IsOf row) new cs := by
  induction cs generalizing t with
  | nil =>
    rw [List.foldlM_nil, pure_eq_ok] at h
    exact ⟨[], by rw [h, List.append_nil], .nil⟩
  | cons c cs ih =>
    rw [List.foldlM_cons, bind_eq_ok] at h
    obtain ⟨v, hv, hrest⟩ := h
    obtain ⟨o, ho, hof⟩ := include_allocations hv
    obtain ⟨new, hnew, hsub⟩ := ih hrest
    cases o with
    | none => exact ⟨new, by rw [hnew, ho, Option.toList_none, List.append_nil], .cons_right hsub⟩
    | some x => exact ⟨x :: new, by simp [hnew, ho], .cons (hof x rfl) hsub⟩

/-- Allocations belong to charges of the list, in their order and one to each at most. -/
theorem ofCharges_allocations (h : ofCharges policy row w cs = .ok a) :
    List.SublistForall₂ (Allocation.IsOf row) a.allocations cs := by
  obtain ⟨t, ht, ha⟩ := bind_eq_ok.mp h
  obtain ⟨new, hnew, hsub⟩ := foldlM_include_allocations ht
  rw [← pure_eq_ok.mp ha]
  dsimp only
  rw [hnew]
  exact hsub

theorem nodup_allocations (h : ofCharges policy row w cs = .ok a)
    (hcs : (cs.map (·.id)).Nodup) : (a.allocations.map (·.chargeId)).Nodup := by
  obtain ⟨es, hes, hsub⟩ := List.sublistForall₂_iff.mp (ofCharges_allocations h)
  rw [map_eq_of_forall₂ hes fun _ _ hx => hx.chargeId]
  exact (hsub.map _).nodup hcs

theorem isOf_of_mem (h : ofCharges policy row w cs = .ok a) (hcs : (cs.map (·.id)).Nodup)
    {x : Allocation} (hx : x ∈ a.allocations) (hc : c ∈ cs) (hid : x.chargeId = c.id) :
    x.IsOf row c := by
  obtain ⟨d, hd, hof⟩ := exists_mem_of_sublistForall₂ (ofCharges_allocations h) hx
  have hdc : d = c := List.inj_on_of_nodup_map hcs hd hc (hof.chargeId.symm.trans hid)
  exact hdc ▸ hof

end Apportionment

/-! A charge and its shares advance by what is paid into them. -/

/-- A share after the given payments of its charge: those of its installment were added to what
had accrued. -/
structure ChargeShare.AdvancedBy (paid : List ChargePayment) (s t : ChargeShare) : Prop where
  terms : t = { s with accruedSoFar := t.accruedSoFar }
  accrued : s.accrued.addAll
    ((paid.filter fun p => p.installment = s.installment).map (·.amount)) = .ok t.accrued

/-- A charge after the given payments: those that name it were added to what had accrued, and for
an installment fee to the share of their installment. -/
structure Charge.AdvancedBy (paid : List ChargePayment) (c d : Charge) : Prop where
  terms : d = { c with accruedSoFar := d.accruedSoFar, shares := d.shares }
  accrued : c.accrued.addAll ((paid.filter fun p => p.chargeId = c.id).map (·.amount)) =
    .ok d.accrued
  shares : List.Forall₂ (ChargeShare.AdvancedBy
    (if c.dueDate.isSome then [] else paid.filter fun p => p.chargeId = c.id)) c.shares d.shares

namespace ChargeShare

theorem AdvancedBy.refl (s : ChargeShare) : s.AdvancedBy [] s := ⟨rfl, rfl⟩

theorem AdvancedBy.trans {paid more : List ChargePayment} {s t u : ChargeShare}
    (hst : s.AdvancedBy paid t) (htu : t.AdvancedBy more u) : s.AdvancedBy (paid ++ more) u := by
  have hn : t.installment = s.installment := congrArg (·.installment) hst.terms
  constructor
  · rw [htu.terms, hst.terms]
  · have hmore := htu.accrued
    rw [hn] at hmore
    rw [List.filter_append, List.map_append]
    exact Money.addAll_append hst.accrued hmore

end ChargeShare

namespace Charge

theorem AdvancedBy.refl (c : Charge) : c.AdvancedBy [] c where
  terms := rfl
  accrued := rfl
  shares := by
    rw [List.filter_nil, ite_self]
    exact List.forall₂_same.mpr fun s _ => .refl s

theorem AdvancedBy.trans {paid more : List ChargePayment} {e : Charge} (hcd : c.AdvancedBy paid d)
    (hde : d.AdvancedBy more e) : c.AdvancedBy (paid ++ more) e := by
  have hid : d.id = c.id := congrArg (·.id) hcd.terms
  have hdue : d.dueDate = c.dueDate := congrArg (·.dueDate) hcd.terms
  refine ⟨?_, ?_, ?_⟩
  · rw [hde.terms, hcd.terms]
  · have hmore := hde.accrued
    rw [hid] at hmore
    rw [List.filter_append, List.map_append]
    exact Money.addAll_append hcd.accrued hmore
  · have hmore := hde.shares
    rw [hid, hdue] at hmore
    apply forall₂_comp hcd.shares hmore
    intro s t u hst htu
    split at hst
    · next h =>
      rw [if_pos h] at htu ⊢
      exact hst.trans htu
    · next h =>
      rw [if_neg h] at htu ⊢
      rw [List.filter_append]
      exact hst.trans htu

theorem forall₂_advancedBy_trans {paid more : List ChargePayment} {cs ds es : List Charge}
    (hcd : List.Forall₂ (AdvancedBy paid) cs ds) (hde : List.Forall₂ (AdvancedBy more) ds es) :
    List.Forall₂ (AdvancedBy (paid ++ more)) cs es :=
  forall₂_comp hcd hde fun _ _ _ h h' => h.trans h'

theorem forall₂_advancedBy_refl (cs : List Charge) : List.Forall₂ (AdvancedBy []) cs cs :=
  List.forall₂_same.mpr fun c _ => .refl c

theorem map_id_of_advancedBy {paid : List ChargePayment} (h : List.Forall₂ (AdvancedBy paid) cs ds) :
    ds.map (·.id) = cs.map (·.id) :=
  (map_eq_of_forall₂ h fun _ _ hcd => (congrArg (·.id) hcd.terms).symm).symm

end Charge

namespace Apportionment

/-- The payments that allocations make, for a transaction on an installment. -/
def payments (a : Apportionment) (id : TransactionId) (n : InstallmentNumber) :
    List ChargePayment :=
  a.allocations.map fun x => ⟨id, x.chargeId, x.amount, n⟩

theorem filter_payments (h : (a.allocations.map (·.chargeId)).Nodup) (id : TransactionId)
    (n : InstallmentNumber) :
    (a.payments id n).filter (fun p => p.chargeId = c.id) =
      (a.allocationFor? c.id).toList.map fun x => ⟨id, x.chargeId, x.amount, n⟩ := by
  simp only [payments, allocationFor?]
  rw [← filter_eq_toList_find? Allocation.chargeId c.id h, List.filter_map]
  rfl

private theorem advanceShare_advancedBy {x : Allocation} {s t : ChargeShare} {id : TransactionId}
    {n : InstallmentNumber} (hx : x.installment = some n) (h : advanceShare x s = .ok t) :
    s.AdvancedBy [⟨id, x.chargeId, x.amount, n⟩] t := by
  simp only [advanceShare] at h
  split at h
  · next heq =>
    have hn : n = s.installment := Option.some.inj (hx.symm.trans heq)
    obtain ⟨m, hm, ht⟩ := bind_eq_ok.mp h
    rw [← pure_eq_ok.mp ht]
    refine ⟨rfl, ?_⟩
    rw [List.filter_cons_of_pos (by simpa using hn)]
    exact (Money.addAll_singleton _ _).trans hm
  · next hne =>
    have hn : n ≠ s.installment := fun h => hne (h ▸ hx)
    rw [← Except.ok.inj h]
    refine ⟨rfl, ?_⟩
    rw [List.filter_cons_of_neg (by simpa using hn)]
    rfl

private theorem advanceShare_of_none {x : Allocation} {s t : ChargeShare}
    (hx : x.installment = none) (h : advanceShare x s = .ok t) : t = s := by
  simp only [advanceShare] at h
  rw [if_neg (by simp [hx])] at h
  exact (Except.ok.inj h).symm

/-- Allocations accrue on a charge as payments into it. -/
theorem advance_advancedBy (hof : ofCharges policy row w cs = .ok a)
    (hcs : (cs.map (·.id)).Nodup) (hc : c ∈ cs) (h : a.advance c = .ok d) (id : TransactionId) :
    c.AdvancedBy (a.payments id row.installment) d := by
  have hpaid := filter_payments (c := c) (nodup_allocations hof hcs) id row.installment
  simp only [advance] at h
  cases hx : a.allocationFor? c.id with
  | none =>
    rw [hx] at h hpaid
    rw [← Except.ok.inj h]
    refine ⟨rfl, ?_, ?_⟩
    · rw [hpaid]
      rfl
    · rw [hpaid, Option.toList_none, List.map_nil, ite_self]
      exact List.forall₂_same.mpr fun s _ => .refl s
  | some x =>
    rw [hx] at h hpaid
    obtain ⟨accrued, haccrued, hrest⟩ := bind_eq_ok.mp h
    obtain ⟨shares, hshares, hd⟩ := bind_eq_ok.mp hrest
    have hshares := mapM_eq_ok_iff.mp hshares
    have hmem : x ∈ a.allocations := List.mem_of_find?_eq_some hx
    have hid : x.chargeId = c.id := by simpa using List.find?_some hx
    have hinstallment := (isOf_of_mem hof hcs hmem hc hid).installment
    rw [← pure_eq_ok.mp hd]
    refine ⟨rfl, ?_, ?_⟩
    · rw [hpaid]
      exact (Money.addAll_singleton _ _).trans haccrued
    · rw [hpaid]
      apply hshares.imp
      intro s t hst
      cases hdue : c.dueDate with
      | none =>
        rw [hdue] at hinstallment
        exact advanceShare_advancedBy hinstallment hst
      | some due =>
        rw [hdue] at hinstallment
        rw [advanceShare_of_none hinstallment hst]
        exact .refl s

/-- Allocations accrue on the charges that they were made from as payments into them. -/
theorem applyTo_advancedBy (hof : ofCharges policy row w cs = .ok a)
    (hcs : (cs.map (·.id)).Nodup) (h : a.applyTo cs = .ok ds) (id : TransactionId) :
    List.Forall₂ (Charge.AdvancedBy (a.payments id row.installment)) cs ds := by
  have hall := mapM_eq_ok_iff.mp h
  refine ((List.forall₂_and_left cs ds).mpr ⟨fun c hc => hc, hall⟩).imp ?_
  rintro c d ⟨hc, hcd⟩
  exact advance_advancedBy hof hcs hc hcd id

end Apportionment
end LoanLedger
