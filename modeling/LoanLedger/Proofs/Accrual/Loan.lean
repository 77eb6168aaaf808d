import LoanLedger.Proofs.Accrual.Plan

/-!
What the accrual of a loan produces: postings for candidate rows in their order, one journal entry
for each, and charges that advance by what is paid into them.
-/

set_option autoImplicit false
set_option relaxedAutoImplicit false

namespace LoanLedger

variable {input : AccrualInput} {s : Settings} {processedOn : Date}

namespace Accrues

variable {cs ds : List Charge} {n : Nat} {tasks : List (ScheduleRow × Extent)}
  {os : List (Option Posting)}

/-- Postings are for the rows of the tasks, in their order and one for each at most. -/
theorem postings_isFor (h : Accrues input s processedOn cs n tasks os ds) :
    List.SublistForall₂ Posting.IsFor os.reduceOption (tasks.map Prod.fst) := by
  induction h with
  | done => exact .nil
  | rest _ _ ih => exact .cons_right ih
  | posts hpropose _ _ ih => exact .cons (AccrualInput.propose_isFor hpropose).1 ih

/-- Carrying out a plan advances the charges by the payments of its postings. -/
theorem charges_advancedBy (h : Accrues input s processedOn cs n tasks os ds)
    (hcs : (cs.map (·.id)).Nodup) :
    List.Forall₂ (Charge.AdvancedBy (os.reduceOption.flatMap (·.payments))) cs ds := by
  induction h with
  | done => exact Charge.forall₂_advancedBy_refl _
  | rest _ _ ih => exact ih hcs
  | posts hpropose happly _ ih =>
    obtain ⟨-, -, -, hpayments⟩ := AccrualInput.propose_isFor hpropose
    have hcharges := (AccrualInput.prepare_eq_ok.mp
      ((input.propose_eq_ok s processedOn).mp hpropose).1).1
    have hstep := Apportionment.applyTo_advancedBy hcharges hcs happly
    have hrest := ih (Charge.map_id_of_advancedBy (hstep default) ▸ hcs)
    rw [List.reduceOption_cons_of_some, List.flatMap_cons, hpayments]
    exact Charge.forall₂_advancedBy_trans (hstep _) hrest

end Accrues

/-- A charge of the journal that is the given allocation. -/
structure JournalCharge.Records (a : Allocation) (c : JournalCharge) : Prop where
  kind : c.kind = a.kind
  isPenalty : c.isPenalty = a.isPenalty
  chargeId : c.chargeId = a.chargeId
  amount : c.amount = a.amount

/-- A transaction of the journal that is the transaction of a posting, not reversed, with nothing
but its portions, and with the charges that were paid by it. -/
structure JournalTransaction.Records (p : Posting) (t : JournalTransaction) : Prop where
  id : t.id = p.transaction.id
  officeId : t.officeId = p.transaction.officeId
  date : t.date = p.transaction.date
  amount : t.amount = p.transaction.amount
  currency : t.currency = p.transaction.currency
  interest : t.interest = p.transaction.interest
  fee : t.fee = p.transaction.fee
  penalty : t.penalty = p.transaction.penalty
  nothingElse : t.reversed = false ∧ t.principal = none ∧ t.overpayment = none
  charges : List.Forall₂ JournalCharge.Records p.allocations t.charges
  payments : p.payments.map (fun c => (c.transactionId, c.chargeId, c.amount)) =
    t.charges.map fun c => (t.id, c.chargeId, c.amount)

/-- A journal entry that hands over one posting, and nothing else, for its loan. -/
structure JournalEntry.Records (p : Posting) (e : JournalEntry) : Prop where
  loanId : e.loanId = p.transaction.loanId
  transactions : ∃ t, e.transactions = [t] ∧ JournalTransaction.Records p t

/-- The journal is told of a posting as it is. -/
theorem JournalTransaction.records_ofPosting {p : Posting} (h : p.Balanced) :
    JournalTransaction.Records p (.ofPosting p) where
  id := rfl
  officeId := rfl
  date := rfl
  amount := rfl
  currency := rfl
  interest := rfl
  fee := rfl
  penalty := rfl
  nothingElse := ⟨rfl, rfl, rfl⟩
  charges := List.forall₂_map_right_iff.mpr
    (List.forall₂_same.mpr fun _ _ => ⟨rfl, rfl, rfl, rfl⟩)
  payments := by
    rw [h.payments, ofPosting, List.map_map, List.map_map]
    rfl

namespace AccrualInput

variable {mode : RunMode} {firstId : Nat} {r : AccrualResult}

private theorem objection?_eq_none {row : ScheduleRow} (h : input.objection? row = none) :
    row.loanId = input.loanId ∧ row.fromDate ≤ row.dueDate := by
  simp only [objection?] at h
  split at h
  · cases h
  · next hid =>
    split at h
    · cases h
    · next hdate => exact ⟨not_not.mp hid, Int.not_lt.mp hdate⟩

/-- Candidates that pass are rows of the loan and do not start after their due dates. -/
theorem validate_eq_ok (h : input.validate = .ok ()) {row : ScheduleRow}
    (hrow : row ∈ input.candidates) :
    row.loanId = input.loanId ∧ row.fromDate ≤ row.dueDate := by
  simp only [validate] at h
  split at h
  · cases h
  · next hnone => exact objection?_eq_none (List.findSome?_eq_none_iff.mp hnone row hrow)

/-- An accrual validates its candidates, carries out the plan and draws up the entries. -/
theorem accrue_eq_ok (h : input.accrue mode s processedOn firstId = .ok r) :
    input.validate = .ok () ∧
      (∃ os, Accrues input s processedOn input.charges firstId (plan mode input.candidates) os
        r.charges ∧ r.postings = os.reduceOption) ∧
      r.entries = r.postings.filterMap (input.entryFor? s.accountingMethod) ∧
      r.accruedTill = r.postings.getLast?.map (·.accruedTill) := by
  obtain ⟨u, hvalidate, hrest⟩ := bind_eq_ok.mp h
  obtain ⟨g, hg, hr⟩ := bind_eq_ok.mp hrest
  rw [← pure_eq_ok.mp hr]
  exact ⟨lift_refusal_eq_ok.mp hvalidate, accrues_of_accrueRows (lift_fault_eq_ok.mp hg), rfl, rfl⟩

theorem accrue_isFor (h : input.accrue mode s processedOn firstId = .ok r) :
    List.SublistForall₂ Posting.IsFor r.postings input.candidates := by
  obtain ⟨-, ⟨os, hos, hpostings⟩, -, -⟩ := accrue_eq_ok h
  obtain ⟨rows, hfor, hsub⟩ := List.sublistForall₂_iff.mp hos.postings_isFor
  rw [hpostings, List.sublistForall₂_iff]
  exact ⟨rows, hfor, hsub.trans (plan_sublist mode input.candidates)⟩

theorem accrue_loanId (h : input.accrue mode s processedOn firstId = .ok r) {p : Posting}
    (hp : p ∈ r.postings) : p.transaction.loanId = input.loanId := by
  obtain ⟨row, hrow, hfor⟩ := exists_mem_of_sublistForall₂ (accrue_isFor h) hp
  rw [hfor.loanId]
  exact (validate_eq_ok (accrue_eq_ok h).1 hrow).1

theorem accrue_nodup (h : input.accrue mode s processedOn firstId = .ok r)
    (hrows : (input.candidates.map (·.rowId)).Nodup) :
    (r.postings.map (·.totals.rowId)).Nodup := by
  obtain ⟨rows, hfor, hsub⟩ := List.sublistForall₂_iff.mp (accrue_isFor h)
  rw [map_eq_of_forall₂ hfor fun p row hp => hp.rowId]
  exact (hsub.map _).nodup hrows

private theorem filterMap_forall₂ {α β : Type} {f : α → Option β} {l : List α}
    (h : ∀ a ∈ l, ∃ b, f a = some b) : List.Forall₂ (fun a b => f a = some b) l (l.filterMap f) := by
  induction l with
  | nil => exact .nil
  | cons a l ih =>
    obtain ⟨b, hb⟩ := h a List.mem_cons_self
    rw [List.filterMap_cons_some hb]
    exact .cons hb (ih fun c hc => h c (List.mem_cons_of_mem _ hc))

/-- Every posting gets its journal entry. -/
theorem accrue_entries (h : input.accrue mode s processedOn firstId = .ok r) :
    List.Forall₂ JournalEntry.Records r.postings r.entries := by
  obtain ⟨hvalid, -, hentries, -⟩ := accrue_eq_ok h
  have hsome : ∀ p ∈ r.postings, ∃ e, input.entryFor? s.accountingMethod p = some e := by
    intro p hp
    obtain ⟨row, hrow, hfor⟩ := exists_mem_of_sublistForall₂ (accrue_isFor h) hp
    have hfound : (input.candidates.find? fun row => row.rowId == p.totals.rowId).isSome := by
      rw [List.find?_isSome]
      exact ⟨row, hrow, beq_iff_eq.mpr hfor.rowId.symm⟩
    obtain ⟨row', hrow'⟩ := Option.isSome_iff_exists.mp hfound
    exact ⟨.ofPosting row' p s.accountingMethod, by rw [entryFor?, hrow', Option.map_some]⟩
  rw [hentries]
  refine ((List.forall₂_and_left _ _).mpr ⟨fun p hp => hp, filterMap_forall₂ hsome⟩).imp ?_
  rintro p e ⟨hp, he⟩
  obtain ⟨row, hrow, rfl⟩ := Option.map_eq_some_iff.mp he
  obtain ⟨_, _, hfor⟩ := exists_mem_of_sublistForall₂ (accrue_isFor h) hp
  refine ⟨?_, _, rfl, JournalTransaction.records_ofPosting hfor.balanced⟩
  rw [accrue_loanId h hp]
  exact (validate_eq_ok hvalid (List.mem_of_find?_eq_some hrow)).1

theorem loanId_of_mem_entries (h : input.accrue mode s processedOn firstId = .ok r)
    {e : JournalEntry} (he : e ∈ r.entries) : e.loanId = input.loanId := by
  obtain ⟨p, hp, hrecords⟩ := exists_mem_of_forall₂ (accrue_entries h).flip he
  exact hrecords.loanId.trans (accrue_loanId h hp)

theorem accrue_charges (h : input.accrue mode s processedOn firstId = .ok r)
    (hcs : (input.charges.map (·.id)).Nodup) :
    List.Forall₂ (Charge.AdvancedBy (r.postings.flatMap (·.payments))) input.charges r.charges := by
  obtain ⟨-, ⟨os, hos, hpostings⟩, -, -⟩ := accrue_eq_ok h
  rw [hpostings]
  exact hos.charges_advancedBy hcs

end AccrualInput
end LoanLedger
