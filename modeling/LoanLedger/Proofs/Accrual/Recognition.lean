import LoanLedger.Proofs.Accrual.Loan
import LoanLedger.Proofs.Charge.Attribution
import LoanLedger.Proofs.Explanation

/-!
When income is recognized. An accrual up to a date posts nothing that is dated later, takes up a
charge on a row only when the policy lets it be recognized there by the date, and what accrues on the
charges is what was allocated to them.
-/

set_option autoImplicit false
set_option relaxedAutoImplicit false

namespace LoanLedger

variable {input : AccrualInput} {s : Settings} {processedOn till : Date} {policy : ChargePolicy}
  {row : ScheduleRow} {w : Window} {e : Extent} {a : Apportionment} {c d : Charge}
  {cs ds : List Charge} {xs ys : List Allocation}

namespace Extent

/-- Charges are selected up to the date that the posting accrues the loan to. -/
theorem window_finish (row : ScheduleRow) (e : Extent) :
    (e.window row).finish = e.accruedTill row := by
  cases e <;> rfl

theorem Fits.accruedTill_le (h : e.Fits row) : e.accruedTill row ≤ e.waiversTill := by
  cases e with
  | whole _ => exact h
  | upTo till => exact Int.le_refl till.day

theorem postedOn_of_dueDate (hpolicy : s.policy = .dueDate) (processedOn : Date)
    (row : ScheduleRow) (e : Extent) : e.postedOn s processedOn row = e.accruedTill row := by
  cases e with
  | whole _ =>
    simp only [postedOn]
    rw [hpolicy]
    rfl
  | upTo _ => rfl

end Extent

namespace Charge

/-- Whether a charge may be recognized for a row by a date. One with a due date may when it is due
or, by submission, when it was submitted and is due by the due date of the row; an installment fee
may when the row is due. -/
def RecognizableBy (policy : ChargePolicy) (till : Date) (row : ScheduleRow) (c : Charge) : Prop :=
  match c.dueDate with
  | some due =>
    match policy with
    | .dueDate => due ≤ till
    | .submittedDate => c.submittedOn ≤ till ∧ due ≤ row.dueDate
  | none => c.isInstallmentFee = true ∧ row.dueDate ≤ till

/-- What falls into a window may be recognized by the end of it. -/
theorem recognizableBy_of_falls (h : c.falls policy row w = true) (hle : w.finish ≤ till) :
    c.RecognizableBy policy till row := by
  simp only [falls] at h
  simp only [RecognizableBy]
  cases hdue : c.dueDate with
  | some due =>
    rw [hdue] at h
    cases policy with
    | dueDate =>
      simp only [selected, dueWithin, Bool.and_eq_true, decide_eq_true_eq] at h
      exact Int.le_trans h.2 hle
    | submittedDate =>
      simp only [selected, submittedWithin, Bool.and_eq_true, decide_eq_true_eq] at h
      exact ⟨Int.le_trans h.1.2 hle, h.2⟩
  | none =>
    rw [hdue] at h
    simp only [Bool.and_eq_true, decide_eq_true_eq] at h
    exact ⟨h.1, h.2 ▸ hle⟩

theorem SameTerms.recognizableBy (h : c.SameTerms d) :
    d.RecognizableBy policy till row ↔ c.RecognizableBy policy till row := by
  simp only [RecognizableBy]
  rw [h.terms]

theorem SameTerms.isOf {x : Allocation} (h : c.SameTerms d) (hx : x.IsOf row d) : x.IsOf row c where
  chargeId := hx.chargeId.trans (congrArg (·.id) h.terms)
  kind := hx.kind.trans (congrArg (·.kind) h.terms)
  isPenalty := hx.isPenalty.trans (congrArg (·.isPenalty) h.terms)
  installment := by
    rw [hx.installment, h.terms]

/-- A charge after the given allocations: those that carry its number were added to what had accrued,
without any the charge is as it was, and its terms are kept. -/
structure AllocatedBy (xs : List Allocation) (c d : Charge) : Prop where
  sameTerms : c.SameTerms d
  accrued : c.accrued.addAll ((xs.filter fun x => x.chargeId = c.id).map (·.amount)) =
    .ok d.accrued
  untouched : (∀ x ∈ xs, x.chargeId ≠ c.id) → d = c

theorem AllocatedBy.refl (c : Charge) : c.AllocatedBy [] c := ⟨.refl c, rfl, fun _ => rfl⟩

theorem AllocatedBy.trans {e : Charge} (hcd : c.AllocatedBy xs d) (hde : d.AllocatedBy ys e) :
    c.AllocatedBy (xs ++ ys) e := by
  have hid : d.id = c.id := congrArg (·.id) hcd.sameTerms.terms
  refine ⟨hcd.sameTerms.trans hde.sameTerms, ?_, fun hnone => ?_⟩
  · have hmore := hde.accrued
    rw [hid] at hmore
    rw [List.filter_append, List.map_append]
    exact Money.addAll_append hcd.accrued hmore
  · have hd : d = c := hcd.untouched fun x hx => hnone x (List.mem_append_left _ hx)
    rw [← hd]
    exact hde.untouched fun x hx => hid ▸ hnone x (List.mem_append_right _ hx)

end Charge

namespace Apportionment

/-- Accruing allocations changes a charge by those that carry its number. -/
theorem advance_allocatedBy (hof : ofCharges policy row w cs = .ok a) (hcs : (cs.map (·.id)).Nodup)
    (hc : c ∈ cs) (h : a.advance c = .ok d) : c.AllocatedBy a.allocations d where
  sameTerms := advance_sameTerms h
  accrued := by
    have hpaid := (advance_advancedBy hof hcs hc h default).accrued
    rw [payments, List.filter_map, List.map_map] at hpaid
    exact hpaid
  untouched hnone := by
    have hx : a.allocationFor? c.id = none :=
      List.find?_eq_none.mpr fun x hx hid => hnone x hx (beq_iff_eq.mp hid)
    simp only [advance] at h
    rw [hx] at h
    exact (Except.ok.inj h).symm

/-- Allocations are of charges that fall into the window. -/
theorem falls_of_mem {x : Allocation} (h : ofCharges policy row w cs = .ok a)
    (hx : x ∈ a.allocations) : ∃ c ∈ cs, x.IsOf row c ∧ c.falls policy row w = true := by
  obtain ⟨c, hc, m, hm⟩ := exists_contributionTo_of_mem h hx
  obtain ⟨_, hbrought, -, -⟩ := Charge.contributionTo_some hm
  exact ⟨c, hc, Charge.contributionTo_isOf hm, (Charge.brought_eq_some.mp hbrought).1⟩

end Apportionment

/-- A posting that an accrual up to a date may make for a row: it is dated by then, and allocates
to charges of the loan that may be recognized for the row by then. -/
structure Posting.RecognizedBy (policy : ChargePolicy) (till : Date) (cs : List Charge)
    (p : Posting) (row : ScheduleRow) : Prop where
  isFor : p.IsFor row
  accruedTill : p.accruedTill ≤ till
  date : policy = .dueDate → p.transaction.date ≤ till
  allocations : ∀ x ∈ p.allocations, ∃ c ∈ cs, x.IsOf row c ∧ c.RecognizableBy policy till row

namespace AccrualInput

theorem propose_some {id : TransactionId} {p : PreparedAccrual} {x : Posting}
    (h : input.propose s processedOn cs id row e = .ok (p, some x)) :
    x.transaction.date = e.postedOn s processedOn row ∧ x.allocations = p.charges.allocations := by
  obtain ⟨-, interest, parts, amount, -, -, -, hx⟩ := (input.propose_eq_ok s processedOn).mp h
  split at hx
  · rw [Option.some.inj hx]
    exact ⟨rfl, rfl⟩
  · cases hx

/-- What a task of a plan up to a date posts may be recognized by the date. -/
theorem propose_recognizedBy {cs₀ : List Charge} {id : TransactionId} {p : PreparedAccrual}
    {x : Posting} (h : input.propose s processedOn cs id row e = .ok (p, some x))
    (hterms : List.Forall₂ Charge.SameTerms cs₀ cs) (hfits : e.Fits row)
    (htill : e.waiversTill = till) : x.RecognizedBy s.policy till cs₀ row := by
  obtain ⟨hfor, -, haccruedTill, -⟩ := propose_isFor h
  obtain ⟨hdate, hallocations⟩ := propose_some h
  have hof := (prepare_eq_ok.mp ((input.propose_eq_ok s processedOn).mp h).1).1
  have hle : e.accruedTill row ≤ till := htill ▸ hfits.accruedTill_le
  refine ⟨hfor, haccruedTill ▸ hle, fun hpolicy => ?_, fun y hy => ?_⟩
  · rw [hdate, e.postedOn_of_dueDate hpolicy]
    exact hle
  · obtain ⟨c, hc, hyc, hfalls⟩ := Apportionment.falls_of_mem hof (hallocations ▸ hy)
    obtain ⟨c₀, hc₀, hsame⟩ := exists_mem_of_forall₂ hterms.flip hc
    have hfinish : (e.window row).finish ≤ till := e.window_finish row ▸ hle
    exact ⟨c₀, hc₀, hsame.isOf hyc,
      hsame.recognizableBy.mp (Charge.recognizableBy_of_falls hfalls hfinish)⟩

end AccrualInput

namespace Accrues

variable {n : Nat} {tasks : List (ScheduleRow × Extent)} {os : List (Option Posting)}

/-- Carrying out a plan up to a date posts what may be recognized by the date. -/
theorem recognizedBy {cs₀ : List Charge} (h : Accrues input s processedOn cs n tasks os ds)
    (hterms : List.Forall₂ Charge.SameTerms cs₀ cs)
    (htasks : ∀ task ∈ tasks, task.2.Fits task.1 ∧ task.2.waiversTill = till) :
    List.SublistForall₂ (Posting.RecognizedBy s.policy till cs₀) os.reduceOption
      (tasks.map Prod.fst) := by
  induction h with
  | done => exact .nil
  | rest _ _ ih => exact .cons_right (ih hterms (List.forall_mem_cons.mp htasks).2)
  | posts hpropose happly _ ih =>
    obtain ⟨⟨hfits, htill⟩, htasks⟩ := List.forall_mem_cons.mp htasks
    -- later tasks see charges that differ from those of the loan in what has accrued alone
    have hnext := Charge.forall₂_sameTerms_trans hterms (Apportionment.applyTo_sameTerms happly)
    exact .cons (AccrualInput.propose_recognizedBy hpropose hterms hfits htill) (ih hnext htasks)

/-- Carrying out a plan changes charges by the allocations of its postings. -/
theorem charges_allocatedBy (h : Accrues input s processedOn cs n tasks os ds)
    (hcs : (cs.map (·.id)).Nodup) :
    List.Forall₂ (Charge.AllocatedBy (os.reduceOption.flatMap (·.allocations))) cs ds := by
  induction h with
  | done => exact List.forall₂_same.mpr fun c _ => .refl c
  | rest _ _ ih => exact ih hcs
  | posts hpropose happly _ ih =>
    obtain ⟨-, hallocations⟩ := AccrualInput.propose_some hpropose
    have hof := (AccrualInput.prepare_eq_ok.mp
      ((input.propose_eq_ok s processedOn).mp hpropose).1).1
    have hstep := (forall₂_mem (mapM_eq_ok_iff.mp happly)).imp fun c d hcd =>
      Apportionment.advance_allocatedBy hof hcs hcd.1 hcd.2.2
    have hids := Charge.map_id_of_sameTerms (hstep.imp fun c d hcd => hcd.sameTerms)
    rw [List.reduceOption_cons_of_some, List.flatMap_cons, hallocations]
    exact forall₂_comp hstep (ih (hids ▸ hcs)) fun _ _ _ h h' => h.trans h'

end Accrues

/-- Nothing is recognized before its date. In an accrual up to a date every posting is dated by then
and takes up only charges that may be recognized by then, and the charges change by the allocations of
the postings alone. -/
theorem AccrualInput.accrue_recognizedBy {firstId : Nat} {r : AccrualResult}
    (h : input.accrue (.tillDate till) s processedOn firstId = .ok r)
    (hcs : (input.charges.map (·.id)).Nodup) :
    List.SublistForall₂ (Posting.RecognizedBy s.policy till input.charges) r.postings
        input.candidates ∧
      List.Forall₂ (Charge.AllocatedBy (r.postings.flatMap (·.allocations))) input.charges
        r.charges := by
  obtain ⟨-, ⟨os, hos, hpostings⟩, -, -⟩ := accrue_eq_ok h
  have htasks : ∀ task ∈ plan (.tillDate till) input.candidates,
      task.2.Fits task.1 ∧ task.2.waiversTill = till :=
    fun task htask => ⟨plan_fits htask, plan_till htask⟩
  rw [hpostings]
  refine ⟨?_, hos.charges_allocatedBy hcs⟩
  obtain ⟨rows, hrows, hsub⟩ := List.sublistForall₂_iff.mp
    (hos.recognizedBy (Charge.forall₂_sameTerms_refl _) htasks)
  exact List.sublistForall₂_iff.mpr ⟨rows, hrows, hsub.trans (plan_sublist _ input.candidates)⟩

/-- Both rows with a fee due on 2024-01-10, a fee for the two installments, and a penalty that was
entered on 2024-02-05 and falls due on 2024-02-20. -/
def announcedPenaltyInput : AccrualInput where
  loanId := 1
  candidates := [januaryRow, februaryRow]
  charges := splitFeeLoan.charges ++
    [{ latePenalty with submittedOn := ⟨739226, by decide, by decide⟩ }]
  waivedPeriods := []
  waivers := []

/-- What an accrual up to 2024-02-15 makes of it. -/
def announcedPenaltyResult (policy : ChargePolicy) : AccrualResult :=
  ((announcedPenaltyInput.accrue (.tillDate midFebruary) (.withPolicy policy) midFebruary
    0).toOption).getD ⟨1, [], [], [], none⟩

/-- By then the penalty may be recognized by its submission, but not by its due date. -/
theorem accrue_recognizedBy_announcedPenalty :
    (announcedPenaltyInput.charges.map (·.id)).Nodup ∧
    (announcedPenaltyInput.accrue (.tillDate midFebruary) (.withPolicy .dueDate) midFebruary 0 =
        .ok (announcedPenaltyResult .dueDate) ∧
      List.SublistForall₂
        (Posting.RecognizedBy .dueDate midFebruary announcedPenaltyInput.charges)
        (announcedPenaltyResult .dueDate).postings announcedPenaltyInput.candidates ∧
      List.Forall₂ (Charge.AllocatedBy
          ((announcedPenaltyResult .dueDate).postings.flatMap (·.allocations)))
        announcedPenaltyInput.charges (announcedPenaltyResult .dueDate).charges ∧
      (announcedPenaltyResult .dueDate).postings.map (fun p => p.allocations.map (·.chargeId)) =
        [[11, 13], []]) ∧
    announcedPenaltyInput.accrue (.tillDate midFebruary) (.withPolicy .submittedDate) midFebruary 0 =
        .ok (announcedPenaltyResult .submittedDate) ∧
      List.SublistForall₂
        (Posting.RecognizedBy .submittedDate midFebruary announcedPenaltyInput.charges)
        (announcedPenaltyResult .submittedDate).postings announcedPenaltyInput.candidates ∧
      List.Forall₂ (Charge.AllocatedBy
          ((announcedPenaltyResult .submittedDate).postings.flatMap (·.allocations)))
        announcedPenaltyInput.charges (announcedPenaltyResult .submittedDate).charges ∧
      (announcedPenaltyResult .submittedDate).postings.map
        (fun p => p.allocations.map (·.chargeId)) = [[11, 13], [12]] := by
  have hids : (announcedPenaltyInput.charges.map (·.id)).Nodup := by decide
  have hdue : announcedPenaltyInput.accrue (.tillDate midFebruary) (.withPolicy .dueDate)
      midFebruary 0 = .ok (announcedPenaltyResult .dueDate) := by decide +kernel
  have hsubmitted : announcedPenaltyInput.accrue (.tillDate midFebruary)
      (.withPolicy .submittedDate) midFebruary 0 =
        .ok (announcedPenaltyResult .submittedDate) := by decide +kernel
  obtain ⟨hduePostings, hdueCharges⟩ := AccrualInput.accrue_recognizedBy hdue hids
  obtain ⟨hpostings, hcharges⟩ := AccrualInput.accrue_recognizedBy hsubmitted hids
  exact ⟨hids, ⟨hdue, hduePostings, hdueCharges, by decide +kernel⟩, hsubmitted, hpostings, hcharges,
    by decide +kernel⟩

end LoanLedger
