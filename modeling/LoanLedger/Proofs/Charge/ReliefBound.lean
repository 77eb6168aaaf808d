import LoanLedger.Proofs.Charge.Waiver

/-!
Relief from a charge, and what the charge amounts to. What is waived is bounded by what is owed, so
adjustments count; what is adjusted is bounded by what was not adjusted yet, so waivers do not
count. Each kind of relief stays within the amount of the charge. Both together do as long as no
adjustment is of more than what is owed.
-/

set_option autoImplicit false
set_option relaxedAutoImplicit false

namespace LoanLedger

/-- A call for relief from a charge. -/
inductive ReliefCall
  | waive (status : LoanStatus) (installment : Option InstallmentNumber)
  | undoWaive (status : LoanStatus) (installment : Option InstallmentNumber)
  | adjust (status : LoanStatus) (amount : Money)

namespace ReliefCall

/-- What a call makes of a charge. -/
def run : ReliefCall → Charge → Except Failure Charge
  | waive status n, c => (·.charge) <$> c.waive status n
  | undoWaive status n, c => (·.charge) <$> c.undoWaive status n
  | adjust status amount, c => c.adjust status amount

/-- A charge after a call. One that fails leaves it alone. -/
def apply (call : ReliefCall) (c : Charge) : Charge := (call.run c).toOption.getD c

/-- A charge after calls, one after the other. -/
def applyAll (calls : List ReliefCall) (c : Charge) : Charge :=
  calls.foldl (fun c call => call.apply c) c

/-- The amount that a call names, if any, is exact. -/
def Fine : ReliefCall → Prop
  | adjust _ amount => amount.Fine
  | _ => True

/-- A call that, if it adjusts a charge, does so by no more than what is owed on it. -/
def Within (c : Charge) : ReliefCall → Prop
  | adjust status amount => (∃ d, c.adjust status amount = .ok d) → amount.value ≤ c.dues.owed
  | _ => True

theorem applyAll_concat (calls : List ReliefCall) (call : ReliefCall) (c : Charge) :
    applyAll (calls ++ [call]) c = call.apply (applyAll calls c) := List.foldl_concat ..

end ReliefCall

namespace Charge

variable {c d : Charge} {call : ReliefCall}

/-- A charge with a due date of which nothing was paid, waived, adjusted or accrued, in exact
amounts. -/
structure Untouched (c : Charge) : Prop where
  dated : c.isInstallmentFee = false ∧ c.dueDate.isSome = true
  fine : ∀ a ∈ c.dues.figures, a.Fine
  amount : 0 ≤ c.amount.value ∧ c.amount.value < 10 ^ 18
  nothing : ∀ a ∈ [c.paid, c.waived, c.adjusted, c.accrued, c.unrecognized], a.value = 0

/-- A charge with a due date after relief only: it amounts to what it did, nothing was paid, and
neither kind of relief exceeds its amount. -/
structure OnlyRelieved (c d : Charge) : Prop where
  kept : d.Kept
  dated : d.isInstallmentFee = false ∧ d.dueDate.isSome = true
  amount : d.amount = c.amount
  paid : d.paid.value = 0
  waived : d.waived.value ≤ d.amount.value

/-- All relief from a charge together is within what it amounts to. -/
def WithinAmount (c : Charge) : Prop := c.waived.value + c.adjusted.value ≤ c.amount.value

theorem Untouched.onlyRelieved (h : c.Untouched) : c.OnlyRelieved c := by
  obtain ⟨hfee, hdue⟩ := h.dated
  have hnothing := h.nothing
  simp only [List.forall_mem_cons] at hnothing
  obtain ⟨hpaid, hwaived, hadjusted, haccrued, hunrecognized, -⟩ := hnothing
  obtain ⟨hamountFine, hfine⟩ := List.forall_mem_cons.mp h.fine
  have hdues : c.dues.Proper 10 := by
    refine ⟨List.forall_mem_cons.mpr
      ⟨hamountFine.plain h.amount.1 h.amount.2, fun a ha => ?_⟩, ?_, ?_⟩
    · have hzero : a.value = 0 := h.nothing a ha
      exact (hfine a ha).plain hzero.ge (by rw [hzero]; norm_num)
    · exact (hunrecognized.trans hwaived.symm).le
    · have hle : c.accrued.value ≤ c.amount.value - c.unrecognized.value := by
        rw [haccrued, hunrecognized, sub_zero]
        exact h.amount.1
      exact hle
  obtain ⟨due, hdate⟩ := Option.isSome_iff_exists.mp hdue
  have hproper : c.Proper 10 := by
    refine ⟨by rw [hfee, hdate]; rfl, fun x hx => ?_, fun hnone => nomatch hdate.symm.trans hnone⟩
    simp only [parts] at hx
    rw [hdate] at hx
    exact List.mem_singleton.mp hx ▸ hdues
  exact ⟨.of_due hproper hdue (hadjusted.le.trans h.amount.1), h.dated, rfl, hpaid,
    hwaived.le.trans h.amount.1⟩

namespace OnlyRelieved

variable {e : Charge} {status : LoanStatus} {n : Option InstallmentNumber} {amount : Money}

theorem proper (h : c.OnlyRelieved d) : d.dues.Proper 10 := h.kept.proper.own h.dated.2

theorem owed_eq (h : c.OnlyRelieved d) :
    d.dues.owed = max (d.amount.value - (d.waived.value + d.adjusted.value)) 0 := by
  have hpaid : d.dues.paid.value = 0 := h.paid
  rw [Dues.owed, hpaid, zero_add]
  rfl

/-- A waiver waives what is owed. -/
theorem waive {r : Relief} (h : c.OnlyRelieved d) (hr : d.waive status n = .ok r) :
    c.OnlyRelieved r.charge ∧ r.charge.adjusted = d.adjusted ∧
      r.charge.waived.value = d.waived.value + d.dues.owed := by
  have hkept := h.kept.waive hr
  have hd := h.proper
  obtain ⟨updated, owed, recognized, part, waived, total, hcase, -, hwaived, -, hcharge⟩ :=
    waive_eq_ok hr
  rcases hcase with ⟨hfee, -⟩ | ⟨-, rfl, howed, -⟩
  · exact absurd (hfee.symm.trans h.dated.1) Bool.true_eq_false.mp
  obtain ⟨o, ho, hfine, hvalue⟩ := exists_outstanding hd.roomy
  obtain rfl := Except.ok.inj (ho.symm.trans howed)
  have hbound := hd.waived_add_owed_le
  have hle : updated.dues.waived.value + updated.dues.owed ≤ updated.amount.value :=
    hbound.trans (max_le le_rfl h.waived)
  have howedPlain : o.Plain 10 := hfine.plain (hvalue ▸ updated.dues.owed_nonneg)
    (by rw [hvalue]; linarith [hd.waived.nonneg, h.kept.own.1.small])
  obtain ⟨-, hwaivedValue⟩ := hd.waived.add_value howedPlain hwaived
  have hsum : waived.value = updated.waived.value + updated.dues.owed := hvalue ▸ hwaivedValue
  rw [hcharge] at hkept ⊢
  exact ⟨⟨hkept, h.dated, h.amount, h.paid, hsum.trans_le hle⟩, rfl, hsum⟩

theorem undoWaive {r : Relief} (h : c.OnlyRelieved d) (hr : d.undoWaive status n = .ok r) :
    c.OnlyRelieved r.charge ∧ r.charge.adjusted = d.adjusted ∧ r.charge.waived.value = 0 := by
  have hkept := h.kept.undoWaive hr
  obtain ⟨updated, owed, part, waived, rest, hcase, hwaived, -, hcharge⟩ := undoWaive_eq_ok hr
  rcases hcase with ⟨hfee, -⟩ | ⟨-, rfl, rfl, -⟩
  · exact absurd (hfee.symm.trans h.dated.1) Bool.true_eq_false.mp
  have hplain : updated.waived.Plain 10 := h.proper.waived
  obtain ⟨-, hzero⟩ := hplain.monus hplain.fine hplain.whole hplain.nonneg
    (by linarith [hplain.small]) hwaived
  rw [sub_self, max_self] at hzero
  rw [hcharge] at hkept ⊢
  exact ⟨⟨hkept, h.dated, h.amount, h.paid, hzero.trans_le h.kept.own.1.nonneg⟩, rfl, hzero⟩

/-- An adjustment adds its amount to what was adjusted. -/
theorem adjust (h : c.OnlyRelieved d) (hfine : amount.Fine)
    (hr : d.adjust status amount = .ok e) : c.OnlyRelieved e ∧ e.waived = d.waived ∧
      e.adjusted.value = d.adjusted.value + amount.value := by
  have hkept := h.kept.adjust hfine hr
  obtain ⟨available, adjusted, hpos, havailable, hwithin, hadjusted, rfl⟩ := adjust_eq_ok hr
  have hamount := h.kept.own.1
  have hadjustedPlain : d.adjusted.Plain 10 := h.proper.adjusted
  have hleft := sub_nonneg.mpr h.kept.adjusted.2
  obtain ⟨-, havailableValue⟩ := hamount.monus hadjustedPlain.fine hadjustedPlain.whole
    hadjustedPlain.nonneg (by linarith [hadjustedPlain.small]) havailable
  rw [havailableValue, max_eq_left hleft] at hwithin
  have hplain : amount.Plain 10 :=
    hfine.plain hpos.le (by linarith [hamount.small, hadjustedPlain.nonneg])
  exact ⟨⟨hkept, h.dated, h.amount, h.paid, h.waived⟩, rfl,
    (hadjustedPlain.add_value hplain hadjusted).2⟩

/-- Any call keeps a charge of which only relief has happened. -/
theorem apply (h : c.OnlyRelieved d) (hcall : call.Fine) : c.OnlyRelieved (call.apply d) := by
  simp only [ReliefCall.apply]
  cases hrun : call.run d with
  | error f => exact h
  | ok e =>
    cases call with
    | waive status n =>
      obtain ⟨r, hr, rfl⟩ := map_eq_ok.mp hrun
      exact (h.waive hr).1
    | undoWaive status n =>
      obtain ⟨r, hr, rfl⟩ := map_eq_ok.mp hrun
      exact (h.undoWaive hr).1
    | adjust status amount => exact (h.adjust hcall hrun).1

/-- From a charge whose relief is within its amount a call leads to another exactly when it does not
adjust the charge by more than what is owed. -/
theorem withinAmount_apply_iff (h : c.OnlyRelieved d) (hcall : call.Fine) (hd : d.WithinAmount) :
    (call.apply d).WithinAmount ↔ call.Within d := by
  have howed := h.owed_eq
  rw [max_eq_left (sub_nonneg.mpr hd)] at howed
  have hadjusted := h.kept.adjusted.2
  simp only [ReliefCall.apply]
  cases hrun : call.run d with
  | error f =>
    cases call with
    | waive | undoWaive => exact iff_of_true hd trivial
    | adjust status amount => exact iff_of_true hd fun ⟨e, he⟩ => nomatch hrun.symm.trans he
  | ok e =>
    show e.WithinAmount ↔ _
    rw [WithinAmount]
    cases call with
    | waive status n =>
      obtain ⟨r, hr, rfl⟩ := map_eq_ok.mp hrun
      obtain ⟨hafter, hsame, hwaived⟩ := h.waive hr
      rw [hafter.amount, ← h.amount, hsame, hwaived, howed]
      exact iff_of_true (by linarith) trivial
    | undoWaive status n =>
      obtain ⟨r, hr, rfl⟩ := map_eq_ok.mp hrun
      obtain ⟨hafter, hsame, hwaived⟩ := h.undoWaive hr
      rw [hafter.amount, ← h.amount, hsame, hwaived, zero_add]
      exact iff_of_true hadjusted trivial
    | adjust status amount =>
      obtain ⟨hafter, hsame, hvalue⟩ := h.adjust hcall hrun
      have hwithin : (ReliefCall.adjust status amount).Within d ↔ amount.value ≤ d.dues.owed :=
        ⟨fun hw => hw ⟨e, hrun⟩, fun hle _ => hle⟩
      rw [hafter.amount, ← h.amount, hsame, hvalue, hwithin, howed]
      constructor <;> intro hle <;> linarith

end OnlyRelieved
end Charge

namespace ReliefCall

variable {c : Charge} {calls : List ReliefCall}

theorem onlyRelieved_applyAll (calls : List ReliefCall) (hcalls : ∀ call ∈ calls, call.Fine)
    (h : c.Untouched) : c.OnlyRelieved (applyAll calls c) := by
  induction calls using List.reverseRecOn with
  | nil => exact h.onlyRelieved
  | append_singleton calls call ih =>
    obtain ⟨hcalls, hcall⟩ := List.forall_mem_append.mp hcalls
    rw [applyAll_concat]
    exact (ih hcalls).apply (List.forall_mem_singleton.mp hcall)

/-- Whatever calls are made for relief from a charge with a due date of which nothing had been paid,
relieved or accrued, no more is waived, and no more is adjusted, than the charge amounts to. Both
together stay within that amount all along exactly when every adjustment that is accepted is of no
more than what is owed at the time. -/
theorem withinAmount_iff (calls : List ReliefCall) (hcalls : ∀ call ∈ calls, call.Fine)
    (h : c.Untouched) :
    (∀ before, before <+: calls → (applyAll before c).amount = c.amount ∧
      (applyAll before c).waived.value ≤ c.amount.value ∧
      (applyAll before c).adjusted.value ≤ c.amount.value) ∧
    ((∀ before, before <+: calls → (applyAll before c).WithinAmount) ↔
      ∀ before call, before ++ [call] <+: calls → call.Within (applyAll before c)) := by
  have hstate : ∀ before, before <+: calls → c.OnlyRelieved (applyAll before c) :=
    fun before hbefore => onlyRelieved_applyAll before
      (fun call hcall => hcalls call (hbefore.subset hcall)) h
  have hfine : ∀ before call, before ++ [call] <+: calls → call.Fine := fun _ _ hbefore =>
    hcalls _ (hbefore.subset (List.mem_append_right _ List.mem_cons_self))
  refine ⟨fun before hbefore => ?_, fun hwithin before call hbefore => ?_, fun hcall before => ?_⟩
  · have hs := hstate before hbefore
    exact ⟨hs.amount, hs.amount ▸ hs.waived, hs.amount ▸ hs.kept.adjusted.2⟩
  · have hprefix := (List.prefix_append before [call]).trans hbefore
    have hafter := hwithin _ hbefore
    rw [applyAll_concat] at hafter
    exact ((hstate before hprefix).withinAmount_apply_iff (hfine before call hbefore)
      (hwithin before hprefix)).mp hafter
  · -- From the end of the calls: the last one meets the charge that those before it leave.
    induction before using List.reverseRecOn with
    | nil =>
      intro _
      have hnothing := h.nothing
      simp only [List.forall_mem_cons] at hnothing
      obtain ⟨-, hwaived, hadjusted, -⟩ := hnothing
      show c.waived.value + c.adjusted.value ≤ c.amount.value
      rw [hwaived, hadjusted, add_zero]
      exact h.amount.1
    | append_singleton before call ih =>
      intro hbefore
      have hprefix := (List.prefix_append before [call]).trans hbefore
      rw [applyAll_concat]
      exact ((hstate before hprefix).withinAmount_apply_iff (hfine before call hbefore)
        (ih hprefix)).mpr (hcall before call hbefore)

end ReliefCall

/-- A fee of 10.00 that falls due on 2024-02-15. -/
def februaryFee : Charge := tenFee 11 midFebruary

theorem untouched_februaryFee : februaryFee.Untouched where
  dated := ⟨rfl, rfl⟩
  fine := by unfold Money.Fine; decide +kernel
  amount := ⟨by decide +kernel, by decide +kernel⟩
  nothing := by decide +kernel

/-- Adjusted by 4.00 first, the fee is waived for the 6.00 that are still owed. -/
theorem withinAmount_iff_adjustedFirst :
    (ReliefCall.applyAll [.adjust .active (cents 400), .waive .active none]
      februaryFee).waived.value = 6 ∧
    ∀ before, before <+: [ReliefCall.adjust .active (cents 400), .waive .active none] →
      (ReliefCall.applyAll before februaryFee).WithinAmount := by
  have hfine : ∀ call ∈ [ReliefCall.adjust .active (cents 400), .waive .active none], call.Fine :=
    List.forall_mem_cons.mpr ⟨(by decide : (2 : Nat) ≤ 10), List.forall_mem_singleton.mpr trivial⟩
  refine ⟨by decide +kernel,
    (ReliefCall.withinAmount_iff _ hfine untouched_februaryFee).2.mpr ?_⟩
  intro before call hbefore
  rcases before with _ | ⟨first, _ | ⟨second, before⟩⟩
  · obtain ⟨rfl, -⟩ := List.cons_prefix_cons.mp hbefore
    rintro -
    show (cents 400).value ≤ februaryFee.dues.owed
    decide +kernel
  · obtain ⟨-, hbefore⟩ := List.cons_prefix_cons.mp hbefore
    obtain ⟨rfl, -⟩ := List.cons_prefix_cons.mp hbefore
    trivial
  · have hlength := hbefore.length_le
    simp only [List.length_append, List.length_cons, List.length_nil] at hlength
    omega

/-- Waived for all of its 10.00 first, the fee is still adjusted by 4.00. -/
theorem not_withinAmount_waivedFirst : ∃ r d, februaryFee.Untouched ∧
    februaryFee.waive .active none = .ok r ∧ r.charge.adjust .active (cents 400) = .ok d ∧
    ¬d.WithinAmount := by
  refine ⟨_, _, untouched_februaryFee, rfl, rfl, ?_⟩
  unfold Charge.WithinAmount
  decide +kernel

end LoanLedger
