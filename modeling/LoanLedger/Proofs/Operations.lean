import LoanLedger.Proofs.Charge.Soundness
import LoanLedger.Proofs.Explanation

/-!
Operations on the charges of a loan. Waivers, their undoing, adjustments and accruals can follow on
each other in any order; the charges stay sound throughout.
-/

set_option autoImplicit false
set_option relaxedAutoImplicit false

namespace LoanLedger

variable {policy : ChargePolicy} {row : ScheduleRow} {w : Window} {c : Charge} {cs : List Charge}

/-- Something done to the charges of a loan. -/
inductive ChargeOperation
  | waive (id : ChargeId) (status : LoanStatus) (installment : Option InstallmentNumber)
  | undoWaive (id : ChargeId) (status : LoanStatus) (installment : Option InstallmentNumber)
  | adjust (id : ChargeId) (status : LoanStatus) (amount : Money)
  | accrue (policy : ChargePolicy) (row : ScheduleRow) (w : Window)

namespace Charge

/-- Charges after a change to the one with a number. A change that fails leaves them alone. -/
def changed (id : ChargeId) (change : Charge → Except Failure Charge) (cs : List Charge) :
    List Charge :=
  cs.map fun c => if c.id = id then (change c).toOption.getD c else c

theorem AllKept.changed (h : AllKept cs) {id : ChargeId} {change : Charge → Except Failure Charge}
    (hchange : ∀ c d, c.Kept → change c = .ok d → d.Kept ∧ d.id = c.id ∧
      d.parts.map (·.amount) = c.parts.map (·.amount)) : AllKept (changed id change cs) := by
  have hall : ∀ c ∈ cs, (if c.id = id then (change c).toOption.getD c else c).Kept ∧
      (if c.id = id then (change c).toOption.getD c else c).id = c.id ∧
      (if c.id = id then (change c).toOption.getD c else c).parts.map (·.amount) =
        c.parts.map (·.amount) := by
    intro c hc
    split
    · cases hd : change c with
      | error f => exact ⟨h.kept c hc, rfl, rfl⟩
      | ok d => exact hchange c d (h.kept c hc) hd
    · exact ⟨h.kept c hc, rfl, rfl⟩
  refine ⟨?_, List.forall_mem_map.mpr fun c hc => (hall c hc).1, ?_⟩
  · have hids : (Charge.changed id change cs).map (·.id) = cs.map (·.id) := by
      rw [Charge.changed, List.map_map]
      exact List.map_congr_left fun c hc => (hall c hc).2.1
    exact hids ▸ h.ids
  · have hsize : Charge.size (Charge.changed id change cs) = Charge.size cs := by
      refine size_congr ?_
      rw [Charge.changed, List.forall₂_map_right_iff, List.forall₂_same]
      exact fun c hc => (hall c hc).2.2
    exact hsize ▸ h.size

/-- Whether an accrual would find that more has accrued on what a charge brings than can accrue. -/
def Overaccrued (policy : ChargePolicy) (row : ScheduleRow) (w : Window) (c : Charge) : Prop :=
  ∃ x accruable delta, c.brought policy row w = some x ∧
    x.amount.sub x.unrecognized = .ok accruable ∧ accruable.sub x.accrued = .ok delta ∧
    delta.isNegative = true

theorem Kept.not_overaccrued (h : c.Kept) : ¬c.Overaccrued policy row w := by
  rintro ⟨x, accruable, delta, hx, haccruable, hdelta, hnegative⟩
  have hproper := h.proper.parts x (mem_parts_of_brought hx)
  obtain ⟨hplain, hvalue⟩ := hproper.amount.sub hproper.unrecognized haccruable
    (sub_nonneg.mp hproper.accruable_nonneg)
  obtain ⟨hdeltaPlain, -⟩ := hplain.sub hproper.accrued hdelta (hvalue ▸ hproper.accrued_le)
  rw [Money.isNegative_iff] at hnegative
  exact absurd (Money.value_nonneg_iff.mp hdeltaPlain.nonneg) (not_le.mpr hnegative)

end Charge

namespace ChargeOperation

/-- Charges after an operation. One that is refused leaves them alone. -/
def apply : ChargeOperation → List Charge → List Charge
  | waive id status n, cs => Charge.changed id (fun c => (·.charge) <$> c.waive status n) cs
  | undoWaive id status n, cs => Charge.changed id (fun c => (·.charge) <$> c.undoWaive status n) cs
  | adjust id status amount, cs => Charge.changed id (·.adjust status amount) cs
  | accrue policy row w, cs =>
    (do (← Apportionment.ofCharges policy row w cs).applyTo cs : Except Fault _).toOption.getD cs

/-- The amount that an operation names, if any, is exact. -/
def Fine : ChargeOperation → Prop
  | adjust _ _ amount => amount.Fine
  | _ => True

/-- An operation keeps the charges of a loan. -/
theorem allKept (op : ChargeOperation) (hop : op.Fine) (h : Charge.AllKept cs) :
    Charge.AllKept (op.apply cs) := by
  cases op with
  | waive id status n =>
    refine h.changed fun c d hc hd => ?_
    obtain ⟨r, hr, rfl⟩ := map_eq_ok.mp hd
    obtain ⟨hrelieved, -⟩ := Charge.waive_relieves hc.proper hr
    exact ⟨hc.waive hr, congrArg (·.id) hrelieved.terms, hrelieved.map_amount⟩
  | undoWaive id status n =>
    refine h.changed fun c d hc hd => ?_
    obtain ⟨r, hr, rfl⟩ := map_eq_ok.mp hd
    obtain ⟨hrelieved, -⟩ := Charge.undoWaive_relieves hc.proper hr
    exact ⟨hc.undoWaive hr, congrArg (·.id) hrelieved.terms, hrelieved.map_amount⟩
  | adjust id status amount =>
    refine h.changed fun c d hc hd => ?_
    have hd' := hc.adjust hop hd
    obtain ⟨available, adjusted, -, -, -, -, rfl⟩ := Charge.adjust_eq_ok hd
    exact ⟨hd', rfl, Charge.map_amount_parts rfl rfl (List.forall₂_same.mpr fun _ _ => rfl)⟩
  | accrue policy row w =>
    obtain ⟨a, ds, ha, hds⟩ := h.exists_accrue policy row w
    simp only [apply]
    rw [ha, bind_ok, hds]
    exact h.accrue ha hds

/-- Charges after operations, one after the other. -/
def applyAll (ops : List ChargeOperation) (cs : List Charge) : List Charge :=
  ops.foldl (fun cs op => op.apply cs) cs

theorem allKept_applyAll (ops : List ChargeOperation) (hops : ∀ op ∈ ops, op.Fine)
    (h : Charge.AllKept cs) : Charge.AllKept (applyAll ops cs) := by
  induction ops generalizing cs with
  | nil => exact h
  | cons op ops ih =>
    obtain ⟨hop, hops⟩ := List.forall_mem_cons.mp hops
    exact ih hops (op.allKept hop h)

/-- Charges stay sound. Whatever waivers, undone waivers, adjustments and accruals follow on sound
charges in the exact range, the charges are sound, on none has more accrued than can accrue, and
apportioning them over any window and accruing what was allocated succeeds without finding more
accrued than can accrue. -/
theorem sound_applyAll (ops : List ChargeOperation) (hops : ∀ op ∈ ops, op.Fine)
    (hids : (cs.map (·.id)).Nodup) (hsound : ∀ c ∈ cs, c.Sound)
    (hfine : ∀ a ∈ cs.flatMap Charge.figures, a.Fine)
    (hsize : totalSize (cs.flatMap Charge.figures) < 10 ^ 18) :
    (∀ d ∈ applyAll ops cs, d.Sound ∧ d.accruedWithinBounds = .ok true) ∧
      ∀ policy row w, (∃ a ds, Apportionment.ofCharges policy row w (applyAll ops cs) = .ok a ∧
          a.applyTo (applyAll ops cs) = .ok ds) ∧
        ∀ d ∈ applyAll ops cs, ¬d.Overaccrued policy row w := by
  have hkept := allKept_applyAll ops hops (.of_sound hids hsound hfine hsize)
  refine ⟨fun d hd => ⟨(hkept.kept d hd).sound, (hkept.kept d hd).accruedWithinBounds⟩, ?_⟩
  intro policy row w
  exact ⟨hkept.exists_accrue policy row w, fun d hd => (hkept.kept d hd).not_overaccrued⟩

end ChargeOperation

/-- A fee of 80.00 that falls due on 2024-02-20, of which 60.00 has accrued and 30.00 was paid. -/
def halfPaidFee : Charge :=
  { latePenalty with
    id := 11
    amount := cents 8000
    paid := cents 3000
    accruedSoFar := some (cents 6000)
    isPenalty := false }

/-- Both charges are accrued and waived, in part or in whole; one waiver is undone, and the fee for
both installments is adjusted. -/
def mixedOperations : List ChargeOperation :=
  [.accrue .dueDate januaryRow januaryRow.period, .waive 11 .active none,
    .waive 13 .active (some 2), .adjust 13 .active (cents 200), .undoWaive 11 .active none,
    .waive 13 .active none, .accrue .submittedDate februaryRow februaryRow.period]

private theorem value_cents {n : Nat} {h : n < Money.limit} : (cents n h).value = n / 100 := by
  simp only [Money.value, Money.units, cents]
  norm_num

private theorem sound_halfPaidFee : halfPaidFee.Sound where
  dated := rfl
  adjusted := by
    simp only [halfPaidFee, latePenalty, Charge.dueOn, value_cents, Money.value_zero]
    norm_num
  parts := by
    refine List.forall_mem_singleton.mpr ⟨?_, ?_, ?_, ?_, ?_⟩ <;>
      simp only [halfPaidFee, latePenalty, Charge.dueOn, Charge.dues, Charge.accrued,
        Charge.unrecognized, Money.orZero_some, Money.orZero_none, value_cents, Money.value_zero] <;>
      norm_num
  spread hdue := nomatch hdue

private theorem sound_splitFee : splitFee.Sound where
  dated := rfl
  adjusted := by
    simp only [splitFee, value_cents, Money.value_zero]
    norm_num
  parts := by
    refine List.forall_mem_cons.mpr ⟨?_, List.forall_mem_singleton.mpr ?_⟩ <;>
      constructor <;>
      simp only [ChargeShare.dues, ChargeShare.fresh, ChargeShare.accrued, ChargeShare.unrecognized,
        Money.orZero_none, value_cents, Money.value_zero] <;>
      norm_num
  spread _ := by
    refine ⟨by decide, ?_, ?_, ?_, ?_⟩ <;>
      simp only [splitFee, Charge.overShares, Charge.accrued, Charge.unrecognized, List.map_cons,
        List.map_nil, List.sum_cons, List.sum_nil, ChargeShare.fresh, ChargeShare.accrued,
        ChargeShare.unrecognized, Money.orZero_none, value_cents, Money.value_zero] <;>
      norm_num

theorem sound_applyAll_mixed :
    ((∀ d ∈ ChargeOperation.applyAll mixedOperations [halfPaidFee, splitFee],
        d.Sound ∧ d.accruedWithinBounds = .ok true) ∧
      ∀ policy row w, (∃ a ds, Apportionment.ofCharges policy row w
            (ChargeOperation.applyAll mixedOperations [halfPaidFee, splitFee]) = .ok a ∧
          a.applyTo (ChargeOperation.applyAll mixedOperations [halfPaidFee, splitFee]) = .ok ds) ∧
        ∀ d ∈ ChargeOperation.applyAll mixedOperations [halfPaidFee, splitFee],
          ¬d.Overaccrued policy row w) ∧
    ((ChargeOperation.applyAll mixedOperations [halfPaidFee, splitFee]).map
        fun c => [c.waived, c.adjusted, c.accrued, c.unrecognized]) =
      [[cents 0, .zero, cents 8000, .zero], [cents 600, cents 200, cents 300, cents 300]] := by
  have hfine : ∀ op ∈ mixedOperations, op.Fine := by
    simp only [mixedOperations, List.forall_mem_cons, ChargeOperation.Fine]
    exact ⟨trivial, trivial, trivial, (by decide : (2 : Nat) ≤ 10), trivial, trivial, trivial,
      List.forall_mem_nil _⟩
  have hsound : ∀ c ∈ [halfPaidFee, splitFee], c.Sound :=
    List.forall_mem_cons.mpr ⟨sound_halfPaidFee, List.forall_mem_singleton.mpr sound_splitFee⟩
  exact ⟨ChargeOperation.sound_applyAll mixedOperations hfine (by decide) hsound
    (by unfold Money.Fine; decide +kernel) (by decide +kernel), by decide +kernel⟩

end LoanLedger
