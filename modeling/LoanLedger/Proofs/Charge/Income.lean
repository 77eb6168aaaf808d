import LoanLedger.Proofs.Charge.Apportionment
import LoanLedger.Proofs.Range

/-!
The income that charges bring to a window. It depends on the terms of the charges and not on what
has accrued on them, it is exact for a loan in range, and a window that ends earlier brings no more.
-/

set_option autoImplicit false
set_option relaxedAutoImplicit false

namespace LoanLedger

variable {policy : ChargePolicy} {row : ScheduleRow} {w : Window} {cs ds : List Charge}

/-- Shares that differ at most in what has accrued. -/
def ChargeShare.SameTerms (s t : ChargeShare) : Prop := t = { s with accruedSoFar := t.accruedSoFar }

/-- Charges that differ at most in what has accrued. -/
structure Charge.SameTerms (c d : Charge) : Prop where
  terms : d = { c with accruedSoFar := d.accruedSoFar, shares := d.shares }
  shares : List.Forall₂ ChargeShare.SameTerms c.shares d.shares

theorem ChargeShare.SameTerms.trans {s t u : ChargeShare} (h : s.SameTerms t) (h' : t.SameTerms u) :
    s.SameTerms u := by
  unfold SameTerms at *
  rw [h', h]

namespace Charge

theorem SameTerms.refl (c : Charge) : c.SameTerms c := ⟨rfl, List.forall₂_same.mpr fun _ _ => rfl⟩

theorem SameTerms.trans {c d e : Charge} (h : c.SameTerms d) (h' : d.SameTerms e) :
    c.SameTerms e :=
  ⟨by rw [h'.terms, h.terms], forall₂_comp h.shares h'.shares fun _ _ _ => ChargeShare.SameTerms.trans⟩

theorem forall₂_sameTerms_refl (cs : List Charge) : List.Forall₂ SameTerms cs cs :=
  List.forall₂_same.mpr fun c _ => .refl c

theorem forall₂_sameTerms_trans {cs ds es : List Charge} (h : List.Forall₂ SameTerms cs ds)
    (h' : List.Forall₂ SameTerms ds es) : List.Forall₂ SameTerms cs es :=
  forall₂_comp h h' fun _ _ _ => SameTerms.trans

end Charge

theorem Apportionment.advance_sameTerms {a : Apportionment} {c d : Charge} (h : a.advance c = .ok d) :
    c.SameTerms d := by
  simp only [advance] at h
  split at h
  · rw [← Except.ok.inj h]
    exact .refl c
  · obtain ⟨accrued, -, hrest⟩ := bind_eq_ok.mp h
    obtain ⟨shares, hshares, hd⟩ := bind_eq_ok.mp hrest
    rw [← pure_eq_ok.mp hd]
    refine ⟨rfl, (mapM_eq_ok_iff.mp hshares).imp fun s t hst => ?_⟩
    simp only [advanceShare] at hst
    split at hst
    · obtain ⟨m, -, ht⟩ := bind_eq_ok.mp hst
      rw [← pure_eq_ok.mp ht]
      rfl
    · rw [← Except.ok.inj hst]
      rfl

theorem Apportionment.applyTo_sameTerms {a : Apportionment} (h : a.applyTo cs = .ok ds) :
    List.Forall₂ Charge.SameTerms cs ds :=
  (mapM_eq_ok_iff.mp h).imp fun _ _ => advance_sameTerms

/-- The income that a charge brings to a window. -/
def Charge.incomeIn (policy : ChargePolicy) (row : ScheduleRow) (w : Window) (c : Charge) :
    Except Fault Money :=
  match c.dueDate with
  | some due => if c.selected policy due row w then c.accruable else .ok .zero
  | none =>
    if !c.isInstallmentFee || w.finish ≠ row.dueDate then .ok .zero
    else
      match c.share? row.installment with
      | none => .ok .zero
      | some s => s.accruable

/-- A charge brings nothing to the rows that are due before it. -/
theorem Charge.incomeIn_of_due {c : Charge} {due : Date} (hdue : c.dueDate = some due)
    (h : row.dueDate < due) :
    c.incomeIn policy row row.period = .ok .zero := by
  have hnot : ¬due ≤ row.dueDate := Date.not_le_iff.mpr h
  have hselected : c.selected policy due row row.period = false := by
    cases policy
    · simp only [selected, dueWithin, ScheduleRow.period, hnot, decide_false, Bool.and_false]
    · simp only [selected, submittedWithin, hnot, decide_false, Bool.and_false]
  simp only [incomeIn]
  rw [hdue]
  dsimp only
  rw [hselected]
  rfl

theorem Charge.contributionTo_income {c : Charge} {m : Money} {o : Option Allocation}
    (h : c.contributionTo policy row w = .ok (m, o)) : c.incomeIn policy row w = .ok m := by
  have hcontribution : ∀ {n accruable accrued}, c.contribution n accruable accrued = .ok (m, o) →
      accruable = m := by
    intro n accruable accrued hc
    obtain ⟨delta, -, hm⟩ := bind_eq_ok.mp hc
    exact congrArg Prod.fst (pure_eq_ok.mp hm)
  -- Both functions make the same selection; they differ in what they return of it.
  simp only [contributionTo] at h
  simp only [incomeIn]
  cases hdue : c.dueDate with
  | some due =>
    rw [hdue] at h
    dsimp only at h ⊢
    split at h
    · next hselected =>
      obtain ⟨x, hx, hc⟩ := bind_eq_ok.mp h
      rw [if_pos hselected, hx, hcontribution hc]
    · next hselected =>
      cases h
      rw [if_neg hselected]
  | none =>
    rw [hdue] at h
    dsimp only at h ⊢
    split at h
    · next hno =>
      cases h
      rw [if_pos hno]
    · next hno =>
      rw [if_neg hno]
      cases hs : c.share? row.installment with
      | none =>
        rw [hs] at h
        cases h
        rfl
      | some s =>
        rw [hs] at h
        obtain ⟨x, hx, hc⟩ := bind_eq_ok.mp h
        dsimp only
        rw [hx, hcontribution hc]

/-- Add the income of one charge to a total, if the charge is of the kind asked for. -/
def Charge.addIncome (penalty : Bool) (policy : ChargePolicy) (row : ScheduleRow) (w : Window)
    (total : Money) (c : Charge) : Except Fault Money :=
  if c.isPenalty = penalty then do total.add (← c.incomeIn policy row w) else .ok total

/-- The income from fees, or from penalties, in a window. -/
def income (penalty : Bool) (policy : ChargePolicy) (row : ScheduleRow) (w : Window)
    (cs : List Charge) : Except Fault Money :=
  cs.foldlM (Charge.addIncome penalty policy row w) .zero

private theorem foldlM_include_income {t u : Apportionment.Tally}
    (h : cs.foldlM (Apportionment.Tally.include policy row w) t = .ok u) :
    cs.foldlM (Charge.addIncome false policy row w) t.fee = .ok u.fee ∧
      cs.foldlM (Charge.addIncome true policy row w) t.penalty = .ok u.penalty := by
  induction cs generalizing t with
  | nil =>
    rw [List.foldlM_nil, pure_eq_ok] at h
    rw [h]
    exact ⟨rfl, rfl⟩
  | cons c cs ih =>
    rw [List.foldlM_cons, bind_eq_ok] at h
    obtain ⟨v, hv, hrest⟩ := h
    obtain ⟨hfee, hpenalty⟩ := ih hrest
    obtain ⟨⟨m, o⟩, hm, hadd⟩ := bind_eq_ok.mp hv
    have hm := Charge.contributionTo_income hm
    have hstep : Charge.addIncome false policy row w t.fee c = .ok v.fee ∧
        Charge.addIncome true policy row w t.penalty c = .ok v.penalty := by
      simp only [Charge.addIncome]
      dsimp only at hadd
      cases hpenalty : c.isPenalty with
      | true =>
        rw [hpenalty, if_pos rfl] at hadd
        obtain ⟨x, hx, hv⟩ := bind_eq_ok.mp hadd
        rw [← pure_eq_ok.mp hv, if_neg (by decide), if_pos rfl, hm]
        exact ⟨rfl, hx⟩
      | false =>
        rw [hpenalty, if_neg Bool.false_ne_true] at hadd
        obtain ⟨x, hx, hv⟩ := bind_eq_ok.mp hadd
        rw [← pure_eq_ok.mp hv, if_pos rfl, if_neg (by decide), hm]
        exact ⟨hx, rfl⟩
    rw [List.foldlM_cons, List.foldlM_cons, hstep.1, hstep.2]
    exact ⟨hfee, hpenalty⟩

theorem Apportionment.ofCharges_income {a : Apportionment} (h : ofCharges policy row w cs = .ok a) :
    ∃ fee penalty, income false policy row w cs = .ok fee ∧
      income true policy row w cs = .ok penalty ∧
      a.feeIncome = fee.nonZero ∧ a.penaltyIncome = penalty.nonZero := by
  obtain ⟨t, ht, ha⟩ := bind_eq_ok.mp h
  obtain ⟨hfee, hpenalty⟩ := foldlM_include_income ht
  rw [← pure_eq_ok.mp ha]
  exact ⟨t.fee, t.penalty, hfee, hpenalty, rfl, rfl⟩

private theorem share?_sameTerms {ss ts : List ChargeShare} (n : InstallmentNumber)
    (h : List.Forall₂ ChargeShare.SameTerms ss ts) :
    (ts.find? fun s => s.installment == n).map ChargeShare.accruable =
      (ss.find? fun s => s.installment == n).map ChargeShare.accruable := by
  induction h with
  | nil => rfl
  | @cons s t ss ts hst _ ih =>
    have hn : t.installment = s.installment := congrArg (·.installment) hst
    have haccruable : t.accruable = s.accruable := by
      simp only [ChargeShare.accruable, ChargeShare.unrecognized]
      rw [hst]
    rw [List.find?_cons, List.find?_cons, hn]
    cases s.installment == n with
    | true => exact congrArg some haccruable
    | false => exact ih

/-- Income does not depend on what has accrued. -/
theorem Charge.incomeIn_congr {c d : Charge} (h : c.SameTerms d) :
    d.incomeIn policy row w = c.incomeIn policy row w := by
  have hdue : d.dueDate = c.dueDate := congrArg (·.dueDate) h.terms
  have hfee : d.isInstallmentFee = c.isInstallmentFee := congrArg (·.isInstallmentFee) h.terms
  have haccruable : d.accruable = c.accruable := by
    simp only [accruable, unrecognized]
    rw [h.terms]
  have hselected : ∀ due, d.selected policy due row w = c.selected policy due row w := by
    intro due
    simp only [selected, submittedWithin]
    rw [h.terms]
  have hshare : (d.share? row.installment).map ChargeShare.accruable =
      (c.share? row.installment).map ChargeShare.accruable := share?_sameTerms _ h.shares
  simp only [incomeIn]
  rw [hdue, hfee, haccruable]
  cases c.dueDate with
  | some due =>
    dsimp only
    rw [hselected due]
  | none =>
    dsimp only
    split
    · rfl
    · cases hd : d.share? row.installment <;> cases hc : c.share? row.installment <;>
        rw [hd, hc] at hshare
      · cases hshare
      · cases hshare
      · exact Option.some.inj hshare

theorem income_congr (penalty : Bool) (h : List.Forall₂ Charge.SameTerms cs ds) :
    income penalty policy row w ds = income penalty policy row w cs := by
  simp only [income]
  generalize Money.zero = total
  induction h generalizing total with
  | nil => rfl
  | @cons c d cs ds hcd _ ih =>
    have hpenalty : d.isPenalty = c.isPenalty := congrArg (·.isPenalty) hcd.terms
    have hstep : Charge.addIncome penalty policy row w total d =
        Charge.addIncome penalty policy row w total c := by
      simp only [Charge.addIncome]
      rw [hpenalty, Charge.incomeIn_congr hcd]
    rw [List.foldlM_cons, List.foldlM_cons, hstep]
    congr 1
    funext m
    exact ih m

namespace Charge

private theorem flatMap_amounts_eq {α : Type} {R : α → α → Prop} {f : α → List Money} {as bs : List α}
    (h : List.Forall₂ R as bs) (hf : ∀ a b, R a b → f b = f a) : bs.flatMap f = as.flatMap f := by
  rw [List.flatMap_def, List.flatMap_def, map_eq_of_forall₂ h.flip fun b a hab => hf a b hab]

/-- The amounts that decide the income of charges are among their terms. -/
theorem flatMap_amounts_of_sameTerms (h : List.Forall₂ SameTerms cs ds) :
    ds.flatMap amounts = cs.flatMap amounts := by
  refine flatMap_amounts_eq h fun c d hcd => ?_
  have hshares : d.shares.flatMap ChargeShare.amounts = c.shares.flatMap ChargeShare.amounts :=
    flatMap_amounts_eq hcd.shares fun s t hst => by rw [hst]; rfl
  have hamount : d.amount = c.amount := congrArg (·.amount) hcd.terms
  have hunrecognized : d.unrecognized = c.unrecognized := congrArg (·.unrecognized) hcd.terms
  simp only [amounts]
  rw [hshares, hamount, hunrecognized]

end Charge

/-! Exactness and order of incomes. -/

theorem accruable_value {amount unrecognized m : Money}
    (hfine : ∀ a ∈ [amount, unrecognized], a.Fine)
    (hsize : totalSize [amount, unrecognized] < 10 ^ 18) (h : amount.sub unrecognized = .ok m) :
    m.Fine ∧ m.value = amount.value - unrecognized.value ∧
      |m.value| ≤ totalSize [amount, unrecognized] := by
  simp only [totalSize_cons, totalSize_nil, add_zero] at hsize ⊢
  have htriangle := abs_sub amount.value unrecognized.value
  have hroom : |amount.value - unrecognized.value| < Money.room := by
    simp only [Money.room]
    linarith
  obtain ⟨hm, hvalue⟩ := Money.sub_value h (hfine _ (by simp)) (hfine _ (by simp)) hroom
  exact ⟨hm, hvalue, by rw [hvalue]; exact htriangle⟩

namespace Charge

variable {c : Charge}

theorem amounts_of_share {s : ChargeShare} (hs : s ∈ c.shares)
    (hfine : ∀ a ∈ c.amounts, a.Fine) (hsize : totalSize c.amounts < 10 ^ 18) :
    (∀ a ∈ s.amounts, a.Fine) ∧ totalSize s.amounts ≤ totalSize c.amounts ∧
      totalSize s.amounts < 10 ^ 18 := by
  have hshare := totalSize_flatMap_le (f := ChargeShare.amounts) hs
  have hown := totalSize_nonneg [c.amount, c.unrecognized]
  have htotal : totalSize c.amounts = totalSize [c.amount, c.unrecognized] +
      totalSize (c.shares.flatMap ChargeShare.amounts) := totalSize_append _ _
  refine ⟨fun a ha => hfine a ?_, by linarith, by linarith⟩
  exact List.mem_append_right _ (List.mem_flatMap.mpr ⟨s, hs, ha⟩)

theorem accruable_of_amounts {m : Money} (hfine : ∀ a ∈ c.amounts, a.Fine)
    (hsize : totalSize c.amounts < 10 ^ 18) (h : c.accruable = .ok m) :
    m.Fine ∧ m.value = c.amount.value - c.unrecognized.value ∧
      |m.value| ≤ totalSize c.amounts := by
  have htotal : totalSize c.amounts = totalSize [c.amount, c.unrecognized] +
      totalSize (c.shares.flatMap ChargeShare.amounts) := totalSize_append _ _
  have hshares := totalSize_nonneg (c.shares.flatMap ChargeShare.amounts)
  obtain ⟨hm, hvalue, hle⟩ := accruable_value
    (fun a ha => hfine a (List.mem_append_left _ ha)) (by linarith) h
  exact ⟨hm, hvalue, by linarith⟩

/-- The income of a charge in range is exact. -/
theorem incomeIn_fine {m : Money} (hfine : ∀ a ∈ c.amounts, a.Fine)
    (hsize : totalSize c.amounts < 10 ^ 18) (h : c.incomeIn policy row w = .ok m) :
    m.Fine ∧ |m.value| ≤ totalSize c.amounts := by
  have hzero : Money.zero.Fine ∧ |Money.zero.value| ≤ totalSize c.amounts := by
    rw [Money.value_zero, abs_zero]
    exact ⟨Money.fine_zero, totalSize_nonneg _⟩
  simp only [incomeIn] at h
  split at h
  · split at h
    · obtain ⟨hm, -, hle⟩ := accruable_of_amounts hfine hsize h
      exact ⟨hm, hle⟩
    · exact Except.ok.inj h ▸ hzero
  · split at h
    · exact Except.ok.inj h ▸ hzero
    · split at h
      · exact Except.ok.inj h ▸ hzero
      · next s hs =>
        obtain ⟨hsFine, hsLe, hsSize⟩ :=
          amounts_of_share (List.mem_of_find?_eq_some hs) hfine hsize
        obtain ⟨hm, -, hle⟩ := accruable_value hsFine hsSize h
        exact ⟨hm, hle.trans hsLe⟩

/-- No more was waived on a charge or a share than it amounts to. -/
structure Covered (c : Charge) : Prop where
  amount : c.unrecognized.value ≤ c.amount.value
  shares : ∀ s ∈ c.shares, s.unrecognized.value ≤ s.amount.value

theorem selected_mono {due till till' : Date} (hle : till ≤ till')
    (h : c.selected policy due row ⟨row.fromDate, till⟩ = true) :
    c.selected policy due row ⟨row.fromDate, till'⟩ = true := by
  cases policy with
  | dueDate =>
    simp only [selected, dueWithin, Bool.and_eq_true, decide_eq_true_eq] at h ⊢
    exact ⟨h.1, Date.le_trans h.2 hle⟩
  | submittedDate =>
    simp only [selected, submittedWithin, Bool.and_eq_true, decide_eq_true_eq] at h ⊢
    exact ⟨⟨h.1.1, Date.le_trans h.1.2 hle⟩, h.2⟩

/-- What a charge brings to a window is not negative. -/
theorem incomeIn_nonneg {m : Money} (hfine : ∀ a ∈ c.amounts, a.Fine)
    (hsize : totalSize c.amounts < 10 ^ 18) (hcovered : c.Covered)
    (h : c.incomeIn policy row w = .ok m) : 0 ≤ m.value := by
  have hzero : Money.zero = m → 0 ≤ m.value := fun hm => hm ▸ Money.value_zero.ge
  simp only [incomeIn] at h
  split at h
  · split at h
    · rw [(accruable_of_amounts hfine hsize h).2.1]
      have := hcovered.amount
      linarith
    · exact hzero (Except.ok.inj h)
  · split at h
    · exact hzero (Except.ok.inj h)
    · split at h
      · exact hzero (Except.ok.inj h)
      · next s hs =>
        have hmem := List.mem_of_find?_eq_some hs
        obtain ⟨hsFine, -, hsSize⟩ := amounts_of_share hmem hfine hsize
        rw [(accruable_value hsFine hsSize h).2.1]
        have := hcovered.shares s hmem
        linarith

/-- A charge brings to a part of a period no more than to one that ends later. -/
theorem incomeIn_mono {till till' : Date} {m n : Money} (hfine : ∀ a ∈ c.amounts, a.Fine)
    (hsize : totalSize c.amounts < 10 ^ 18) (hcovered : c.Covered) (htill : till < row.dueDate)
    (hle : till ≤ till') (hm : c.incomeIn policy row ⟨row.fromDate, till⟩ = .ok m)
    (hn : c.incomeIn policy row ⟨row.fromDate, till'⟩ = .ok n) : m.value ≤ n.value := by
  have hnonneg := incomeIn_nonneg hfine hsize hcovered hn
  have hpart : till ≠ row.dueDate := fun heq => Int.ne_of_lt htill (congrArg Date.day heq)
  simp only [incomeIn] at hm hn
  cases hdue : c.dueDate with
  | some due =>
    rw [hdue] at hm hn
    dsimp only at hm hn
    split at hm
    · next hselected =>
      rw [if_pos (selected_mono hle hselected), hm] at hn
      exact le_of_eq (congrArg Money.value (Except.ok.inj hn))
    · rw [← Except.ok.inj hm, Money.value_zero]
      exact hnonneg
  | none =>
    rw [hdue] at hm
    dsimp only at hm
    rw [if_pos (by simp [hpart])] at hm
    rw [← Except.ok.inj hm, Money.value_zero]
    exact hnonneg

/-- What the income of one charge adds to a total. -/
theorem addIncome_value {penalty : Bool} {total u : Money} (hfine : ∀ a ∈ c.amounts, a.Fine)
    (hsize : |total.value| + totalSize c.amounts < 10 ^ 18) (htotal : total.Fine)
    (h : c.addIncome penalty policy row w total = .ok u) :
    u.Fine ∧ |u.value| ≤ |total.value| + totalSize c.amounts ∧
      (c.isPenalty ≠ penalty → u = total) ∧
      (c.isPenalty = penalty → ∃ m, c.incomeIn policy row w = .ok m ∧
        u.value = total.value + m.value) := by
  have habs := abs_nonneg total.value
  have hown := totalSize_nonneg c.amounts
  simp only [addIncome] at h
  split at h
  · next hkind =>
    obtain ⟨m, hm, hadd⟩ := bind_eq_ok.mp h
    obtain ⟨hmFine, hmLe⟩ := incomeIn_fine hfine (by linarith) hm
    have htriangle := abs_add_le total.value m.value
    obtain ⟨hu, hvalue⟩ := Money.add_value hadd htotal hmFine (by unfold Money.room; linarith)
    refine ⟨hu, by rw [hvalue]; linarith, fun hne => absurd hkind hne, fun _ => ⟨m, hm, hvalue⟩⟩
  · next hkind =>
    rw [← Except.ok.inj h]
    exact ⟨htotal, by linarith, fun _ => rfl, fun heq => absurd heq hkind⟩

end Charge

private theorem foldlM_addIncome_fine {penalty : Bool} {total u : Money}
    (hfine : ∀ a ∈ cs.flatMap Charge.amounts, a.Fine)
    (hsize : |total.value| + totalSize (cs.flatMap Charge.amounts) < 10 ^ 18) (htotal : total.Fine)
    (h : cs.foldlM (Charge.addIncome penalty policy row w) total = .ok u) :
    u.Fine ∧ |u.value| ≤ |total.value| + totalSize (cs.flatMap Charge.amounts) := by
  induction cs generalizing total with
  | nil =>
    rw [List.foldlM_nil, pure_eq_ok] at h
    rw [← h, List.flatMap_nil, totalSize_nil, add_zero]
    exact ⟨htotal, le_rfl⟩
  | cons c cs ih =>
    rw [List.flatMap_cons] at hfine hsize ⊢
    rw [totalSize_append] at hsize ⊢
    rw [List.foldlM_cons, bind_eq_ok] at h
    obtain ⟨v, hv, hrest⟩ := h
    have hrestSize := totalSize_nonneg (cs.flatMap Charge.amounts)
    obtain ⟨hvFine, hvLe, -, -⟩ := Charge.addIncome_value
      (fun a ha => hfine a (List.mem_append_left _ ha)) (by linarith) htotal hv
    obtain ⟨hu, hle⟩ := ih (fun a ha => hfine a (List.mem_append_right _ ha)) (by linarith)
      hvFine hrest
    exact ⟨hu, by linarith⟩

theorem income_fine {penalty : Bool} {u : Money}
    (hfine : ∀ a ∈ cs.flatMap Charge.amounts, a.Fine)
    (hsize : totalSize (cs.flatMap Charge.amounts) < 10 ^ 18)
    (h : income penalty policy row w cs = .ok u) : u.Fine ∧ |u.value| < 10 ^ 18 := by
  have hzero : |Money.zero.value| = 0 := by rw [Money.value_zero, abs_zero]
  obtain ⟨hu, hle⟩ := foldlM_addIncome_fine hfine (by rw [hzero, zero_add]; exact hsize)
    Money.fine_zero h
  rw [hzero, zero_add] at hle
  exact ⟨hu, hle.trans_lt hsize⟩

private theorem foldlM_addIncome_mono {penalty : Bool} {w' : Window} {total total' u v : Money}
    (hfine : ∀ a ∈ cs.flatMap Charge.amounts, a.Fine)
    (hsize : |total.value| + totalSize (cs.flatMap Charge.amounts) < 10 ^ 18)
    (hsize' : |total'.value| + totalSize (cs.flatMap Charge.amounts) < 10 ^ 18)
    (htotal : total.Fine) (htotal' : total'.Fine)
    (hmono : ∀ c ∈ cs, ∀ m n, c.incomeIn policy row w = .ok m → c.incomeIn policy row w' = .ok n →
      0 ≤ m.value ∧ m.value ≤ n.value)
    (hle : 0 ≤ total.value ∧ total.value ≤ total'.value)
    (hu : cs.foldlM (Charge.addIncome penalty policy row w) total = .ok u)
    (hv : cs.foldlM (Charge.addIncome penalty policy row w') total' = .ok v) :
    0 ≤ u.value ∧ u.value ≤ v.value := by
  induction cs generalizing total total' with
  | nil =>
    rw [List.foldlM_nil, pure_eq_ok] at hu hv
    rw [← hu, ← hv]
    exact hle
  | cons c cs ih =>
    rw [List.flatMap_cons] at hfine hsize hsize'
    rw [totalSize_append] at hsize hsize'
    obtain ⟨hc, hmono⟩ := List.forall_mem_cons.mp hmono
    rw [List.foldlM_cons, bind_eq_ok] at hu hv
    obtain ⟨x, hx, hu⟩ := hu
    obtain ⟨y, hy, hv⟩ := hv
    have hrestSize := totalSize_nonneg (cs.flatMap Charge.amounts)
    have hown : ∀ a ∈ c.amounts, a.Fine := fun a ha => hfine a (List.mem_append_left _ ha)
    obtain ⟨hxFine, hxLe, hxSame, hxAdd⟩ := Charge.addIncome_value hown (by linarith) htotal hx
    obtain ⟨hyFine, hyLe, hySame, hyAdd⟩ := Charge.addIncome_value hown (by linarith) htotal' hy
    refine ih (fun a ha => hfine a (List.mem_append_right _ ha)) (by linarith) (by linarith)
      hxFine hyFine hmono ?_ hu hv
    -- A charge of the other kind leaves both totals as they are.
    by_cases hkind : c.isPenalty = penalty
    · obtain ⟨m, hm, hxValue⟩ := hxAdd hkind
      obtain ⟨n, hn, hyValue⟩ := hyAdd hkind
      obtain ⟨hmNonneg, hmn⟩ := hc m n hm hn
      rw [hxValue, hyValue]
      constructor <;> linarith [hle.1, hle.2]
    · rw [hxSame hkind, hySame hkind]
      exact hle

private theorem income_le_of_incomeIn {penalty : Bool} {w' : Window} {u v : Money}
    (hfine : ∀ a ∈ cs.flatMap Charge.amounts, a.Fine)
    (hsize : totalSize (cs.flatMap Charge.amounts) < 10 ^ 18) (hcovered : ∀ c ∈ cs, c.Covered)
    (hmono : ∀ c ∈ cs, (∀ a ∈ c.amounts, a.Fine) → totalSize c.amounts < 10 ^ 18 → ∀ m n,
      c.incomeIn policy row w = .ok m → c.incomeIn policy row w' = .ok n → m.value ≤ n.value)
    (hu : income penalty policy row w cs = .ok u) (hv : income penalty policy row w' cs = .ok v) :
    0 ≤ u.value ∧ u.value ≤ v.value := by
  have hzero : |Money.zero.value| + totalSize (cs.flatMap Charge.amounts) < 10 ^ 18 := by
    rw [Money.value_zero, abs_zero, zero_add]
    exact hsize
  refine foldlM_addIncome_mono hfine hzero hzero Money.fine_zero Money.fine_zero ?_ ?_ hu hv
  · intro c hc m n hm hn
    have hown : ∀ a ∈ c.amounts, a.Fine := fun a ha => hfine a (List.mem_flatMap.mpr ⟨c, hc, ha⟩)
    have hownSize := (totalSize_flatMap_le (f := Charge.amounts) hc).trans_lt hsize
    exact ⟨Charge.incomeIn_nonneg hown hownSize (hcovered c hc) hm,
      hmono c hc hown hownSize m n hm hn⟩
  · rw [Money.value_zero]
    exact ⟨le_rfl, le_rfl⟩

theorem income_nonneg {penalty : Bool} {u : Money}
    (hfine : ∀ a ∈ cs.flatMap Charge.amounts, a.Fine)
    (hsize : totalSize (cs.flatMap Charge.amounts) < 10 ^ 18) (hcovered : ∀ c ∈ cs, c.Covered)
    (h : income penalty policy row w cs = .ok u) : 0 ≤ u.value := by
  refine (income_le_of_incomeIn hfine hsize hcovered (fun c _ _ _ m n hm hn => ?_) h h).1
  exact le_of_eq (congrArg Money.value (Except.ok.inj (hm.symm.trans hn)))

/-- Charges bring to a part of a period no more than to one that ends later. -/
theorem income_mono {penalty : Bool} {till till' : Date} {u v : Money}
    (hfine : ∀ a ∈ cs.flatMap Charge.amounts, a.Fine)
    (hsize : totalSize (cs.flatMap Charge.amounts) < 10 ^ 18) (hcovered : ∀ c ∈ cs, c.Covered)
    (htill : till < row.dueDate) (hle : till ≤ till')
    (hu : income penalty policy row ⟨row.fromDate, till⟩ cs = .ok u)
    (hv : income penalty policy row ⟨row.fromDate, till'⟩ cs = .ok v) : u.value ≤ v.value := by
  refine (income_le_of_incomeIn hfine hsize hcovered (fun c hc hown hownSize m n hm hn => ?_)
    hu hv).2
  exact Charge.incomeIn_mono hown hownSize (hcovered c hc) htill hle hm hn

private theorem foldlM_addIncome_congr {penalty : Bool} {total total' u : Money}
    (hfine : ∀ a ∈ cs.flatMap Charge.amounts, a.Fine)
    (hsize : |total.value| + totalSize (cs.flatMap Charge.amounts) < 10 ^ 18) (htotal : total.Fine)
    (htotal' : total'.Fine) (hvalue : total'.value = total.value)
    (h : cs.foldlM (Charge.addIncome penalty policy row w) total = .ok u) :
    ∃ v, cs.foldlM (Charge.addIncome penalty policy row w) total' = .ok v ∧ v.value = u.value := by
  induction cs generalizing total total' with
  | nil =>
    rw [List.foldlM_nil, pure_eq_ok] at h
    exact ⟨total', rfl, h ▸ hvalue⟩
  | cons c cs ih =>
    rw [List.flatMap_cons] at hfine hsize
    rw [totalSize_append] at hsize
    rw [List.foldlM_cons, bind_eq_ok] at h
    obtain ⟨x, hx, hrest⟩ := h
    have hrestSize := totalSize_nonneg (cs.flatMap Charge.amounts)
    have hown : ∀ a ∈ c.amounts, a.Fine := fun a ha => hfine a (List.mem_append_left _ ha)
    have hrestFine := fun a ha => hfine a (List.mem_append_right c.amounts ha)
    obtain ⟨hxFine, hxLe, hxSame, hxAdd⟩ := Charge.addIncome_value hown (by linarith) htotal hx
    obtain ⟨y, hy, hyFine, hyValue⟩ : ∃ y, c.addIncome penalty policy row w total' = .ok y ∧
        y.Fine ∧ y.value = x.value := by
      by_cases hkind : c.isPenalty = penalty
      · obtain ⟨m, hm, hxValue⟩ := hxAdd hkind
        have habs := abs_nonneg total.value
        obtain ⟨hmFine, hmLe⟩ := Charge.incomeIn_fine hown (by linarith) hm
        have htriangle := abs_add_le total'.value m.value
        rw [hvalue] at htriangle
        obtain ⟨y, hy, hyFine, hyValue⟩ := Money.add_exact htotal' hmFine
          (by rw [hvalue]; unfold Money.room; linarith)
        refine ⟨y, ?_, hyFine, by rw [hyValue, hxValue, hvalue]⟩
        simp only [Charge.addIncome]
        rw [if_pos hkind, hm]
        exact hy
      · refine ⟨total', ?_, htotal', by rw [hxSame hkind, hvalue]⟩
        simp only [Charge.addIncome]
        rw [if_neg hkind]
    obtain ⟨v, hv, hvValue⟩ := ih hrestFine (by linarith) hxFine hyFine hyValue hrest
    exact ⟨v, by rw [List.foldlM_cons, hy, bind_ok, hv], hvValue⟩

/-- A charge that brings nothing to a window can be left out. -/
theorem income_without {penalty : Bool} {c : Charge} {u : Money}
    (hfine : ∀ a ∈ (cs ++ c :: ds).flatMap Charge.amounts, a.Fine)
    (hsize : totalSize ((cs ++ c :: ds).flatMap Charge.amounts) < 10 ^ 18)
    (hc : ∀ m, c.incomeIn policy row w = .ok m → m.value = 0)
    (h : income penalty policy row w (cs ++ c :: ds) = .ok u) :
    ∃ v, income penalty policy row w (cs ++ ds) = .ok v ∧ v.value = u.value := by
  rw [List.flatMap_append, List.flatMap_cons] at hfine hsize
  rw [totalSize_append, totalSize_append] at hsize
  have hzero : |Money.zero.value| = 0 := by rw [Money.value_zero, abs_zero]
  have hcsSize := totalSize_nonneg (cs.flatMap Charge.amounts)
  have hdsSize := totalSize_nonneg (ds.flatMap Charge.amounts)
  have hownSize := totalSize_nonneg c.amounts
  have hown : ∀ a ∈ c.amounts, a.Fine :=
    fun a ha => hfine a (List.mem_append_right _ (List.mem_append_left _ ha))
  simp only [income] at h ⊢
  rw [List.foldlM_append, bind_eq_ok] at h
  obtain ⟨x, hx, hrest⟩ := h
  rw [List.foldlM_cons, bind_eq_ok] at hrest
  obtain ⟨y, hy, hrest⟩ := hrest
  obtain ⟨hxFine, hxLe⟩ := foldlM_addIncome_fine
    (fun a ha => hfine a (List.mem_append_left _ ha)) (by linarith) Money.fine_zero hx
  obtain ⟨hyFine, hyLe, hySame, hyAdd⟩ := Charge.addIncome_value hown (by linarith) hxFine hy
  have hyValue : x.value = y.value := by
    by_cases hkind : c.isPenalty = penalty
    · obtain ⟨m, hm, hvalue⟩ := hyAdd hkind
      rw [hvalue, hc m hm, add_zero]
    · rw [hySame hkind]
  obtain ⟨v, hv, hvValue⟩ := foldlM_addIncome_congr
    (fun a ha => hfine a (List.mem_append_right _ (List.mem_append_right _ ha)))
    (by linarith) hyFine hxFine hyValue hrest
  exact ⟨v, by rw [List.foldlM_append, hx, bind_ok, hv], hvValue⟩

end LoanLedger
