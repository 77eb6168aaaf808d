import LoanLedger.Proofs.Accrual.Target
import LoanLedger.Proofs.Charge.GapFree
import LoanLedger.Proofs.Ledger.Settle

/-!
Two accounts of the same income. A row keeps what has accrued on it from fees and from penalties,
and every charge keeps what has accrued of it. As long as a row holds the sum over the charges that
belong to it, the allocations of a posting add up to its portions, and the posting keeps it so.
-/

set_option autoImplicit false
set_option relaxedAutoImplicit false

namespace LoanLedger

/-- The column in which fees or penalties accrue. -/
def Column.ofKind : (penalty : Bool) → Column
  | false => .fee
  | true => .penalty

namespace Charge

/-- A value of the charges of one kind, added up. -/
def total (penalty : Bool) (f : Charge → ℚ) (cs : List Charge) : ℚ :=
  (cs.map fun c => if c.isPenalty = penalty then f c else 0).sum

/-- What the dues of charges amount to. -/
def size (cs : List Charge) : ℚ := (cs.map fun c => (c.parts.map (·.amount.value)).sum).sum

section Totals

variable {penalty : Bool} {f g : Charge → ℚ} {c : Charge} {cs ds : List Charge}

theorem total_nil : total penalty f [] = 0 := rfl

theorem total_cons : total penalty f (c :: cs) =
    (if c.isPenalty = penalty then f c else 0) + total penalty f cs := by
  simp only [total]
  rw [List.map_cons, List.sum_cons]

theorem total_congr (h : List.Forall₂ (fun c d => d.isPenalty = c.isPenalty ∧ g d = f c) cs ds) :
    total penalty g ds = total penalty f cs := by
  refine congrArg List.sum (map_eq_of_forall₂ h fun c d hcd => ?_).symm
  rw [hcd.1, hcd.2]

theorem total_add : total penalty (fun c => f c + g c) cs =
    total penalty f cs + total penalty g cs := by
  induction cs with
  | nil => rw [total_nil, total_nil, total_nil, add_zero]
  | cons c cs ih =>
    rw [total_cons, total_cons, total_cons, ih]
    split <;> ring

theorem total_nonneg (h : ∀ c ∈ cs, 0 ≤ f c) : 0 ≤ total penalty f cs := by
  apply List.sum_nonneg
  intro v hv
  obtain ⟨c, hc, rfl⟩ := List.mem_map.mp hv
  split
  · exact h c hc
  · exact le_rfl

theorem total_perm (h : cs.Perm ds) : total penalty f cs = total penalty f ds :=
  (h.map _).sum_eq

theorem total_eq_zero (h : ∀ c ∈ cs, f c = 0) : total penalty f cs = 0 := by
  apply List.sum_eq_zero
  intro v hv
  obtain ⟨c, hc, rfl⟩ := List.mem_map.mp hv
  rw [h c hc, ite_self]

end Totals

variable {places : Nat} {policy : ChargePolicy} {row : ScheduleRow} {w : Window} {c : Charge}

theorem Proper.sum_amounts_nonneg (hc : c.Proper places) :
    0 ≤ (c.parts.map (·.amount.value)).sum := by
  apply List.sum_nonneg
  intro v hv
  obtain ⟨x, hx, rfl⟩ := List.mem_map.mp hv
  exact (hc.parts x hx).amount.nonneg

theorem size_cons (c : Charge) (cs : List Charge) :
    size (c :: cs) = (c.parts.map (·.amount.value)).sum + size cs := by
  simp only [size]
  rw [List.map_cons, List.sum_cons]

theorem size_append (cs ds : List Charge) : size (cs ++ ds) = size cs + size ds := by
  simp only [size]
  rw [List.map_append, List.sum_append]

theorem size_perm {cs ds : List Charge} (h : cs.Perm ds) : size cs = size ds := (h.map _).sum_eq

theorem size_congr {cs ds : List Charge} (h : List.Forall₂ (fun c d : Charge =>
    d.parts.map (·.amount) = c.parts.map (·.amount)) cs ds) : size ds = size cs := by
  refine congrArg List.sum (map_eq_of_forall₂ h fun c d hcd => ?_).symm
  have hvalues := congrArg (fun amounts => (amounts.map Money.value).sum) hcd
  rw [List.map_map, List.map_map] at hvalues
  exact hvalues.symm

theorem size_nonneg {cs : List Charge} (h : ∀ c ∈ cs, c.Proper places) : 0 ≤ size cs := by
  apply List.sum_nonneg
  intro v hv
  obtain ⟨c, hc, rfl⟩ := List.mem_map.mp hv
  exact (h c hc).sum_amounts_nonneg

theorem Proper.worth_accruable (hc : c.Proper places) :
    0 ≤ worth Dues.accruable (c.brought policy row w) ∧
      worth Dues.accruable (c.brought policy row w) ≤ (c.parts.map (·.amount.value)).sum := by
  cases hx : c.brought policy row w with
  | none => exact ⟨le_rfl, hc.sum_amounts_nonneg⟩
  | some x =>
    have hmem := mem_parts_of_brought hx
    refine ⟨(hc.parts x hmem).accruable_nonneg, (hc.parts x hmem).accruable_le.trans ?_⟩
    refine List.single_le_sum ?_ _ (List.mem_map_of_mem (f := fun x : Dues => x.amount.value) hmem)
    intro v hv
    obtain ⟨y, hy, rfl⟩ := List.mem_map.mp hv
    exact (hc.parts y hy).amount.nonneg

theorem Proper.worth_remaining_nonneg (hc : c.Proper places) :
    0 ≤ worth Dues.remaining (c.brought policy row w) := by
  cases hx : c.brought policy row w with
  | none => exact le_rfl
  | some x => exact (hc.parts x (mem_parts_of_brought hx)).remaining_nonneg

theorem Proper.worth_accrued_nonneg (hc : c.Proper places) :
    0 ≤ worth (·.accrued.value) (c.brought policy row w) := by
  cases hx : c.brought policy row w with
  | none => exact le_rfl
  | some x => exact (hc.parts x (mem_parts_of_brought hx)).accrued.nonneg

theorem worth_split (x : Option Dues) :
    worth Dues.accruable x = worth (·.accrued.value) x + worth Dues.remaining x := by
  cases x with
  | none => simp
  | some x =>
    rw [worth_some, worth_some, worth_some, Dues.remaining]
    ring

end Charge

variable {places : Nat} {policy : ChargePolicy} {row : ScheduleRow} {w : Window}
  {cs ds : List Charge} {a : Apportionment}

private theorem foldlM_addIncome_plain {penalty : Bool} {t u : Money}
    (hproper : ∀ c ∈ cs, c.Proper places)
    (hincome : ∀ c ∈ cs, ∃ m o, c.contributionTo policy row w = .ok (m, o))
    (ht : t.Plain places) (hsize : t.value + Charge.size cs < 10 ^ 18)
    (h : cs.foldlM (Charge.addIncome penalty policy row w) t = .ok u) :
    u.Plain places ∧ u.value = t.value +
      Charge.total penalty (fun c => worth Dues.accruable (c.brought policy row w)) cs := by
  induction cs generalizing t with
  | nil =>
    rw [List.foldlM_nil, pure_eq_ok] at h
    rw [← h, Charge.total_nil, add_zero]
    exact ⟨ht, rfl⟩
  | cons c cs ih =>
    obtain ⟨hc, hproper⟩ := List.forall_mem_cons.mp hproper
    obtain ⟨⟨m, o, hm⟩, hincome⟩ := List.forall_mem_cons.mp hincome
    obtain ⟨hworthNonneg, hworthLe⟩ : 0 ≤ worth Dues.accruable (c.brought policy row w) ∧
      worth Dues.accruable (c.brought policy row w) ≤ (c.parts.map (·.amount.value)).sum :=
        hc.worth_accruable
    have hrestSize : 0 ≤ Charge.size cs := Charge.size_nonneg hproper
    rw [Charge.size_cons] at hsize
    rw [List.foldlM_cons, bind_eq_ok] at h
    obtain ⟨v, hv, hrest⟩ := h
    have hstep : v.Plain places ∧ v.value = t.value +
        if c.isPenalty = penalty then worth Dues.accruable (c.brought policy row w) else 0 := by
      simp only [Charge.addIncome] at hv
      split at hv
      · next hkind =>
        obtain ⟨n, hn, hadd⟩ := bind_eq_ok.mp hv
        obtain rfl : m = n := Except.ok.inj ((Charge.contributionTo_income hm).symm.trans hn)
        obtain ⟨hmPlain, hmValue⟩ := (Charge.contributionTo_contributes hc hm).income
        rw [if_pos hkind, ← hmValue]
        exact ht.add hmPlain hadd (by rw [hmValue]; linarith)
      · next hkind =>
        rw [← Except.ok.inj hv, if_neg hkind, add_zero]
        exact ⟨ht, rfl⟩
    -- What a charge adds is covered by its own part of the size, so the rest keeps its room.
    have hle : v.value ≤ t.value + (c.parts.map (·.amount.value)).sum := by
      rw [hstep.2]
      split
      · linarith
      · linarith [hc.sum_amounts_nonneg]
    obtain ⟨hu, hvalue⟩ := ih hproper hincome hstep.1 (by linarith) hrest
    refine ⟨hu, ?_⟩
    rw [hvalue, hstep.2, Charge.total_cons]
    ring

/-- The income of a window is what the charges bring to it. -/
theorem income_plain {penalty : Bool} {u : Money} (hproper : ∀ c ∈ cs, c.Proper places)
    (hsize : Charge.size cs < 10 ^ 18) (hof : Apportionment.ofCharges policy row w cs = .ok a)
    (h : income penalty policy row w cs = .ok u) :
    u.Plain places ∧ u.value =
      Charge.total penalty (fun c => worth Dues.accruable (c.brought policy row w)) cs := by
  obtain ⟨os, hos, -⟩ := Apportionment.ofCharges_contributions hof
  have hincome : ∀ c ∈ cs, ∃ m o, c.contributionTo policy row w = .ok (m, o) := by
    intro c hc
    obtain ⟨o, -, m, hm⟩ := exists_mem_of_forall₂ hos hc
    exact ⟨m, o, hm⟩
  obtain ⟨hu, hvalue⟩ := foldlM_addIncome_plain hproper hincome Money.plain_zero
    (by rw [Money.value_zero, zero_add]; exact hsize) h
  rw [Money.value_zero, zero_add] at hvalue
  exact ⟨hu, hvalue⟩

/-- What is allocated to the charges of one kind. -/
def Allocation.sumOf (penalty : Bool) (xs : List Allocation) : ℚ :=
  ((xs.filter fun x => x.isPenalty = penalty).map (·.amount.value)).sum

/-- The allocations of a window are what was left to accrue of what the charges bring. -/
theorem Apportionment.sumOf_allocations {penalty : Bool} (hproper : ∀ c ∈ cs, c.Proper places)
    (hof : ofCharges policy row w cs = .ok a) :
    Allocation.sumOf penalty a.allocations =
      Charge.total penalty (fun c => worth Dues.remaining (c.brought policy row w)) cs := by
  obtain ⟨os, hos, hallocations⟩ := ofCharges_contributions hof
  rw [hallocations]
  clear hallocations hof
  induction hos with
  | nil => rfl
  | @cons c o cs os hco _ ih =>
    obtain ⟨hc, hproper⟩ := List.forall_mem_cons.mp hproper
    obtain ⟨m, hm⟩ := hco
    have hallocation := (Charge.contributionTo_contributes hc hm).allocation.2
    rw [Charge.total_cons, ← ih hproper, ← hallocation]
    cases o with
    | none =>
      rw [List.reduceOption_cons_of_none]
      have hzero : (Allocation.amountOf none).value = 0 := Money.value_zero
      rw [hzero, ite_self, zero_add]
    | some x =>
      have hkind : x.isPenalty = c.isPenalty := (Charge.contributionTo_isOf hm).isPenalty
      simp only [Allocation.sumOf]
      rw [List.reduceOption_cons_of_some, ← hkind]
      by_cases hpenalty : x.isPenalty = penalty
      · rw [List.filter_cons_of_pos (by simpa using hpenalty), if_pos hpenalty, List.map_cons,
          List.sum_cons]
        rfl
      · rw [List.filter_cons_of_neg (by simpa using hpenalty), if_neg hpenalty, zero_add]

end LoanLedger
