import LoanLedger.Proofs.Charge.Soundness
import LoanLedger.Proofs.Explanation

/-!
Waivers in closed form. In the exact range it is decided by what is owed whether a charge can be
waived and, of an installment fee, which share: all that is owed is waived, split by what had been
accrued and not been paid. Otherwise there is one reason to refuse the waiver, and it is the one
that is given.
-/

set_option autoImplicit false
set_option relaxedAutoImplicit false

namespace LoanLedger

/-- What has become of dues is not negative. -/
structure Dues.Nonneg (d : Dues) : Prop where
  paid : 0 ≤ d.paid.value
  waived : 0 ≤ d.waived.value
  adjusted : 0 ≤ d.adjusted.value
  accrued : 0 ≤ d.accrued.value
  unrecognized : 0 ≤ d.unrecognized.value

/-- Dues with room to take what has become of them from their amount. -/
structure Dues.Roomy (d : Dues) : Prop where
  fine : d.amount.Fine ∧ d.paid.Fine ∧ d.waived.Fine ∧ d.adjusted.Fine
  size : |d.amount.value| + |d.paid.value| + |d.waived.value| + |d.adjusted.value| < Money.room

/-- Dues in the exact range. They may amount to less than nothing. -/
structure Dues.InRange (d : Dues) : Prop where
  fine : ∀ a ∈ d.figures, a.Fine
  size : totalSize d.figures < 10 ^ 18
  nonneg : d.Nonneg

/-- A charge in the exact range, together with its shares. -/
structure Charge.InRange (c : Charge) : Prop where
  fine : ∀ a ∈ c.figures, a.Fine
  size : totalSize c.figures < 10 ^ 18
  nonneg : ∀ d ∈ c.dues :: c.shares.map ChargeShare.dues, d.Nonneg

/-- Why nothing of dues is owed. -/
def Dues.settledBy (d : Dues) : WaiveRefusal :=
  if 0 < d.waived.value then .alreadyWaived else .alreadyPaid

/-- A share that a request is for: of the installment that it names or, if it names none, one on
which something is owed. -/
def ChargeShare.Meets (requested : Option InstallmentNumber) (s : ChargeShare) : Prop :=
  match requested with
  | some n => s.installment = n
  | none => 0 < s.dues.owed

/-- The first share of a charge that a request is for, with those before and after it. -/
structure Charge.Targets (c : Charge) (requested : Option InstallmentNumber)
    (before : List ChargeShare) (s : ChargeShare) (after : List ChargeShare) : Prop where
  shares : c.shares = before ++ s :: after
  meets : s.Meets requested
  first : ∀ t ∈ before, ¬t.Meets requested

/-- The figures of a waiver of all that is owed: recognized is what had been accrued and not been
paid, as far as it is waived. -/
structure Relief.Covers (r : Relief) (d : Dues) : Prop where
  positive : 0 < r.amount.value
  amount : r.amount.value = d.owed
  recognized : r.recognized.value = min r.amount.value (max 0 (d.accrued.value - d.paid.value))
  split : r.recognized.value + r.unrecognized.value = r.amount.value

/-- What was waived on dues, and what went unrecognized of it, grows by the figures of a waiver and
stays exact. -/
structure Relief.Grows (r : Relief) (d e : Dues) : Prop where
  fine : e.waived.Fine ∧ e.unrecognized.Fine
  waived : e.waived.value = d.waived.value + r.amount.value
  unrecognized : e.unrecognized.value = d.unrecognized.value + r.unrecognized.value

/-- What a waiver makes of a charge: it covers all that is owed on the charge or, of an installment
fee, on the share that the request is for, and leaves everything else alone. -/
inductive Charge.WaivedBy (c : Charge) (requested : Option InstallmentNumber) (r : Relief) : Prop
  | own (fee : c.isInstallmentFee = false) (installment : r.installment = none)
      (covers : r.Covers c.dues) (grows : r.Grows c.dues r.charge.dues)
      (settled : ∃ o, r.charge.outstanding = .ok o ∧ o.value = 0)
      (rest : r.charge = { c with
        waived := r.charge.waived
        unrecognizedSoFar := r.charge.unrecognizedSoFar })
  | share {before after : List ChargeShare} {s t : ChargeShare} (fee : c.isInstallmentFee = true)
      (target : c.Targets requested before s after)
      (installment : r.installment = some s.installment)
      (covers : r.Covers s.dues) (grows : r.Grows c.dues r.charge.dues)
      (shareGrows : r.Grows s.dues t.dues) (settled : ∃ o, t.outstanding = .ok o ∧ o.value = 0)
      (shareRest : s.Relieved t)
      (rest : r.charge = { c with
        waived := r.charge.waived
        unrecognizedSoFar := r.charge.unrecognizedSoFar
        shares := before ++ t :: after })

/-- Why a waiver is refused. -/
inductive Charge.RefusesWaiver (c : Charge) (status : LoanStatus)
    (requested : Option InstallmentNumber) : Refusal → Prop
  | inactive (hstatus : status ≠ .active) :
      RefusesWaiver c status requested (.chargeCannotBeWaived c.id .loanInactive)
  | settled (hstatus : status = .active) (howed : c.dues.owed = 0) :
      RefusesWaiver c status requested (.chargeCannotBeWaived c.id c.dues.settledBy)
  | missing (hstatus : status = .active) (howed : 0 < c.dues.owed)
      (hfee : c.isInstallmentFee = true) (hnone : ∀ s ∈ c.shares, ¬s.Meets requested) :
      RefusesWaiver c status requested (.installmentNotFound c.id (requested.getD 0))
  | settledShare {before after : List ChargeShare} {s : ChargeShare} (hstatus : status = .active)
      (howed : 0 < c.dues.owed) (hfee : c.isInstallmentFee = true)
      (target : c.Targets requested before s after) (hshare : s.dues.owed = 0) :
      RefusesWaiver c status requested (.chargeCannotBeWaived c.id s.dues.settledBy)

namespace Dues

variable {d : Dues}

theorem owed_nonneg (d : Dues) : 0 ≤ d.owed := le_max_right _ _

theorem Proper.roomy {places : Nat} (h : d.Proper places) : d.Roomy where
  fine := ⟨h.amount.fine, h.paid.fine, h.waived.fine, h.adjusted.fine⟩
  size := by
    rw [abs_of_nonneg h.amount.nonneg, abs_of_nonneg h.paid.nonneg, abs_of_nonneg h.waived.nonneg,
      abs_of_nonneg h.adjusted.nonneg]
    unfold Money.room
    linarith [h.amount.small, h.paid.small, h.waived.small, h.adjusted.small]

namespace InRange

theorem roomy (h : d.InRange) : d.Roomy where
  fine :=
    have hfine := forall_mem_figures.mp h.fine
    ⟨hfine.1, hfine.2.1, hfine.2.2.1, hfine.2.2.2.1⟩
  size := by
    have hsize := h.size
    simp only [figures, totalSize_cons, totalSize_nil] at hsize
    have haccrued := abs_nonneg d.accrued.value
    have hunrecognized := abs_nonneg d.unrecognized.value
    have hroom : (10 : ℚ) ^ 18 < Money.room := by norm_num [Money.room]
    linarith

theorem plain (h : d.InRange) : d.paid.Plain 10 ∧ d.waived.Plain 10 ∧ d.accrued.Plain 10 ∧
    d.unrecognized.Plain 10 := by
  obtain ⟨hpaid, hwaived, -, haccrued, hunrecognized⟩ := h.nonneg
  have hplain : ∀ a ∈ d.figures, 0 ≤ a.value → a.Plain 10 := fun a ha hnonneg =>
    (h.fine a ha).plain hnonneg ((le_abs_self _).trans_lt ((abs_le_totalSize ha).trans_lt h.size))
  simp only [figures, List.forall_mem_cons] at hplain
  obtain ⟨-, hpaidPlain, hwaivedPlain, -, haccruedPlain, hunrecognizedPlain, -⟩ := hplain
  exact ⟨hpaidPlain hpaid, hwaivedPlain hwaived, haccruedPlain haccrued,
    hunrecognizedPlain hunrecognized⟩

theorem owed_lt (h : d.InRange) : d.owed < 10 ^ 18 := by
  have hsize := (abs_le_totalSize (List.mem_cons_self : d.amount ∈ d.figures)).trans_lt h.size
  have hamount := le_abs_self d.amount.value
  obtain ⟨hpaid, hwaived, hadjusted, -, -⟩ := h.nonneg
  exact max_lt (by linarith) (by norm_num)

/-- Once all that is owed was waived, nothing is owed any more. -/
theorem waiveAll (h : d.InRange) {e : Dues} (hamount : e.amount = d.amount)
    (hpaid : e.paid = d.paid) (hadjusted : e.adjusted = d.adjusted) (hfine : e.waived.Fine)
    (hwaived : e.waived.value = d.waived.value + d.owed) : e.Roomy ∧ e.owed = 0 := by
  have howed := h.owed_lt
  have howedNonneg := d.owed_nonneg
  have hwaivedNonneg := h.nonneg.waived
  refine ⟨⟨?_, ?_⟩, ?_⟩
  · rw [hamount, hpaid, hadjusted]
    exact ⟨h.roomy.fine.1, h.roomy.fine.2.1, hfine, h.roomy.fine.2.2.2⟩
  · have hsize := h.size
    simp only [figures, totalSize_cons, totalSize_nil] at hsize
    have haccrued := abs_nonneg d.accrued.value
    have hunrecognized := abs_nonneg d.unrecognized.value
    have hroom : Money.room = 7 * 10 ^ 18 := rfl
    rw [abs_of_nonneg hwaivedNonneg] at hsize
    rw [hamount, hpaid, hadjusted, hwaived, abs_of_nonneg (add_nonneg hwaivedNonneg howedNonneg)]
    linarith
  · have hle : d.amount.value - (d.paid.value + d.waived.value + d.adjusted.value) ≤ d.owed :=
      le_max_left _ _
    rw [owed, hamount, hpaid, hadjusted, hwaived]
    exact max_eq_right (by linarith)

/-- A waiver of what is owed is split without loss. -/
theorem exists_split (h : d.InRange) {amount : Money} (hamount : amount.Plain 10) :
    ∃ recognized part, Charge.recognizedPart amount d.accrued d.paid = .ok recognized ∧
      amount.sub recognized = .ok part ∧ part.Plain 10 ∧
      recognized.value = min amount.value (max 0 (d.accrued.value - d.paid.value)) ∧
      recognized.value + part.value = amount.value := by
  obtain ⟨hpaid, -, haccrued, -⟩ := h.plain
  obtain ⟨unpaid, hunpaid, hfine, hvalue⟩ := Money.monus_exact haccrued.fine hpaid.fine
    (abs_lt.mpr ⟨by unfold Money.room; linarith [haccrued.nonneg, hpaid.small],
      by unfold Money.room; linarith [haccrued.small, hpaid.nonneg]⟩)
  have hunpaidPlain : unpaid.Plain 10 := hfine.plain (hvalue ▸ le_max_right _ _)
    (hvalue ▸ max_lt (by linarith [haccrued.small, hpaid.nonneg]) (by norm_num))
  obtain ⟨hmin, hminValue⟩ := hamount.min hunpaidPlain
  have hle : (amount.min unpaid).value ≤ amount.value := hminValue ▸ min_le_left _ _
  obtain ⟨part, hpart, -⟩ := Money.sub_exact hamount.fine hmin.fine
    (by rw [abs_of_nonneg (sub_nonneg.mpr hle)]; unfold Money.room
        linarith [hamount.small, hmin.nonneg])
  obtain ⟨hpartPlain, hpartValue⟩ := hamount.sub hmin hpart hle
  refine ⟨_, part, bind_eq_ok.mpr ⟨unpaid, hunpaid, rfl⟩, hpart, hpartPlain, ?_, ?_⟩
  · rw [hminValue, hvalue, max_comm]
  · rw [hpartValue, add_sub_cancel]

theorem exists_grown (h : d.InRange) {amount part : Money} (hamount : amount.Plain 10)
    (hpart : part.Plain 10) : ∃ waived total, d.waived.add amount = .ok waived ∧
      d.unrecognized.add part = .ok total ∧ waived.Fine ∧ total.Fine ∧
      waived.value = d.waived.value + amount.value ∧
      total.value = d.unrecognized.value + part.value := by
  obtain ⟨-, hwaivedPlain, -, hunrecognizedPlain⟩ := h.plain
  obtain ⟨waived, hwaived, hfine, hwaivedValue⟩ := hwaivedPlain.add_exact hamount
  obtain ⟨total, htotal, htotalFine, htotalValue⟩ := hunrecognizedPlain.add_exact hpart
  exact ⟨waived, total, hwaived, htotal, hfine, htotalFine, hwaivedValue, htotalValue⟩

end InRange
end Dues

namespace Charge

variable {c : Charge} {s : ChargeShare} {requested : Option InstallmentNumber}

theorem exists_outstanding (h : c.dues.Roomy) :
    ∃ o, c.outstanding = .ok o ∧ o.Fine ∧ o.value = c.dues.owed := by
  obtain ⟨hamount, hpaid, hwaived, hadjusted⟩ := h.fine
  obtain ⟨two, three, o, htwo, hthree, ho, hfine, hvalue⟩ :=
    Money.exists_monus_sum hamount hpaid hwaived hadjusted h.size
  exact ⟨o, bind_eq_ok.mpr ⟨two, htwo, bind_eq_ok.mpr ⟨three, hthree, ho⟩⟩, hfine, hvalue⟩

private theorem isZero_of_owed {o : Money} {v : ℚ} (ho : o.value = v) (hv : 0 < v) :
    o.isZero = false :=
  Bool.eq_false_iff.mpr fun hz => hv.ne' (ho ▸ Money.isZero_iff_value.mp hz)

/-- What is outstanding on a share is owed. -/
theorem exists_share_outstanding (h : s.dues.Roomy) :
    ∃ o, s.outstanding = .ok o ∧ o.Fine ∧ o.value = s.dues.owed := by
  obtain ⟨hamount, hpaid, hwaived, -⟩ := h.fine
  have hsize := h.size
  have hzero : |s.dues.adjusted.value| = 0 := by
    rw [ChargeShare.dues, Money.value_zero, abs_zero]
  have hamountNonneg := abs_nonneg s.dues.amount.value
  have hsum := abs_add_le s.dues.paid.value s.dues.waived.value
  have hleft := abs_sub s.dues.amount.value (s.dues.paid.value + s.dues.waived.value)
  obtain ⟨two, htwo, htwoFine, htwoValue⟩ := Money.add_exact hpaid hwaived (by linarith)
  obtain ⟨o, ho, hfine, hvalue⟩ := Money.monus_exact hamount htwoFine (by rw [htwoValue]; linarith)
  refine ⟨o, bind_eq_ok.mpr ⟨two, htwo, ho⟩, hfine, ?_⟩
  rw [hvalue, htwoValue]
  simp [Dues.owed, ChargeShare.dues]

/-! What a waiver comes to, given the figures that it works with. On the level of the charge, and on
that of a share, it is checked twice whether anything is owed: where something was waived, and where
nothing was. -/

private theorem checks_eq {β : Type} {waived o : Money} {x : Except Fault Money} (h : x = .ok o)
    (r r' : Refusal) (k : Except Failure β) :
    let isWaived : Except Fault Bool :=
      if waived.isPositive then return (← x).isZero else .ok false
    let isPaid : Except Fault Bool := do
      if ← isWaived then return false else return (← x).isZero
    ((do
      if ← isWaived then refuse r
      if ← isPaid then refuse r'
      k) : Except Failure β) =
        if o.isZero then refuse (if waived.isPositive then r else r') else k := by
  intro isWaived isPaid
  have hzero : (return (← x).isZero : Except Fault Bool) = .ok o.isZero := by
    rw [h]
    rfl
  have hwaived : isWaived = .ok (waived.isPositive && o.isZero) := by
    simp only [isWaived]
    rw [hzero]
    cases waived.isPositive <;> rfl
  have hpaid : isPaid = .ok (!(waived.isPositive && o.isZero) && o.isZero) := by
    simp only [isPaid]
    rw [hwaived, hzero]
    cases waived.isPositive && o.isZero <;> rfl
  rw [hwaived, hpaid]
  cases waived.isPositive <;> cases o.isZero <;> rfl

private theorem settledBy_eq (d : Dues) (id : ChargeId) :
    (if d.waived.isPositive then Refusal.chargeCannotBeWaived id .alreadyWaived
      else .chargeCannotBeWaived id .alreadyPaid) = .chargeCannotBeWaived id d.settledBy := by
  simp only [Dues.settledBy, Money.isPositive_iff_value]
  split <;> rfl

variable {i : Nat} {n : InstallmentNumber} {o recognized part waived total : Money} {d : Charge}
  {reason : Refusal}

theorem waive_of_settled (ho : c.outstanding = .ok o) (hz : o.isZero = true) :
    c.waive .active requested = refuse (.chargeCannotBeWaived c.id c.dues.settledBy) := by
  have hchecks : c.waive .active requested = _ := checks_eq ho _ _ _
  rw [hchecks, if_pos hz]
  exact congrArg refuse (settledBy_eq c.dues c.id)

theorem waive_own (hfee : c.isInstallmentFee = false) (ho : c.outstanding = .ok o)
    (hz : o.isZero = false) (hrecognized : recognizedPart o c.accrued c.paid = .ok recognized)
    (hpart : o.sub recognized = .ok part) (hwaived : c.waived.add o = .ok waived)
    (htotal : c.unrecognized.add part = .ok total) :
    c.waive .active requested = .ok ⟨{ c with waived, unrecognizedSoFar := total.nonZero }, none,
      o, recognized, part⟩ := by
  have hchecks : c.waive .active requested = _ := checks_eq ho _ _ _
  rw [hchecks, if_neg (Bool.not_eq_true _ ▸ hz), if_neg (Bool.not_eq_true _ ▸ hfee)]
  exact bind_eq_ok.mpr ⟨o, lift_fault_eq_ok.mpr ho,
    bind_eq_ok.mpr ⟨recognized, lift_fault_eq_ok.mpr hrecognized, bind_eq_ok.mpr ⟨_, rfl,
      bind_eq_ok.mpr ⟨part, lift_fault_eq_ok.mpr hpart,
        bind_eq_ok.mpr ⟨waived, lift_fault_eq_ok.mpr hwaived,
          bind_eq_ok.mpr ⟨total, lift_fault_eq_ok.mpr htotal, rfl⟩⟩⟩⟩⟩⟩

theorem waive_refused (hfee : c.isInstallmentFee = true) (ho : c.outstanding = .ok o)
    (hz : o.isZero = false) (hshare : c.waiveShare requested = refuse reason) :
    c.waive .active requested = refuse reason := by
  have hchecks : c.waive .active requested = _ := checks_eq ho _ _ _
  rw [hchecks, if_neg (Bool.not_eq_true _ ▸ hz), if_pos hfee, hshare]
  rfl

theorem waive_share (hfee : c.isInstallmentFee = true) (ho : c.outstanding = .ok o)
    (hz : o.isZero = false) {amount : Money}
    (hshare : c.waiveShare requested = .ok (d, n, amount, recognized))
    (hpart : amount.sub recognized = .ok part) (hwaived : d.waived.add amount = .ok waived)
    (htotal : d.unrecognized.add part = .ok total) :
    c.waive .active requested = .ok ⟨{ d with waived, unrecognizedSoFar := total.nonZero }, some n,
      amount, recognized, part⟩ := by
  have hchecks : c.waive .active requested = _ := checks_eq ho _ _ _
  rw [hchecks, if_neg (Bool.not_eq_true _ ▸ hz), if_pos hfee, hshare]
  exact bind_eq_ok.mpr ⟨_, rfl, bind_eq_ok.mpr ⟨_, rfl,
    bind_eq_ok.mpr ⟨part, lift_fault_eq_ok.mpr hpart,
      bind_eq_ok.mpr ⟨waived, lift_fault_eq_ok.mpr hwaived,
        bind_eq_ok.mpr ⟨total, lift_fault_eq_ok.mpr htotal, rfl⟩⟩⟩⟩⟩

theorem waiveShare_of_settled (htarget : c.targetShare requested = .ok (i, s))
    (ho : s.outstanding = .ok o) (hz : o.isZero = true) :
    c.waiveShare requested = refuse (.chargeCannotBeWaived c.id s.dues.settledBy) := by
  rw [waiveShare, htarget, bind_ok]
  refine (checks_eq ho _ _ _).trans ?_
  rw [if_pos hz]
  exact congrArg refuse (settledBy_eq s.dues c.id)

theorem waiveShare_eq (htarget : c.targetShare requested = .ok (i, s)) (ho : s.outstanding = .ok o)
    (hz : o.isZero = false) (hrecognized : recognizedPart o s.accrued s.paid = .ok recognized)
    (hpart : o.sub recognized = .ok part) (hwaived : s.waived.add o = .ok waived)
    (htotal : s.unrecognized.add part = .ok total) :
    c.waiveShare requested = .ok ({ c with
      shares := c.shares.set i { s with waived := waived, unrecognizedSoFar := some total } },
      s.installment, o, recognized) := by
  rw [waiveShare, htarget, bind_ok]
  refine (checks_eq ho _ _ _).trans ?_
  rw [if_neg (Bool.not_eq_true _ ▸ hz)]
  exact bind_eq_ok.mpr ⟨o, lift_fault_eq_ok.mpr ho,
    bind_eq_ok.mpr ⟨recognized, lift_fault_eq_ok.mpr hrecognized,
      bind_eq_ok.mpr ⟨waived, lift_fault_eq_ok.mpr hwaived,
        bind_eq_ok.mpr ⟨part, lift_fault_eq_ok.mpr hpart,
          bind_eq_ok.mpr ⟨total, lift_fault_eq_ok.mpr htotal, rfl⟩⟩⟩⟩⟩

/-! Which share a waiver is for. -/

/-- The first share with a property, and its position; nothing where none has the property. -/
inductive Picks (P : ChargeShare → Prop) : List ChargeShare → Option (Nat × ChargeShare) → Prop
  | none {shares : List ChargeShare} (h : ∀ s ∈ shares, ¬P s) : Picks P shares none
  | some (before : List ChargeShare) {after : List ChargeShare} {s : ChargeShare} (hs : P s)
      (h : ∀ t ∈ before, ¬P t) : Picks P (before ++ s :: after) (some (before.length, s))

section

variable {P : ChargeShare → Prop} {shares : List ChargeShare} {found : Option (Nat × ChargeShare)}

theorem Picks.cons_pos (hs : P s) : Picks P (s :: shares) (Option.some (0, s)) :=
  Picks.some [] hs (List.forall_mem_nil _)

theorem Picks.cons_neg (hs : ¬P s) (h : Picks P shares found) :
    Picks P (s :: shares) (found.map fun (i, t) => (i + 1, t)) := by
  cases h with
  | none h => exact .none (List.forall_mem_cons.mpr ⟨hs, h⟩)
  | @some before after t ht h =>
    exact .some (s :: before) ht (List.forall_mem_cons.mpr ⟨hs, h⟩)

end

theorem shareAt?_picks (n : InstallmentNumber) (shares : List ChargeShare) :
    Picks (·.installment = n) shares (shareAt? n shares) := by
  induction shares with
  | nil => exact .none (List.forall_mem_nil _)
  | cons s shares ih =>
    unfold shareAt?
    split
    · next hs => exact .cons_pos hs
    · next hs => exact ih.cons_neg hs

theorem exists_firstOutstanding? {shares : List ChargeShare} (h : ∀ s ∈ shares, s.dues.Roomy) :
    ∃ found, firstOutstanding? shares = .ok found ∧ Picks (0 < ·.dues.owed) shares found := by
  induction shares with
  | nil => exact ⟨none, rfl, .none (List.forall_mem_nil _)⟩
  | cons s shares ih =>
    obtain ⟨hs, hshares⟩ := List.forall_mem_cons.mp h
    obtain ⟨o, ho, -, hvalue⟩ := exists_share_outstanding hs
    obtain ⟨found, hfound, hpicks⟩ := ih hshares
    have howed : o.isPositive = true ↔ 0 < s.dues.owed := by
      rw [Money.isPositive_iff_value, hvalue]
    by_cases hpos : 0 < s.dues.owed
    · exact ⟨_, bind_eq_ok.mpr ⟨o, ho, if_pos (howed.mpr hpos)⟩, .cons_pos hpos⟩
    · refine ⟨_, bind_eq_ok.mpr ⟨o, ho, (if_neg (mt howed.mp hpos)).trans ?_⟩, hpicks.cons_neg hpos⟩
      exact bind_eq_ok.mpr ⟨found, hfound, rfl⟩

/-- The share that a waiver is for, if there is one. -/
theorem targetShare_cases (h : ∀ s ∈ c.shares, s.dues.Roomy)
    (requested : Option InstallmentNumber) :
    (c.targetShare requested = refuse (.installmentNotFound c.id (requested.getD 0)) ∧
        ∀ s ∈ c.shares, ¬s.Meets requested) ∨
      ∃ before s after, c.targetShare requested = .ok (before.length, s) ∧
        c.Targets requested before s after := by
  obtain ⟨found, hfound, hpicks⟩ : ∃ found, c.targetShare requested =
      found.elim (refuse (.installmentNotFound c.id (requested.getD 0))) .ok ∧
      Picks (·.Meets requested) c.shares found := by
    cases requested with
    | some n =>
      refine ⟨_, ?_, shareAt?_picks n c.shares⟩
      simp only [targetShare]
      cases shareAt? n c.shares <;> rfl
    | none =>
      obtain ⟨found, hfound, hpicks⟩ := exists_firstOutstanding? h
      refine ⟨found, ?_, hpicks⟩
      simp only [targetShare]
      rw [hfound]
      cases found <;> rfl
  -- The shares are named, since the relation takes them apart.
  obtain ⟨shares, hshares⟩ : ∃ l, l = c.shares := ⟨_, rfl⟩
  rw [← hshares] at hpicks ⊢
  cases hpicks with
  | none hnone => exact .inl ⟨hfound, hnone⟩
  | @some before after s hs hfirst =>
    exact .inr ⟨before, s, after, hfound, ⟨hshares.symm, hs, hfirst⟩⟩

/-- A request is for one share at most. -/
theorem Targets.share_eq {before before' after after' : List ChargeShare} {t : ChargeShare}
    (h : c.Targets requested before s after) (h' : c.Targets requested before' t after') :
    s = t := by
  -- Were one of them further on, the other would meet the request before it.
  rcases List.append_eq_append_iff.mp (h.shares.symm.trans h'.shares) with
    ⟨between, hbefore, hlist⟩ | ⟨between, hbefore, hlist⟩
  · cases between with
    | nil => exact (List.cons.inj hlist).1
    | cons u between =>
      have hmem : s ∈ before' := by
        rw [hbefore, (List.cons.inj hlist).1]
        exact List.mem_append_right _ List.mem_cons_self
      exact absurd h.meets (h'.first s hmem)
  · cases between with
    | nil => exact (List.cons.inj hlist).1.symm
    | cons u between =>
      have hmem : t ∈ before := by
        rw [hbefore, (List.cons.inj hlist).1]
        exact List.mem_append_right _ List.mem_cons_self
      exact absurd h'.meets (h.first t hmem)

theorem Targets.mem {before after : List ChargeShare} (h : c.Targets requested before s after) :
    s ∈ c.shares := h.shares ▸ List.mem_append_right _ List.mem_cons_self

theorem Targets.set {before after : List ChargeShare} (h : c.Targets requested before s after)
    (t : ChargeShare) : c.shares.set before.length t = before ++ t :: after := by
  rw [h.shares, List.set_append_right _ _ (Nat.le_refl _), Nat.sub_self, List.set_cons_zero]

namespace InRange

theorem own (h : c.InRange) : c.dues.InRange where
  fine a ha := h.fine a (List.mem_append_left _ ha)
  size := by
    have hsize := h.size
    have hshares := totalSize_nonneg (c.shares.flatMap fun s => s.dues.figures)
    rw [figures, totalSize_append] at hsize
    linarith
  nonneg := h.nonneg _ List.mem_cons_self

theorem share (h : c.InRange) (hs : s ∈ c.shares) : s.dues.InRange where
  fine a ha := h.fine a (List.mem_append_right _ (List.mem_flatMap.mpr ⟨s, hs, ha⟩))
  size := by
    have hsize := h.size
    have hown := totalSize_nonneg c.dues.figures
    have hshare := totalSize_flatMap_le (f := fun s : ChargeShare => s.dues.figures) hs
    rw [figures, totalSize_append] at hsize
    linarith
  nonneg := h.nonneg _ (List.mem_cons_of_mem _ (List.mem_map_of_mem hs))

/-- What is owed on a charge that is no installment fee can be waived. -/
theorem exists_waive_own (h : c.InRange) (hfee : c.isInstallmentFee = false)
    (howed : 0 < c.dues.owed) (requested : Option InstallmentNumber) :
    ∃ r, c.waive .active requested = .ok r ∧ c.WaivedBy requested r := by
  obtain ⟨o, ho, hfine, hvalue⟩ := exists_outstanding h.own.roomy
  have hplain : o.Plain 10 := hfine.plain (hvalue ▸ howed.le) (hvalue ▸ h.own.owed_lt)
  obtain ⟨recognized, part, hrecognized, hpart, hpartPlain, hcovered, hsplit⟩ :=
    h.own.exists_split hplain
  obtain ⟨waived, total, hwaived, htotal, hfine, htotalFine, hwaivedValue, htotalValue⟩ :=
    h.own.exists_grown hplain hpartPlain
  let d : Charge := { c with waived, unrecognizedSoFar := total.nonZero }
  have hafter : d.dues.Roomy ∧ d.dues.owed = 0 :=
    h.own.waiveAll rfl rfl rfl hfine (hvalue ▸ hwaivedValue)
  obtain ⟨rest, hrest, -, hrestValue⟩ := exists_outstanding hafter.1
  refine ⟨⟨d, none, o, recognized, part⟩, waive_own hfee ho (isZero_of_owed hvalue howed)
    hrecognized hpart hwaived htotal, .own hfee rfl ⟨hvalue ▸ howed, hvalue, hcovered, hsplit⟩
    ⟨⟨hfine, Money.fine_orZero fun _ => Money.fine_nonZero htotalFine⟩, hwaivedValue, ?_⟩
    ⟨rest, hrest, hrestValue.trans hafter.2⟩ rfl⟩
  exact (Money.value_orZero_nonZero total).trans htotalValue

/-- Of an installment fee on which something is owed, what is owed on the share that a request is
for can be waived. -/
theorem exists_waive_share (h : c.InRange) (hfee : c.isInstallmentFee = true)
    (howed : 0 < c.dues.owed) {before after : List ChargeShare}
    (htarget : c.targetShare requested = .ok (before.length, s))
    (htargets : c.Targets requested before s after) (hshare : 0 < s.dues.owed) :
    ∃ r, c.waive .active requested = .ok r ∧ c.WaivedBy requested r := by
  have hs : s.dues.InRange := h.share htargets.mem
  obtain ⟨o, ho, -, hvalue⟩ := exists_outstanding h.own.roomy
  obtain ⟨amount, hamount, hfine, hamountValue⟩ := exists_share_outstanding hs.roomy
  have hplain : amount.Plain 10 :=
    hfine.plain (hamountValue ▸ hshare.le) (hamountValue ▸ hs.owed_lt)
  obtain ⟨recognized, part, hrecognized, hpart, hpartPlain, hcovered, hsplit⟩ :=
    hs.exists_split hplain
  obtain ⟨waived, total, hwaived, htotal, hwaivedFine, htotalFine, hwaivedValue, htotalValue⟩ :=
    h.own.exists_grown hplain hpartPlain
  obtain ⟨shareWaived, shareTotal, hshareWaived, hshareTotal, hfine, hshareTotalFine,
    hshareWaivedValue, hshareTotalValue⟩ := hs.exists_grown hplain hpartPlain
  let t : ChargeShare := { s with waived := shareWaived, unrecognizedSoFar := some shareTotal }
  have hafter : t.dues.Roomy ∧ t.dues.owed = 0 :=
    hs.waiveAll rfl rfl rfl hfine (hamountValue ▸ hshareWaivedValue)
  obtain ⟨rest, hrest, -, hrestValue⟩ := exists_share_outstanding hafter.1
  refine ⟨⟨{ c with
      waived, unrecognizedSoFar := total.nonZero, shares := c.shares.set before.length t },
      some s.installment, amount, recognized, part⟩,
    waive_share hfee ho (isZero_of_owed hvalue howed) (waiveShare_eq htarget hamount
      (isZero_of_owed hamountValue hshare) hrecognized hpart hshareWaived hshareTotal) hpart hwaived
      htotal,
    .share hfee htargets rfl ⟨hamountValue ▸ hshare, hamountValue, hcovered, hsplit⟩
      ⟨⟨hwaivedFine, Money.fine_orZero fun _ => Money.fine_nonZero htotalFine⟩, hwaivedValue,
        (Money.value_orZero_nonZero total).trans htotalValue⟩
      (t := t) ⟨⟨hfine, hshareTotalFine⟩, hshareWaivedValue, hshareTotalValue⟩
      ⟨rest, hrest, hrestValue.trans hafter.2⟩ rfl (by rw [htargets.set])⟩

/-- A waiver covers what is owed, or it is refused for a reason. -/
theorem waive_cases (h : c.InRange) (status : LoanStatus) (requested : Option InstallmentNumber) :
    (∃ r, c.waive status requested = .ok r ∧ status = .active ∧ 0 < c.dues.owed ∧
        (c.isInstallmentFee = true → ∃ before s after, c.Targets requested before s after ∧
          0 < s.dues.owed) ∧ c.WaivedBy requested r) ∨
      ∃ reason, c.waive status requested = refuse reason ∧
        c.RefusesWaiver status requested reason := by
  -- The checks in the order in which they are made: the status, what is owed on the charge, the
  -- share, what is owed on the share.
  by_cases hstatus : status = .active
  · subst hstatus
    rcases (Dues.owed_nonneg c.dues).eq_or_lt with howed | howed
    · obtain ⟨o, ho, -, hvalue⟩ := exists_outstanding h.own.roomy
      exact .inr ⟨_, waive_of_settled ho (Money.isZero_iff_value.mpr (hvalue.trans howed.symm)),
        .settled rfl howed.symm⟩
    · cases hfee : c.isInstallmentFee with
      | false =>
        obtain ⟨r, hr, hwaived⟩ := h.exists_waive_own hfee howed requested
        exact .inl ⟨r, hr, rfl, howed, fun hfee => (nomatch hfee), hwaived⟩
      | true =>
        obtain ⟨o, ho, -, hvalue⟩ := exists_outstanding h.own.roomy
        have hz := isZero_of_owed hvalue howed
        rcases targetShare_cases (fun s hs => (h.share hs).roomy) requested with
          ⟨htarget, hnone⟩ | ⟨before, s, after, htarget, htargets⟩
        · refine .inr ⟨_, waive_refused hfee ho hz ?_, .missing rfl howed hfee hnone⟩
          rw [waiveShare, htarget]
          rfl
        · have hs := h.share htargets.mem
          rcases (Dues.owed_nonneg s.dues).eq_or_lt with hshare | hshare
          · obtain ⟨amount, hamount, -, hamountValue⟩ := exists_share_outstanding hs.roomy
            exact .inr ⟨_, waive_refused hfee ho hz (waiveShare_of_settled htarget hamount
              (Money.isZero_iff_value.mpr (hamountValue.trans hshare.symm))),
              .settledShare rfl howed hfee htargets hshare.symm⟩
          · obtain ⟨r, hr, hwaived⟩ := h.exists_waive_share hfee howed htarget htargets hshare
            exact .inl ⟨r, hr, rfl, howed, fun _ => ⟨before, s, after, htargets, hshare⟩, hwaived⟩
  · refine .inr ⟨_, ?_, .inactive hstatus⟩
    have hinactive : (!status.isActive) = true := by simpa [LoanStatus.isActive] using hstatus
    simp only [waive]
    rw [if_pos hinactive]
    rfl

theorem waivedBy (h : c.InRange) {status : LoanStatus} {r : Relief}
    (hr : c.waive status requested = .ok r) : c.WaivedBy requested r := by
  rcases h.waive_cases status requested with ⟨s, hs, -, -, -, hwaived⟩ | ⟨reason, hrefused, -⟩
  · exact Except.ok.inj (hs.symm.trans hr) ▸ hwaived
  · exact nomatch hr.symm.trans hrefused

end InRange

/-- In the exact range a charge of an active loan can be waived exactly when something is owed on it
and, of an installment fee, on the share that the request is for. A waiver covers all of that, and a
waiver that is refused is refused for what stands in its way first. -/
theorem waive_covers_or_refuses (h : c.InRange) (status : LoanStatus)
    (requested : Option InstallmentNumber) :
    ((∃ r, c.waive status requested = .ok r) ↔ status = .active ∧ 0 < c.dues.owed ∧
      (c.isInstallmentFee = true → ∃ before s after, c.Targets requested before s after ∧
        0 < s.dues.owed)) ∧
    (∀ r, c.waive status requested = .ok r → c.WaivedBy requested r) ∧
    ∀ f, c.waive status requested = .error f →
      ∃ reason, f = .refusal reason ∧ c.RefusesWaiver status requested reason := by
  refine ⟨⟨?_, fun ⟨hstatus, howed, htarget⟩ => ?_⟩, fun r hr => h.waivedBy hr, fun f hf => ?_⟩
  · rintro ⟨r, hr⟩
    rcases h.waive_cases status requested with
      ⟨_, -, hstatus, howed, htarget, -⟩ | ⟨reason, hrefused, -⟩
    · exact ⟨hstatus, howed, htarget⟩
    · exact nomatch hr.symm.trans hrefused
  · rcases h.waive_cases status requested with ⟨r, hr, -⟩ | ⟨reason, -, hrefuses⟩
    · exact ⟨r, hr⟩
    cases hrefuses with
    | inactive hinactive => exact absurd hstatus hinactive
    | settled _ hnone => exact absurd hnone howed.ne'
    | missing _ _ hfee hnone =>
      obtain ⟨before, s, after, hs, -⟩ := htarget hfee
      exact absurd hs.meets (hnone s hs.mem)
    | settledShare _ _ hfee ht hnone =>
      obtain ⟨before, s, after, hs, hshare⟩ := htarget hfee
      rw [hs.share_eq ht, hnone] at hshare
      exact absurd hshare (lt_irrefl 0)
  · rcases h.waive_cases status requested with ⟨r, hr, -⟩ | ⟨reason, hrefused, hrefuses⟩
    · exact nomatch hf.symm.trans hr
    · exact ⟨reason, Except.error.inj (hf.symm.trans hrefused), hrefuses⟩

end Charge

/-- A fee of 6.40, one half for each of two installments. Of the first half 2.20 have accrued and
1.10 was paid, and the second half was waived before any of it accrued. -/
def halfWaivedFee : Charge :=
  { splitFee with
    amount := cents 640
    paid := cents 110
    waived := cents 320
    accruedSoFar := some (cents 220)
    unrecognizedSoFar := some (cents 320)
    shares := [
      { ChargeShare.fresh 1 januaryRow.dueDate (cents 320) with
        paid := cents 110
        accruedSoFar := some (cents 220) },
      { ChargeShare.fresh 2 februaryRow.dueDate (cents 320) with
        waived := cents 320
        unrecognizedSoFar := some (cents 320) }] }

theorem inRange_halfWaivedFee : halfWaivedFee.InRange where
  fine := by unfold Money.Fine; decide +kernel
  size := by decide +kernel
  nonneg := by
    refine List.forall_mem_cons.mpr ⟨?_, List.forall_mem_cons.mpr
      ⟨?_, List.forall_mem_singleton.mpr ?_⟩⟩ <;>
      constructor <;> exact Money.value_nonneg_iff.mpr (by decide)

/-- The first half is what is waived when no installment is named; a third one there is not, and the
second was waived before. -/
theorem waive_covers_or_refuses_halfWaived :
    (∃ r, halfWaivedFee.waive .active none = .ok r ∧ halfWaivedFee.WaivedBy none r) ∧
    (∃ reason, halfWaivedFee.waive .active (some 3) = .error (.refusal reason) ∧
      halfWaivedFee.RefusesWaiver .active (some 3) reason) ∧
    ∃ reason, halfWaivedFee.waive .active (some 2) = .error (.refusal reason) ∧
      halfWaivedFee.RefusesWaiver .active (some 2) reason := by
  have hspec := Charge.waive_covers_or_refuses inRange_halfWaivedFee .active
  have hrefused : ∀ requested f, halfWaivedFee.waive .active requested = .error f →
      ∃ reason, halfWaivedFee.waive .active requested = .error (.refusal reason) ∧
        halfWaivedFee.RefusesWaiver .active requested reason := by
    intro requested f hf
    obtain ⟨reason, rfl, hreason⟩ := (hspec requested).2.2 f hf
    exact ⟨reason, hf, hreason⟩
  obtain ⟨r, hr⟩ := (hspec none).1.mpr ⟨rfl, by decide +kernel, fun _ => ⟨[], _, _,
    ⟨rfl, by show (0 : ℚ) < _; decide +kernel, List.forall_mem_nil _⟩, by decide +kernel⟩⟩
  exact ⟨⟨r, hr, (hspec none).2.1 r hr⟩, hrefused _ _ rfl, hrefused _ _ rfl⟩

end LoanLedger
