import LoanLedger.Proofs.Charge.Waiver

/-!
The undoing of a waiver. Where nothing had been waived before, what a waiver changed is changed
back, on the charge and on the share that was waived, and the same figures are reported.
-/

set_option autoImplicit false
set_option relaxedAutoImplicit false

namespace LoanLedger

/-- A share as it was before, but for how what was waived on it is written. -/
structure ChargeShare.Restored (s t : ChargeShare) : Prop where
  relieved : s.Relieved t
  waived : t.waived ≈ s.waived
  unrecognized : Option.Rel (· ≈ ·) t.unrecognizedSoFar s.unrecognizedSoFar

theorem ChargeShare.Restored.refl (s : ChargeShare) : s.Restored s :=
  ⟨rfl, Money.equiv_iff_value.mpr rfl, by
    cases s.unrecognizedSoFar with
    | none => exact .none
    | some a => exact .some (Money.equiv_iff_value.mpr rfl)⟩

/-- A charge as it was before, but for how what was waived on it, and on its shares, is written. -/
structure Charge.Restored (c d : Charge) : Prop where
  relieved : c.Relieved d
  waived : d.waived ≈ c.waived
  unrecognized : Option.Rel (· ≈ ·) d.unrecognizedSoFar c.unrecognizedSoFar
  shares : List.Forall₂ ChargeShare.Restored c.shares d.shares

/-- The same figures as another waiver, or its undoing. -/
structure Relief.Reports (u r : Relief) : Prop where
  amount : u.amount ≈ r.amount
  recognized : u.recognized ≈ r.recognized
  unrecognized : u.unrecognized ≈ r.unrecognized

/-- Nothing was waived of what a request is for: of a charge or, where it is an installment fee, of
the share. -/
structure Charge.Unwaived (c : Charge) (requested : Option InstallmentNumber) : Prop where
  own : c.isInstallmentFee = false → c.waived.value = 0 ∧ c.unrecognizedSoFar = none
  share : c.isInstallmentFee = true → ∀ before s after, c.Targets requested before s after →
    s.waived.value = 0 ∧ s.unrecognizedSoFar = none

namespace Money

theorem rel_nonZero {m : Money} {o : Option Money} (hm : m.value = (orZero o).value)
    (ho : ∀ a ∈ o, 0 < a.value) : Option.Rel (· ≈ ·) m.nonZero o := by
  cases o with
  | none =>
    rw [orZero_none, value_zero] at hm
    rw [nonZero, if_pos (isZero_iff_value.mpr hm)]
    exact .none
  | some a =>
    rw [orZero_some] at hm
    have hpos : 0 < m.value := hm ▸ ho a rfl
    rw [nonZero, if_neg fun hz => hpos.ne' (isZero_iff_value.mp hz)]
    exact .some (equiv_iff_value.mpr hm)

theorem exists_monus_of_grown {a b : Money} {v : ℚ} (ha : a.Fine) (hb : b.Fine)
    (h : a.value = v + b.value) (hv : 0 ≤ v) (hsmall : v < 10 ^ 18) :
    ∃ c, a.monus b = .ok c ∧ c.value = v := by
  have hleft : a.value - b.value = v := by rw [h, add_sub_cancel_right]
  obtain ⟨c, hc, -, hvalue⟩ := monus_exact ha hb
    (by rw [hleft, abs_of_nonneg hv]; unfold room; linarith)
  exact ⟨c, hc, by rw [hvalue, hleft, max_eq_left hv]⟩

end Money

namespace Charge

variable {c : Charge} {s : ChargeShare} {requested : Option InstallmentNumber}
  {n : InstallmentNumber} {i : Nat} {recognized waived rest : Money}

/-! What the undoing of a waiver comes to, given the figures that it works with. -/

theorem undoWaive_own (hfee : c.isInstallmentFee = false) (hpos : c.waived.isPositive = true)
    (hwaived : c.waived.monus c.waived = .ok waived)
    (hrest : c.unrecognized.monus c.unrecognized = .ok rest)
    (hrecognized : c.waived.sub c.unrecognized = .ok recognized) :
    c.undoWaive .active requested = .ok ⟨{ c with waived, unrecognizedSoFar := rest.nonZero }, none,
      c.waived, recognized, c.unrecognized⟩ := by
  simp only [undoWaive]
  refine unless_refused_eq_ok.mpr ⟨by decide, unless_refused_eq_ok.mpr ⟨by simp [hpos], ?_⟩⟩
  rw [if_neg (Bool.not_eq_true _ ▸ hfee), if_neg (Bool.not_eq_true _ ▸ hfee)]
  exact bind_eq_ok.mpr ⟨_, rfl, bind_eq_ok.mpr ⟨waived, lift_fault_eq_ok.mpr hwaived,
    bind_eq_ok.mpr ⟨rest, lift_fault_eq_ok.mpr hrest,
      bind_eq_ok.mpr ⟨recognized, lift_fault_eq_ok.mpr hrecognized, rfl⟩⟩⟩⟩

theorem undoWaive_share (hfee : c.isInstallmentFee = true) (hpos : c.waived.isPositive = true)
    (hat : shareAt? n c.shares = some (i, s)) (hshare : s.waived.isPositive = true)
    (hwaived : c.waived.monus s.waived = .ok waived)
    (hrest : c.unrecognized.monus s.unrecognized = .ok rest)
    (hrecognized : s.waived.sub s.unrecognized = .ok recognized) :
    c.undoWaive .active (some n) = .ok ⟨{ c with
      waived := waived
      unrecognizedSoFar := rest.nonZero
      shares := c.shares.set i { s with waived := .zero, unrecognizedSoFar := none } }, some n,
      s.waived, recognized, s.unrecognized⟩ := by
  have hrestore : c.restoreShare (some n) = .ok ({ c with
      shares := c.shares.set i { s with waived := .zero, unrecognizedSoFar := none } },
      s.waived, s.unrecognized) := by
    simp only [restoreShare]
    rw [hat]
    exact if_neg (by simp [hshare])
  simp only [undoWaive]
  refine unless_refused_eq_ok.mpr ⟨by decide, unless_refused_eq_ok.mpr ⟨by simp [hpos], ?_⟩⟩
  rw [if_pos hfee, if_pos hfee, hrestore]
  exact bind_eq_ok.mpr ⟨_, rfl, bind_eq_ok.mpr ⟨waived, lift_fault_eq_ok.mpr hwaived,
    bind_eq_ok.mpr ⟨rest, lift_fault_eq_ok.mpr hrest,
      bind_eq_ok.mpr ⟨recognized, lift_fault_eq_ok.mpr hrecognized, rfl⟩⟩⟩⟩

theorem shareAt?_append {before after : List ChargeShare}
    (hfirst : ∀ t ∈ before, t.installment ≠ n) (hs : s.installment = n) :
    shareAt? n (before ++ s :: after) = some (before.length, s) := by
  induction before with
  | nil => exact if_pos hs
  | cons t before ih =>
    obtain ⟨ht, hfirst⟩ := List.forall_mem_cons.mp hfirst
    rw [List.cons_append, shareAt?, if_neg ht, ih hfirst]
    rfl

end Charge

namespace Relief

variable {r : Relief} {d e : Dues}

theorem Covers.recognized_nonneg (h : r.Covers d) : 0 ≤ r.recognized.value := by
  rw [h.recognized]
  exact le_min h.positive.le (le_max_left _ _)

/-- Dues on which a waiver is all that was ever waived. -/
structure Shown (r : Relief) (e : Dues) : Prop where
  fine : e.waived.Fine ∧ e.unrecognized.Fine
  waived : e.waived.value = r.amount.value
  unrecognized : e.unrecognized.value = r.unrecognized.value

theorem Grows.shown (h : r.Grows d e) (hwaived : d.waived.value = 0)
    (hunrecognized : d.unrecognized.value = 0) : r.Shown e where
  fine := h.fine
  waived := by rw [h.waived, hwaived, zero_add]
  unrecognized := by rw [h.unrecognized, hunrecognized, zero_add]

theorem Shown.exists_recognized (h : r.Shown e) (hr : r.Covers d) (hd : d.InRange) :
    ∃ m, e.waived.sub e.unrecognized = .ok m ∧ m ≈ r.recognized := by
  have hvalue : e.waived.value - e.unrecognized.value = r.recognized.value := by
    rw [h.waived, h.unrecognized]
    linarith [hr.split]
  have hsmall : r.recognized.value < 10 ^ 18 := by
    have hle : r.recognized.value ≤ r.amount.value := hr.recognized ▸ min_le_left _ _
    exact hle.trans_lt (hr.amount ▸ hd.owed_lt)
  obtain ⟨m, hm, -, hmValue⟩ := Money.sub_exact h.fine.1 h.fine.2
    (by rw [hvalue, abs_of_nonneg hr.recognized_nonneg]; unfold Money.room; linarith)
  exact ⟨m, hm, Money.equiv_iff_value.mpr (hmValue.trans hvalue)⟩

theorem Shown.exists_takenBack (h : r.Shown e) {x y : Dues} (hx : x.InRange) (hg : r.Grows x y) :
    ∃ waived rest, y.waived.monus e.waived = .ok waived ∧
      y.unrecognized.monus e.unrecognized = .ok rest ∧ waived.value = x.waived.value ∧
      rest.value = x.unrecognized.value := by
  obtain ⟨-, hwaivedPlain, -, hunrecognizedPlain⟩ := hx.plain
  obtain ⟨waived, hwaived, hwaivedValue⟩ := Money.exists_monus_of_grown hg.fine.1 h.fine.1
    (by rw [hg.waived, h.waived]) hwaivedPlain.nonneg hwaivedPlain.small
  obtain ⟨rest, hrest, hrestValue⟩ := Money.exists_monus_of_grown hg.fine.2 h.fine.2
    (by rw [hg.unrecognized, h.unrecognized]) hunrecognizedPlain.nonneg hunrecognizedPlain.small
  exact ⟨waived, rest, hwaived, hrest, hwaivedValue, hrestValue⟩

end Relief

namespace Charge

variable {c d : Charge} {requested : Option InstallmentNumber} {r : Relief}
  {before after : List ChargeShare} {s t : ChargeShare}

theorem Targets.getElem? (h : c.Targets requested before s after) :
    c.shares[before.length]? = some s := by
  rw [h.shares, List.getElem?_append_right (Nat.le_refl _), Nat.sub_self]
  rfl

/-- Where installments differ, none before the share that a request is for has its installment. -/
theorem Targets.installment_ne (h : c.Targets requested before s after)
    (hids : (c.shares.map (·.installment)).Nodup) :
    ∀ t ∈ before, t.installment ≠ s.installment := by
  intro t ht
  rw [h.shares, List.map_append, List.nodup_append] at hids
  exact hids.2.2 _ (List.mem_map_of_mem ht) _ (List.mem_map_of_mem List.mem_cons_self)

/-- The waiver of a charge that is no installment fee is undone. -/
private theorem exists_undoWaive_own (h : c.InRange)
    (hunrecognized : ∀ a ∈ c.unrecognizedSoFar, 0 < a.value) (hfee : c.isInstallmentFee = false)
    (hnothing : c.waived.value = 0 ∧ c.unrecognizedSoFar = none) (hcovers : r.Covers c.dues)
    (hgrows : r.Grows c.dues d.dues) (hd : d = { c with
      waived := d.waived, unrecognizedSoFar := d.unrecognizedSoFar }) :
    ∃ u, d.undoWaive .active none = .ok u ∧ u.installment = none ∧ u.Reports r ∧
      c.Restored u.charge := by
  obtain ⟨hwaived, hnone⟩ := hnothing
  have hshown : r.Shown d.dues := hgrows.shown hwaived (by simp [dues, unrecognized, hnone])
  obtain ⟨recognized, hrecognized, hrecognizedValue⟩ := hshown.exists_recognized hcovers h.own
  obtain ⟨waived, rest, hmonus, hrest, hwaivedValue, hrestValue⟩ :=
    hshown.exists_takenBack h.own hgrows
  have hpos : d.waived.isPositive = true :=
    Money.isPositive_iff_value.mpr (hshown.waived ▸ hcovers.positive)
  refine ⟨_, undoWaive_own (hd ▸ hfee) hpos hmonus hrest hrecognized, rfl,
    ⟨Money.equiv_iff_value.mpr hshown.waived, hrecognizedValue,
      Money.equiv_iff_value.mpr hshown.unrecognized⟩, ?_⟩
  rw [hd]
  exact ⟨⟨rfl, List.forall₂_same.mpr fun _ _ => rfl⟩, Money.equiv_iff_value.mpr hwaivedValue,
    Money.rel_nonZero hrestValue hunrecognized, List.forall₂_same.mpr fun _ _ => .refl _⟩

/-- The waiver of one share is undone. -/
private theorem exists_undoWaive_share (h : c.InRange) (hids : (c.shares.map (·.installment)).Nodup)
    (hunrecognized : ∀ a ∈ c.unrecognizedSoFar, 0 < a.value) (hfee : c.isInstallmentFee = true)
    (htarget : c.Targets requested before s after)
    (hnothing : s.waived.value = 0 ∧ s.unrecognizedSoFar = none) (hcovers : r.Covers s.dues)
    (hgrows : r.Grows c.dues d.dues) (hshareGrows : r.Grows s.dues t.dues) (ht : s.Relieved t)
    (hd : d = { c with
      waived := d.waived
      unrecognizedSoFar := d.unrecognizedSoFar
      shares := before ++ t :: after }) :
    ∃ u, d.undoWaive .active (some s.installment) = .ok u ∧ u.installment = some s.installment ∧
      u.Reports r ∧ c.Restored u.charge := by
  obtain ⟨hwaived, hnone⟩ := hnothing
  have hs := h.share htarget.mem
  have hshown : r.Shown t.dues :=
    hshareGrows.shown hwaived (by simp [ChargeShare.dues, ChargeShare.unrecognized, hnone])
  obtain ⟨recognized, hrecognized, hrecognizedValue⟩ := hshown.exists_recognized hcovers hs
  obtain ⟨waived, rest, hmonus, hrest, hwaivedValue, hrestValue⟩ :=
    hshown.exists_takenBack h.own hgrows
  have hshare : t.waived.isPositive = true :=
    Money.isPositive_iff_value.mpr (hshown.waived ▸ hcovers.positive)
  have hpos : d.waived.isPositive = true := by
    have hvalue : d.waived.value = c.waived.value + r.amount.value := hgrows.waived
    rw [Money.isPositive_iff_value, hvalue]
    exact add_pos_of_nonneg_of_pos h.own.nonneg.waived hcovers.positive
  have hat : shareAt? s.installment d.shares = some (before.length, t) := by
    rw [hd]
    exact shareAt?_append (htarget.installment_ne hids) (congrArg (·.installment) ht)
  refine ⟨_, undoWaive_share (hd ▸ hfee) hpos hat hshare hmonus hrest hrecognized, rfl,
    ⟨Money.equiv_iff_value.mpr hshown.waived, hrecognizedValue,
      Money.equiv_iff_value.mpr hshown.unrecognized⟩, ?_⟩
  have hrestored : s.Restored { t with waived := .zero, unrecognizedSoFar := none } := by
    refine ⟨?_, Money.equiv_iff_value.mpr (Money.value_zero.trans hwaived.symm), ?_⟩
    · rw [ht]
      rfl
    · rw [hnone]
      exact .none
  -- The undoing clears the share; it is the one before the waiver only as nothing was waived of it.
  have hshares := forall₂_set (R := ChargeShare.Restored) (fun _ => .refl _) htarget.getElem?
    hrestored
  rw [hd]
  dsimp only
  rw [← htarget.set t, List.set_set]
  exact ⟨⟨rfl, hshares.imp fun _ _ h => h.relieved⟩, Money.equiv_iff_value.mpr hwaivedValue,
    Money.rel_nonZero hrestValue hunrecognized, hshares⟩

/-- A waiver on an active loan is undone by asking for the installment that it reported. Where
nothing had been waived before of what the request was for, the undoing reports the same figures,
and leaves the charge as it was before the waiver. -/
theorem undoWaive_waive (h : c.InRange) (hids : (c.shares.map (·.installment)).Nodup)
    (hunrecognized : ∀ a ∈ c.unrecognizedSoFar, 0 < a.value) (hunwaived : c.Unwaived requested)
    (hr : c.waive .active requested = .ok r) :
    ∃ u, r.charge.undoWaive .active r.installment = .ok u ∧ u.installment = r.installment ∧
      u.Reports r ∧ c.Restored u.charge := by
  cases h.waivedBy hr with
  | own hfee hinstallment hcovers hgrows _ hrest =>
    rw [hinstallment]
    exact exists_undoWaive_own h hunrecognized hfee (hunwaived.own hfee) hcovers hgrows hrest
  | share hfee htarget hinstallment hcovers hgrows hshareGrows _ hshareRest hrest =>
    rw [hinstallment]
    exact exists_undoWaive_share h hids hunrecognized hfee htarget
      (hunwaived.share hfee _ _ _ htarget) hcovers hgrows hshareGrows hshareRest hrest

end Charge

/-- The first half of the fee is waived and the waiver undone; the second half stays waived. -/
theorem undoWaive_waive_halfWaived : ∃ r u, halfWaivedFee.waive .active none = .ok r ∧
    r.installment = some 1 ∧ r.charge.undoWaive .active r.installment = .ok u ∧
    u.Reports r ∧ halfWaivedFee.Restored u.charge := by
  obtain ⟨r, hr, hfirst⟩ : ∃ r, halfWaivedFee.waive .active none = .ok r ∧ r.installment = some 1 :=
    ⟨_, rfl, rfl⟩
  have hunwaived : halfWaivedFee.Unwaived none := by
    refine ⟨fun hfee => (nomatch hfee), fun _ before s after hs => ?_⟩
    have htarget : halfWaivedFee.Targets none [] _ _ :=
      ⟨rfl, by show (0 : ℚ) < _; decide +kernel, List.forall_mem_nil _⟩
    rw [hs.share_eq htarget]
    exact ⟨Money.value_zero, rfl⟩
  have hpositive : ∀ a ∈ halfWaivedFee.unrecognizedSoFar, 0 < a.value := by
    rintro a ⟨⟩
    decide +kernel
  obtain ⟨u, hu, -, hreports, hrestored⟩ :=
    Charge.undoWaive_waive inRange_halfWaivedFee (by decide) hpositive hunwaived hr
  exact ⟨r, u, hr, hfirst, hu, hreports, hrestored⟩

end LoanLedger
