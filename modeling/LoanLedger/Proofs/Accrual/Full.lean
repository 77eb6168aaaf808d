import LoanLedger.Proofs.Accrual.Repeat

/-!
The whole income of a row. With amounts that are not negative every task lifts the columns of its
row towards what they come to in full, and no task lifts them beyond it; a task for the whole period
reaches it.
-/

set_option autoImplicit false
set_option relaxedAutoImplicit false

namespace LoanLedger

/-- Where nothing negative has accrued, what is missing is small and not negative. -/
theorem Portion.towards_delta {target accrued credited : Option Money} {x : Portion}
    (h : towards target accrued credited = .ok x) (hexact : Exact target accrued credited)
    (haccrued : 0 ≤ (Money.orZero accrued).value) :
    0 ≤ (Money.orZero x.delta).value ∧ (Money.orZero x.delta).value ≤ 21 * 10 ^ 17 := by
  cases target with
  | none =>
    rw [towards_none] at h
    cases h
    rw [Money.orZero_none, Money.value_zero]
    exact ⟨le_rfl, by norm_num⟩
  | some t =>
    obtain ⟨-, -, -, hdelta⟩ := towards_some_value h hexact
    have htarget := (le_abs_self _).trans hexact.target.size
    have hcredited := (neg_le_abs _).trans hexact.credited.size
    rw [Money.orZero_some] at htarget
    rw [hdelta]
    exact ⟨le_max_right _ _, max_le (by linarith) (by norm_num)⟩

/-- A portion lifts the column to the target, less what was credited. -/
theorem Portion.towards_lift {target accrued credited : Option Money} {x : Portion}
    (h : towards target accrued credited = .ok x) (hexact : Exact target accrued credited)
    (haccrued : 0 ≤ (Money.orZero accrued).value) (hcredited : 0 ≤ (Money.orZero credited).value) :
    (Money.orZero x.total).value =
      max (Money.orZero accrued).value
        ((Money.orZero target).value - (Money.orZero credited).value) := by
  cases target with
  | none =>
    rw [towards_none] at h
    cases h
    rw [Money.orZero_none, Money.value_zero]
    exact (max_eq_left (by linarith)).symm
  | some t => exact (towards_some_value h hexact).2.2.1

namespace Targets.Settle

variable {x : Targets} {row : ScheduleRow} {parts : PreparedAccrual.Portions} {o : Option Posting}

private theorem delta_eq_zero (h : x.Settle row parts none)
    (hfine : ∀ c, (Money.orZero (parts.of c).delta).Fine)
    (hdelta : ∀ c, 0 ≤ (Money.orZero (parts.of c).delta).value ∧
      (Money.orZero (parts.of c).delta).value ≤ 21 * 10 ^ 17) (c : Column) :
    (Money.orZero (parts.of c).delta).value = 0 := by
  obtain ⟨amount, hamount, hpos⟩ := h.amount
  obtain ⟨part, hpart, hamount⟩ := bind_eq_ok.mp hamount
  obtain ⟨hinterest, hinterestLe⟩ := hdelta .interest
  obtain ⟨hfee, hfeeLe⟩ := hdelta .fee
  obtain ⟨hpenalty, hpenaltyLe⟩ := hdelta .penalty
  have hroom : Money.room = 7 * 10 ^ 18 := rfl
  obtain ⟨hpartFine, hpartValue⟩ : part.Fine ∧ part.value =
      (Money.orZero (parts.of .interest).delta).value +
        (Money.orZero (parts.of .fee).delta).value :=
    Money.add_value hpart (hfine .interest) (hfine .fee)
      (by rw [abs_of_nonneg (by linarith)]; linarith)
  obtain ⟨-, hamountValue⟩ : amount.Fine ∧ amount.value =
      part.value + (Money.orZero (parts.of .penalty).delta).value :=
    Money.add_value hamount hpartFine (hfine .penalty)
      (by rw [hpartValue, abs_of_nonneg (by linarith)]; linarith)
  have hle : amount.value ≤ 0 := by
    apply not_lt.mp
    intro hlt
    have hpositive := (Money.isPositive_iff amount).mpr (Money.value_pos_iff.mp hlt)
    rw [hpos] at hpositive
    cases hpositive
  rw [hamountValue, hpartValue] at hle
  cases c with
  | interest => linarith
  | fee => linarith
  | penalty => linarith

/-- A task lifts a column to its target, less what was credited, whether or not there is anything to
post. -/
theorem accrued_after (h : x.Settle row parts o)
    (hexact : ∀ c, Portion.Exact (x.of c) (row.accrued c) (row.credited c))
    (haccrued : ∀ c, 0 ≤ (Money.orZero (row.accrued c)).value) {c : Column}
    (hcredited : 0 ≤ (Money.orZero (row.credited c)).value) :
    Small (21 * 10 ^ 17) ((row.after o).accrued c) ∧
      (Money.orZero ((row.after o).accrued c)).value = max (Money.orZero (row.accrued c)).value
        ((Money.orZero (x.of c)).value - (Money.orZero (row.credited c)).value) := by
  have hlift := Portion.towards_lift (h.towards c) (hexact c) (haccrued c) hcredited
  obtain ⟨hsmall, -, hvalue⟩ := Portion.towards_exact (h.towards c) (hexact c)
  cases o with
  | none =>
    have hzero := h.delta_eq_zero
      (fun c => (Portion.towards_exact (h.towards c) (hexact c)).2.1.fine)
      (fun c => Portion.towards_delta (h.towards c) (hexact c) (haccrued c)) c
    rw [hzero, add_zero] at hvalue
    exact ⟨(hexact c).accrued, hvalue.symm.trans hlift⟩
  | some y =>
    have htotal : (row.after (some y)).accrued c = (parts.of c).total :=
      (Loan.accrued_settle y row c).trans (h.posting y rfl c).2
    rw [htotal]
    exact ⟨hsmall, hlift⟩

end Targets.Settle

namespace ScheduleRow

/-- A row whose columns, together with what was credited, have reached the targets. -/
def Meets (row : ScheduleRow) (x : Targets) : Prop :=
  ∀ c, (Money.orZero (x.of c)).value ≤
    (Money.orZero (row.accrued c)).value + (Money.orZero (row.credited c)).value

/-- What a column comes to when it reaches its target, less what was credited; it keeps what it has
if that is more. -/
def full (row : ScheduleRow) (x : Targets) (c : Column) : ℚ :=
  max (Money.orZero (row.accrued c)).value
    ((Money.orZero (x.of c)).value - (Money.orZero (row.credited c)).value)

/-- A row that was lifted to targets: its columns came to them, less what was credited, or kept what
they had if that is more. -/
structure LiftedTo (x : Targets) (row row' : ScheduleRow) : Prop where
  terms : row.SameTerms row'
  small : ∀ c, Small (21 * 10 ^ 17) (row'.accrued c)
  value : ∀ c, (Money.orZero (row'.accrued c)).value = row.full x c

/-- A row on its way: the columns hold no less than at the start, and no more than they come to
when the whole of their income has accrued. -/
structure Approaches (row₀ : ScheduleRow) (whole : Except Fault Targets) (row : ScheduleRow) :
    Prop where
  terms : row₀.SameTerms row
  small : ∀ c, Small (21 * 10 ^ 17) (row.accrued c)
  le_accrued : ∀ c, (Money.orZero (row₀.accrued c)).value ≤ (Money.orZero (row.accrued c)).value
  le_full : ∀ x, whole = .ok x → ∀ c, (Money.orZero (row.accrued c)).value ≤ row₀.full x c

/-- The columns of a row when the whole of their income has accrued. -/
def CaughtUp (row₀ : ScheduleRow) (whole : Except Fault Targets) (row : ScheduleRow) : Prop :=
  ∃ x, whole = .ok x ∧ ∀ c, (Money.orZero (row.accrued c)).value = row₀.full x c

variable {row₀ row row' : ScheduleRow} {whole : Except Fault Targets} {x : Targets}

theorem LiftedTo.le_accrued (h : row.LiftedTo x row') (c : Column) :
    (Money.orZero (row.accrued c)).value ≤ (Money.orZero (row'.accrued c)).value := by
  rw [h.value]
  exact le_max_left _ _

theorem LiftedTo.meets (h : row.LiftedTo x row') : row'.Meets x := by
  intro c
  rw [h.value, h.terms.credited c]
  have hreached := le_max_right (Money.orZero (row.accrued c)).value
    ((Money.orZero (x.of c)).value - (Money.orZero (row.credited c)).value)
  rw [full]
  linarith

theorem Meets.mono {y : Targets} (h : row.Meets y)
    (hle : ∀ c, (Money.orZero (x.of c)).value ≤ (Money.orZero (y.of c)).value) : row.Meets x :=
  fun c => (hle c).trans (h c)

/-- From a column that has reached its target nothing is missing. -/
theorem Meets.delta_eq_none {part : Portion} (h : row.Meets x) {c : Column}
    (hpart : Portion.towards (x.of c) (row.accrued c) (row.credited c) = .ok part)
    (hexact : Portion.Exact (x.of c) (row.accrued c) (row.credited c)) : part.delta = none := by
  have hmeets := h c
  cases htarget : x.of c with
  | none =>
    rw [htarget, Portion.towards_none] at hpart
    cases hpart
    rfl
  | some t =>
    rw [htarget] at hpart hexact hmeets
    rw [Money.orZero_some] at hmeets
    obtain ⟨-, -, -, hdelta⟩ := Portion.towards_some_value hpart hexact
    apply Portion.towards_delta_eq_none hpart
    rw [hdelta]
    exact max_eq_right (by linarith)

theorem Approaches.refl (h : row.InRange) : row.Approaches whole row where
  terms := .refl row
  small c := (h.small_accrued c).mono (by norm_num)
  le_accrued _ := le_rfl
  le_full _ _ _ := le_max_left _ _

/-- A row that is lifted to less than the whole of its income stays on its way. -/
theorem Approaches.lifted (h : row₀.Approaches whole row) (hlift : row.LiftedTo x row')
    (hle : ∀ y, whole = .ok y → ∀ c, (Money.orZero (x.of c)).value ≤ (Money.orZero (y.of c)).value) :
    row₀.Approaches whole row' where
  terms := h.terms.trans hlift.terms
  small := hlift.small
  le_accrued c := (h.le_accrued c).trans (hlift.le_accrued c)
  le_full y hy c := by
    rw [hlift.value]
    refine max_le (h.le_full y hy c) (le_trans ?_ (le_max_right _ _))
    rw [h.terms.credited c]
    exact sub_le_sub_right (hle y hy c) _

theorem Approaches.caughtUp (h : row₀.Approaches whole row) (hx : whole = .ok x)
    (hlift : row.LiftedTo x row') : row₀.CaughtUp whole row' := by
  refine ⟨x, hx, fun c => ?_⟩
  rw [hlift.value]
  refine le_antisymm (max_le (h.le_full x hx c) (le_trans ?_ (le_max_right _ _)))
    (max_le ((h.le_accrued c).trans (le_max_left _ _)) (le_trans ?_ (le_max_right _ _)))
  · rw [h.terms.credited c]
  · rw [h.terms.credited c]

end ScheduleRow

namespace AccrualInput

variable {input : AccrualInput} {s : Settings} {processedOn : Date} {cs ds : List Charge}
  {row₀ row : ScheduleRow} {id : TransactionId} {e : Extent} {p : PreparedAccrual}
  {o : Option Posting} {x y : Targets}

theorem targets_le_whole (hin : input.InRange cs row) (hn : input.Nonneg cs row) (hfits : e.Fits row)
    (hx : input.targets s cs row e = .ok x)
    (hy : input.targets s cs row (.whole row.dueDate) = .ok y) (c : Column) :
    (Money.orZero (x.of c)).value ≤ (Money.orZero (y.of c)).value := by
  cases e with
  | whole till =>
    rw [targets_whole hfits, hy] at hx
    rw [Except.ok.inj hx]
  | upTo till =>
    refine targets_mono hin hn hfits ?_ hx hy c
    exact Int.le_of_lt hfits

/-- A task lifts a column of its row to the target of its extent, on a row and charges that kept their
terms and where nothing negative has accrued. -/
theorem accrued_of_propose (hin : input.InRange cs row₀) (hrow : row₀.SameTerms row)
    (hds : List.Forall₂ Charge.SameTerms cs ds) (hsmall : ∀ c, Small (21 * 10 ^ 17) (row.accrued c))
    (haccrued : ∀ c, 0 ≤ (Money.orZero (row.accrued c)).value)
    (hpropose : input.propose s processedOn ds id row e = .ok (p, o)) :
    ∃ x, input.targets s cs row₀ e = .ok x ∧
      ∀ c, 0 ≤ (Money.orZero (row.credited c)).value →
        Small (21 * 10 ^ 17) ((row.after o).accrued c) ∧
          (Money.orZero ((row.after o).accrued c)).value = row.full x c := by
  obtain ⟨x, parts, hx, hsettle, hexact⟩ := settle_of_propose hin hrow hds hsmall hpropose
  exact ⟨x, hx, fun c hcredited => hsettle.accrued_after hexact haccrued hcredited⟩

end AccrualInput
end LoanLedger
