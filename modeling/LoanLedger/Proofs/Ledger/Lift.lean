import LoanLedger.Proofs.Accrual.Full

/-!
What a turn does to the rows of a loan in range. A row that the plan takes up is lifted to the
targets of its extent, and every other row stays as it is. The loan keeps its terms, and its columns
stay small and hold nothing negative.
-/

set_option autoImplicit false
set_option relaxedAutoImplicit false

namespace LoanLedger.Loan

/-- A loan without negative amounts, on whose charges no more was waived than they amount to. -/
structure Nonneg (loan : Loan) : Prop where
  amounts : ∀ a ∈ loan.amounts, 0 ≤ a.value
  covered : ∀ c ∈ loan.charges, c.Covered

/-- The targets of a row of a loan under an extent. -/
def targets (loan : Loan) (s : Settings) (row : ScheduleRow) (e : Extent) : Except Fault Targets :=
  (loan.inputOn loan.id []).targets s loan.charges row e

/-- A loan whose columns are small and hold nothing negative. -/
structure Sized (loan : Loan) : Prop where
  small : ∀ row ∈ loan.schedule, ∀ c, Small (21 * 10 ^ 17) (row.accrued c)
  nonneg : ∀ row ∈ loan.schedule, ∀ c, 0 ≤ (Money.orZero (row.accrued c)).value

variable {s : Settings} {t : RunTerms} {id : LoanId} {loan₀ loan loan' : Loan}
  {rows : List ScheduleRow} {row₀ row : ScheduleRow} {e : Extent} {r : AccrualResult}

theorem Nonneg.orZero (h : loan.Nonneg) (hrow : row ∈ loan.schedule) {o : Option Money}
    (ho : ∀ a, o = some a → a ∈ row.amounts) : 0 ≤ (Money.orZero o).value := by
  cases o with
  | none => rw [Money.orZero_none, Money.value_zero]
  | some a => exact h.amounts a (List.mem_append_left _ (List.mem_append_left _
      (List.mem_flatMap.mpr ⟨row, hrow, ho a rfl⟩)))

theorem Nonneg.withCharges {cs ds : List Charge} (h : ({ loan with charges := cs } : Loan).Nonneg)
    (hsub : ds ⊆ cs) : ({ loan with charges := ds } : Loan).Nonneg where
  amounts a ha := h.amounts a (mem_amounts_of_charges hsub ha)
  covered c hc := h.covered c (hsub hc)

theorem sized_of_inRange (hin : loan.InRange) (hn : loan.Nonneg) : loan.Sized where
  small _ hrow c := ((hin.row hrow).small_accrued c).mono (by norm_num)
  nonneg _ hrow _ := hn.orZero hrow fun _ ha => ScheduleRow.mem_amounts_of_accrued ha

theorem SameTerms.inputNonneg (h : loan₀.SameTerms loan) (hn : loan₀.Nonneg)
    (hrow : row ∈ loan₀.schedule) : (loan.inputOn id rows).Nonneg loan₀.charges row where
  income a ha := hn.orZero (o := some a) hrow fun b hb =>
    Option.some.inj hb ▸ ScheduleRow.mem_amounts.mpr (.inl ha)
  accrued _ := hn.orZero hrow fun _ ha => ScheduleRow.mem_amounts_of_accrued ha
  credited _ := hn.orZero hrow fun _ ha => ScheduleRow.mem_amounts_of_credited ha
  periods p hp := by
    have hp : p ∈ loan₀.waivedPeriods := h.waivedPeriods ▸ hp
    exact hn.amounts _ (List.mem_append_right _ (List.mem_append_left _ (List.mem_map_of_mem hp)))
  waivers a ha := by
    have ha : a ∈ loan₀.waivers.flatMap InterestWaiver.amounts := h.waivers ▸ ha
    exact hn.amounts _ (List.mem_append_right _ (List.mem_append_right _ ha))
  charges := hn.covered

/-- The targets of a row depend on its terms alone. -/
theorem targets_congr (loan : Loan) {row row' : ScheduleRow} (h : row.SameTerms row') :
    loan.targets s row' e = loan.targets s row e :=
  AccrualInput.targets_congr h (Charge.forall₂_sameTerms_refl _)

theorem targets_without {cs ds : List Charge} {c : Charge} {x : Targets}
    (hin : ({ loan with charges := cs ++ c :: ds } : Loan).InRange)
    (hn : ({ loan with charges := cs ++ c :: ds } : Loan).Nonneg) (hrow : row ∈ loan.schedule)
    (hc : ∀ m, c.incomeIn s.policy row (e.window row) = .ok m → m.value = 0)
    (h : ({ loan with charges := cs ++ c :: ds } : Loan).targets s row e = .ok x) :
    ∃ y, ({ loan with charges := cs ++ ds } : Loan).targets s row e = .ok y ∧
      ∀ c, (Money.orZero (x.of c)).value ≤ (Money.orZero (y.of c)).value := by
  obtain ⟨y, hy, hle⟩ :=
    AccrualInput.targets_without ((SameTerms.refl _).inputInRange hin hrow) hn.covered hc h
  exact ⟨y, hy, hle⟩

theorem SameTerms.targets_eq (h : loan₀.SameTerms loan) (id : LoanId) (rows : List ScheduleRow)
    (row : ScheduleRow) (e : Extent) :
    loan₀.targets s row e = (loan.inputOn id rows).targets s loan₀.charges row e := by
  simp only [targets, inputOn, AccrualInput.targets]
  rw [h.waivedPeriods, h.waivers]

/-- A row that is not taken up stays. -/
theorem settledBy_eq_or_task (hs : loan.Sound id) (hresult : t.Yields id loan (t.fresh loan) r)
    (hrow : row ∈ loan.schedule) : settledBy r.postings row = row ∨
      ∃ e, ({ row with accruedTill := loan.accruedTill }, e) ∈ plan t.mode (t.fresh loan) := by
  cases hp : r.postings.find? fun p => p.totals.rowId == row.rowId with
  | none => exact .inl (settledBy_of_find?_eq_none hp)
  | some p =>
    obtain ⟨n, haccrue⟩ := hresult
    obtain ⟨-, ⟨os, hos, hpostings⟩, -, -⟩ := AccrualInput.accrue_eq_ok haccrue
    have hid := List.find?_some hp
    rw [beq_iff_eq] at hid
    obtain ⟨taken, htaken, hfor⟩ := exists_mem_of_sublistForall₂ hos.postings_isFor
      (hpostings ▸ List.mem_of_find?_eq_some hp)
    obtain ⟨⟨cand, e⟩, htask, rfl⟩ := List.mem_map.mp htaken
    have hfresh : cand ∈ t.fresh loan :=
      (plan_sublist t.mode (t.fresh loan)).subset (List.mem_map_of_mem (f := Prod.fst) htask)
    obtain ⟨-, stored, hstored, -, rfl⟩ := Ledger.mem_candidatesOf hfresh
    have hsame : stored = row :=
      List.inj_on_of_nodup_map hs.rowIds hstored hrow (hfor.rowId.symm.trans hid)
    exact .inr ⟨e, hsame ▸ htask⟩

/-- A row that is taken up is lifted to the target of its extent in every column in which nothing
negative was credited. -/
theorem SameTerms.accrued_of_task (h : loan₀.SameTerms loan) (hs : loan.Sound id)
    (hin : loan₀.InRange) (hsized : loan.Sized) (hresult : t.Yields id loan (t.fresh loan) r)
    (hrow : row ∈ loan.schedule)
    (htask : ({ row with accruedTill := loan.accruedTill }, e) ∈ plan t.mode (t.fresh loan)) :
    ∃ x, loan₀.targets t.settings row e = .ok x ∧
      ∀ c, 0 ≤ (Money.orZero (row.credited c)).value →
        Small (21 * 10 ^ 17) ((settledBy r.postings row).accrued c) ∧
          (Money.orZero ((settledBy r.postings row).accrued c)).value = row.full x c := by
  obtain ⟨row₀, hrow₀, hterms : row₀.SameTerms row⟩ := exists_mem_of_forall₂ h.rows.flip hrow
  obtain ⟨n, hresult⟩ := hresult
  obtain ⟨-, ⟨os, hos, hpostings⟩, -, -⟩ := AccrualInput.accrue_eq_ok hresult
  obtain ⟨cs, n, p, o, hcs, hpropose, hsettled⟩ := hos.settled (RunTerms.nodup_plan hs) htask
  have hstamped : row₀.SameTerms { row with accruedTill := loan.accruedTill } := hterms.trans rfl
  have hcolumn : ∀ c, ({ row with accruedTill := loan.accruedTill } : ScheduleRow).accrued c =
      row.accrued c := fun c => by cases c <;> rfl
  obtain ⟨x, hx, hlift⟩ := AccrualInput.accrued_of_propose (h.inputInRange hin hrow₀)
    hstamped (Charge.forall₂_sameTerms_trans h.charges hcs)
    (fun c => hcolumn c ▸ hsized.small row hrow c) (fun c => hcolumn c ▸ hsized.nonneg row hrow c)
    hpropose
  -- The stamp of the row is not one of its columns.
  have hcolumns : ∀ c, (settledBy r.postings row).accrued c =
      (({ row with accruedTill := loan.accruedTill } : ScheduleRow).after o).accrued c := by
    intro c
    rw [← hsettled, ← hpostings]
    simp only [settledBy]
    split <;> cases c <;> rfl
  refine ⟨x, ?_, fun c hcredited => ?_⟩
  · rw [loan₀.targets_congr hterms, h.targets_eq id (t.fresh loan), hx]
  · rw [hcolumns]
    have hcolumnCredited : ({ row with accruedTill := loan.accruedTill } : ScheduleRow).credited c =
        row.credited c := by cases c <;> rfl
    obtain ⟨hsmall, hvalue⟩ := hlift c (hcolumnCredited ▸ hcredited)
    refine ⟨hsmall, hvalue.trans ?_⟩
    simp only [ScheduleRow.full]
    rw [hcolumn, hcolumnCredited]

/-- A row that is taken up is lifted to the targets of its extent. -/
theorem SameTerms.lifted_of_task (h : loan₀.SameTerms loan) (hs : loan.Sound id)
    (hin : loan₀.InRange) (hn : loan₀.Nonneg) (hsized : loan.Sized)
    (hresult : t.Yields id loan (t.fresh loan) r) (hrow : row ∈ loan.schedule)
    (htask : ({ row with accruedTill := loan.accruedTill }, e) ∈ plan t.mode (t.fresh loan)) :
    ∃ x, loan₀.targets t.settings row e = .ok x ∧ row.LiftedTo x (settledBy r.postings row) := by
  obtain ⟨row₀, hrow₀, hterms : row₀.SameTerms row⟩ := exists_mem_of_forall₂ h.rows.flip hrow
  have hcredited : ∀ c, 0 ≤ (Money.orZero (row.credited c)).value := by
    intro c
    rw [hterms.credited c]
    exact hn.orZero hrow₀ fun a ha => ScheduleRow.mem_amounts_of_credited ha
  obtain ⟨x, hx, hlift⟩ := h.accrued_of_task hs hin hsized hresult hrow htask
  exact ⟨x, hx, settledBy_sameTerms _ _, fun c => (hlift c (hcredited c)).1,
    fun c => (hlift c (hcredited c)).2⟩

/-- A run takes up the whole period of every row that is due by its date. -/
theorem exists_task_of_due (hactive : loan.status.isActive = true) (hrow : row ∈ loan.schedule)
    (hdue : row.dueDate ≤ t.mode.reach t.today) :
    ∃ till, row.dueDate ≤ till ∧
      ({ row with accruedTill := loan.accruedTill }, .whole till) ∈ plan t.mode (t.fresh loan) := by
  have hcandidate : Ledger.isCandidate t.mode t.today row = true := by
    cases hmode : t.mode with
    | asOfToday =>
      rw [hmode] at hdue
      exact decide_eq_true hdue
    | tillDate till =>
      rw [hmode] at hdue
      have hdue : decide (row.dueDate ≤ till) = true := decide_eq_true hdue
      simp only [Ledger.isCandidate]
      rw [hdue, Bool.or_true]
  refine exists_mem_plan (RunTerms.mem_fresh hactive hrow hcandidate) fun till hmode => ?_
  rw [hmode] at hdue
  exact hdue

/-- A run lifts the rows that are due by its date to the targets of their whole periods. -/
theorem SameTerms.lifted_of_due (h : loan₀.SameTerms loan) (hs : loan.Sound id)
    (hin : loan₀.InRange) (hn : loan₀.Nonneg) (hsized : loan.Sized)
    (hresult : t.Yields id loan (t.fresh loan) r) (hactive : loan.status.isActive = true)
    (hrow : row ∈ loan.schedule) (hdue : row.dueDate ≤ t.mode.reach t.today) :
    ∃ x, loan₀.targets t.settings row (.whole row.dueDate) = .ok x ∧
      row.LiftedTo x (settledBy r.postings row) := by
  obtain ⟨till, htill, htask⟩ := exists_task_of_due hactive hrow hdue
  obtain ⟨x, hx, hlift⟩ := h.lifted_of_task hs hin hn hsized hresult hrow htask
  exact ⟨x, (AccrualInput.targets_whole htill).symm.trans hx, hlift⟩

/-- A row before and after a turn of its loan: it stays, or it is lifted to the targets of an extent
that fits it. -/
def Lifts (s : Settings) (loan₀ : Loan) (row row' : ScheduleRow) : Prop :=
  row' = row ∨ ∃ e x, e.Fits row ∧ loan₀.targets s row e = .ok x ∧ row.LiftedTo x row'

/-- An accrual lifts rows or lets them be. -/
theorem SameTerms.settledBy_lifts (h : loan₀.SameTerms loan) (hs : loan.Sound id)
    (hin : loan₀.InRange) (hn : loan₀.Nonneg) (hsized : loan.Sized)
    (hresult : t.Yields id loan (t.fresh loan) r) (hrow : row ∈ loan.schedule) :
    Lifts t.settings loan₀ row (settledBy r.postings row) := by
  rcases settledBy_eq_or_task hs hresult hrow with hsame | ⟨e, htask⟩
  · exact .inl hsame
  · obtain ⟨x, hx, hlift⟩ := h.lifted_of_task hs hin hn hsized hresult hrow htask
    have hfits : e.Fits row := by
      have hfits := plan_fits htask
      cases e <;> exact hfits
    exact .inr ⟨e, x, hfits, hx, hlift⟩

/-- A loan whose rows hold no less than before in any column. -/
def Rises (loan loan' : Loan) : Prop :=
  List.Forall₂ (fun row row' => row.SameTerms row' ∧ ∀ c,
    (Money.orZero (row.accrued c)).value ≤ (Money.orZero (row'.accrued c)).value)
    loan.schedule loan'.schedule

theorem Rises.refl (loan : Loan) : loan.Rises loan :=
  List.forall₂_same.mpr fun row _ => ⟨.refl row, fun _ => le_rfl⟩

theorem Rises.trans {loan'' : Loan} (h : loan.Rises loan') (h' : loan'.Rises loan'') :
    loan.Rises loan'' :=
  forall₂_comp h h' fun _ _ _ ⟨hterms, hle⟩ ⟨hterms', hle'⟩ =>
    ⟨hterms.trans hterms', fun c => (hle c).trans (hle' c)⟩

theorem Rises.of_lifts (h : List.Forall₂ (Lifts s loan₀) loan.schedule loan'.schedule) :
    loan.Rises loan' := by
  refine h.imp fun row row' hlift => ?_
  rcases hlift with rfl | ⟨e, x, -, -, hlift⟩
  · exact ⟨.refl _, fun _ => le_rfl⟩
  · exact ⟨hlift.terms, hlift.le_accrued⟩

theorem Sized.of_lifts (h : loan.Sized)
    (hlifts : List.Forall₂ (Lifts s loan₀) loan.schedule loan'.schedule) : loan'.Sized := by
  have hrow : ∀ row' ∈ loan'.schedule, ∀ c, Small (21 * 10 ^ 17) (row'.accrued c) ∧
      0 ≤ (Money.orZero (row'.accrued c)).value := by
    intro row' hrow' c
    obtain ⟨row, hrow, rfl | ⟨e, x, -, -, hlift⟩⟩ :=
      exists_mem_of_forall₂ hlifts.flip hrow'
    · exact ⟨h.small _ hrow c, h.nonneg _ hrow c⟩
    · exact ⟨hlift.small c, (h.nonneg row hrow c).trans (hlift.le_accrued c)⟩
  exact ⟨fun row' hrow' c => (hrow row' hrow' c).1, fun row' hrow' c => (hrow row' hrow' c).2⟩

theorem Sized.reversioned (h : loan.Sized) (hr : loan.Reversioned loan') : loan'.Sized := by
  rw [hr.same]
  exact ⟨h.small, h.nonneg⟩

theorem Turn.sameTerms {ok : Bool} {log : List Posting} (hturn : loan.Turn t id loan' ok log)
    (hs : loan.Sound id) : loan.SameTerms loan' := by
  cases hturn with
  | fails hwaits => exact hwaits.reversioned.sameTerms
  | idles hwaits _ => exact hwaits.reversioned.sameTerms
  | posts hwaits hposts =>
    obtain ⟨n, hresult⟩ := hposts.result
    refine hwaits.reversioned.sameTerms.trans ?_
    rw [(hposts.accepted_eq (hwaits.reversioned.sound hs)).1]
    exact ⟨rfl, forall₂_settledBy _ _, AccrualInput.accrue_sameTerms hresult⟩

theorem Turn.lifts {ok : Bool} {log : List Posting} (hturn : loan.Turn t id loan' ok log)
    (h : loan₀.SameTerms loan) (hs : loan.Sound id) (hin : loan₀.InRange) (hn : loan₀.Nonneg)
    (hsized : loan.Sized) : loan₀.SameTerms loan' ∧ loan'.Sized ∧
      List.Forall₂ (Lifts t.settings loan₀) loan.schedule loan'.schedule := by
  have hlifts : List.Forall₂ (Lifts t.settings loan₀) loan.schedule loan'.schedule := by
    rw [hturn.schedule_eq hs]
    refine List.forall₂_map_right_iff.mpr (List.forall₂_same.mpr fun row hrow => ?_)
    rcases hturn.yields with rfl | ⟨r, hresult, rfl⟩
    · exact .inl rfl
    · exact h.settledBy_lifts hs hin hn hsized hresult hrow
  exact ⟨h.trans (hturn.sameTerms hs), hsized.of_lifts hlifts, hlifts⟩

end LoanLedger.Loan
