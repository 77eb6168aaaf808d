import LoanLedger.Proofs.Accrual.Loan
import LoanLedger.Proofs.Accrual.Tally

/-!
Postings that their allocations explain. On rows that hold what has accrued on their charges, every
posting of an accrual allocates the portions that it carries, and the rows hold it again afterwards.
-/

set_option autoImplicit false
set_option relaxedAutoImplicit false

namespace LoanLedger

/-- The allocations to fees and to penalties add up to the portions that are posted for them. -/
def Posting.Explained (p : Posting) : Prop :=
  ∀ penalty, Allocation.sumOf penalty p.allocations =
    (Money.orZero (p.portion (.ofKind penalty))).value

/-- A row with nothing credited against its charges, in a currency whose units are not coarser than
the given places. -/
structure ScheduleRow.Uncredited (places : Nat) (row : ScheduleRow) : Prop where
  credited : ∀ penalty, (Money.orZero (row.credited (.ofKind penalty))).Fine ∧
    (Money.orZero (row.credited (.ofKind penalty))).value = 0
  accrued : ∀ penalty, (Money.orZero (row.accrued (.ofKind penalty))).Fine
  places_le : places ≤ row.currency.decimalPlaces.toNat

/-- What has accrued on the charges that belong to a row. -/
def ScheduleRow.accruedOn (policy : ChargePolicy) (penalty : Bool) (row : ScheduleRow)
    (cs : List Charge) : ℚ :=
  Charge.total penalty (fun c => worth (·.accrued.value) (c.brought policy row row.period)) cs

/-- Rows without gaps and proper charges that agree: every row holds what has accrued on its
charges, and all that has accrued by a date lies in the windows that reach it. -/
structure Accounted (policy : ChargePolicy) (places : Nat) (now : Date) (rows : List ScheduleRow)
    (cs : List Charge) : Prop where
  gapFree : ScheduleRow.GapFree rows
  uncredited : ∀ row ∈ rows, row.Uncredited places
  ids : (cs.map (·.id)).Nodup
  proper : ∀ c ∈ cs, c.Proper places
  size : Charge.size cs < 10 ^ 18
  tallied : ∀ row ∈ rows, ∀ penalty, (Money.orZero (row.accrued (.ofKind penalty))).value =
    row.accruedOn policy penalty cs
  timely : ∀ row ∈ rows, ∀ c ∈ cs, c.Timely policy now row

variable {places : Nat} {policy : ChargePolicy} {now till : Date} {rows : List ScheduleRow}
  {row : ScheduleRow} {cs ds : List Charge}

theorem ScheduleRow.Uncredited.settle (h : row.Uncredited places) {x : Posting}
    (hfine : ∀ penalty, (Money.orZero (x.total (.ofKind penalty))).Fine) :
    (Loan.settle x.totals row).Uncredited places where
  credited penalty := by
    have hcredited : (Loan.settle x.totals row).credited (.ofKind penalty) =
        row.credited (.ofKind penalty) := by cases penalty <;> rfl
    rw [hcredited]
    exact h.credited penalty
  accrued penalty := by
    rw [Loan.accrued_settle]
    exact hfine penalty
  places_le := h.places_le

theorem ScheduleRow.accruedOn_accrued (hdue : till ≤ row.dueDate)
    (hds : List.Forall₂ (Charge.AccruedIn places policy row ⟨row.fromDate, till⟩) cs ds)
    (penalty : Bool) :
    row.accruedOn policy penalty ds = row.accruedOn policy penalty cs + Charge.total penalty
      (fun c => worth Dues.remaining (c.brought policy row ⟨row.fromDate, till⟩)) cs := by
  rw [accruedOn, accruedOn, ← Charge.total_add]
  exact Charge.total_congr (hds.imp fun c d hcd =>
    ⟨congrArg (·.isPenalty) hcd.sameTerms.terms, hcd.brought_on hdue⟩)

theorem ScheduleRow.accruedOn_apart {row' : ScheduleRow} (hdue : till ≤ row.dueDate)
    (hapart : row.Apart row')
    (hds : List.Forall₂ (Charge.AccruedIn places policy row ⟨row.fromDate, till⟩) cs ds)
    (penalty : Bool) :
    row'.accruedOn policy penalty ds = row'.accruedOn policy penalty cs :=
  Charge.total_congr (hds.imp fun c d hcd =>
    ⟨congrArg (·.isPenalty) hcd.sameTerms.terms, by rw [hcd.brought_apart hdue hapart]⟩)

theorem Extent.Reaches.window {e : Extent} (h : e.Reaches now row) :
    ∃ till, e.window row = ⟨row.fromDate, till⟩ ∧ till ≤ row.dueDate ∧ till ≤ now ∧
      (now ≤ till ∨ till = row.dueDate) := by
  cases e with
  | whole _ => exact ⟨row.dueDate, rfl, Int.le_refl _, h, .inr rfl⟩
  | upTo till =>
    obtain ⟨rfl, hdue⟩ := h
    exact ⟨till, rfl, hdue, Int.le_refl _, .inl (Int.le_refl _)⟩

namespace Accounted

theorem later (h : Accounted policy places now rows cs) (hlater : now ≤ till) :
    Accounted policy places till rows cs :=
  { h with timely := fun row hrow c hc => (h.timely row hrow c hc).later hlater }

/-- Where nothing has accrued yet, nothing is missing. -/
theorem of_unaccrued (hgap : ScheduleRow.GapFree rows)
    (hrows : ∀ row ∈ rows, row.Uncredited places ∧
      ∀ penalty, (Money.orZero (row.accrued (.ofKind penalty))).value = 0)
    (hids : (cs.map (·.id)).Nodup) (hcs : ∀ c ∈ cs, c.Proper places ∧ c.Unaccrued)
    (hsize : Charge.size cs < 10 ^ 18) : Accounted policy places now rows cs where
  gapFree := hgap
  uncredited row hrow := (hrows row hrow).1
  ids := hids
  proper c hc := (hcs c hc).1
  size := hsize
  tallied row hrow penalty := by
    rw [(hrows row hrow).2 penalty]
    exact (Charge.total_eq_zero fun c hc => (hcs c hc).2.worth_accrued).symm
  timely _ _ c hc := (hcs c hc).2.timely

/-- A new charge adds nothing to what has accrued. -/
theorem enter (h : Accounted policy places now rows cs) {c : Charge} (hds : ds.Perm (c :: cs))
    (hc : c.Proper places) (hnew : c.Unaccrued) (hids : (ds.map (·.id)).Nodup)
    (hsize : Charge.size ds < 10 ^ 18) : Accounted policy places now rows ds where
  gapFree := h.gapFree
  uncredited := h.uncredited
  ids := hids
  proper d hd := by
    rcases List.mem_cons.mp (hds.mem_iff.mp hd) with rfl | hd
    · exact hc
    · exact h.proper d hd
  size := hsize
  tallied row hrow penalty := by
    rw [h.tallied row hrow, ScheduleRow.accruedOn, ScheduleRow.accruedOn, Charge.total_perm hds,
      Charge.total_cons, hnew.worth_accrued, ite_self, zero_add]
  timely row hrow d hd := by
    rcases List.mem_cons.mp (hds.mem_iff.mp hd) with rfl | hd
    · exact hnew.timely
    · exact h.timely row hrow d hd

/-- Relief from charges leaves what has accrued alone. -/
theorem relieve (h : Accounted policy places now rows cs)
    (hds : List.Forall₂ Charge.Relieved cs ds) (hproper : ∀ d ∈ ds, d.Proper places) :
    Accounted policy places now rows ds where
  gapFree := h.gapFree
  uncredited := h.uncredited
  ids := Charge.map_id_of_relieved hds ▸ h.ids
  proper := hproper
  size := Charge.size_congr (hds.imp fun _ _ hcd => hcd.map_amount) ▸ h.size
  tallied row hrow penalty := by
    rw [h.tallied row hrow]
    exact (Charge.total_congr (hds.imp fun c d hcd =>
      ⟨congrArg (·.isPenalty) hcd.terms, hcd.worth_accrued⟩)).symm
  timely row hrow d hd := by
    obtain ⟨c, hc, hcd⟩ := exists_mem_of_forall₂ hds.flip hd
    exact hcd.timely (h.timely row hrow c hc)

/-- The income of a window is what the row holds and what is left to accrue in the window. -/
theorem income_eq (h : Accounted policy places now rows cs) (hrow : row ∈ rows)
    (hdue : till ≤ row.dueDate) (hnow : now ≤ till ∨ till = row.dueDate) (penalty : Bool) :
    Charge.total penalty
        (fun c => worth Dues.accruable (c.brought policy row ⟨row.fromDate, till⟩)) cs =
      (Money.orZero (row.accrued (.ofKind penalty))).value + Charge.total penalty
        (fun c => worth Dues.remaining (c.brought policy row ⟨row.fromDate, till⟩)) cs := by
  have haccrued : row.accruedOn policy penalty cs = Charge.total penalty
      (fun c => worth (·.accrued.value) (c.brought policy row ⟨row.fromDate, till⟩)) cs :=
    Charge.total_congr (List.forall₂_same.mpr fun c hc =>
      ⟨rfl, ((h.timely row hrow c hc).worth_accrued hdue hnow).symm⟩)
  rw [h.tallied row hrow, haccrued, ← Charge.total_add]
  exact Charge.total_congr (List.forall₂_same.mpr fun c _ => ⟨rfl, Charge.worth_split _⟩)

end Accounted

/-- A portion towards a target that is not below the column, with nothing credited, is what the
column misses. -/
private theorem Portion.towards_plain {target accrued credited : Option Money} {x : Portion}
    (h : towards target accrued credited = .ok x) (hexact : Exact target accrued credited)
    (hcredited : (Money.orZero credited).value = 0)
    (haccrued : 0 ≤ (Money.orZero accrued).value)
    (hle : (Money.orZero accrued).value ≤ (Money.orZero target).value) :
    (Money.orZero x.total).Fine ∧ (Money.orZero x.total).value = (Money.orZero target).value ∧
      (Money.orZero x.delta).value =
        (Money.orZero target).value - (Money.orZero accrued).value := by
  cases target with
  | none =>
    rw [towards_none] at h
    cases h
    rw [Money.orZero_none, Money.value_zero] at hle ⊢
    have hzero := le_antisymm hle haccrued
    exact ⟨hexact.accrued.fine, hzero, by rw [hzero, sub_zero]⟩
  | some t =>
    obtain ⟨htotal, -, htotalValue, hdeltaValue⟩ := towards_some_value h hexact
    rw [Money.orZero_some] at hle ⊢
    rw [hcredited, sub_zero, max_eq_right hle] at htotalValue
    rw [hcredited, add_zero, max_eq_left (sub_nonneg.mpr hle)] at hdeltaValue
    exact ⟨htotal.fine, htotalValue, hdeltaValue⟩

/-- The income of one kind, at the precision of a currency that can express it. -/
private theorem value_target {u : Money} (hu : u.Plain places) {currency : Currency}
    (hplaces : places ≤ currency.decimalPlaces.toNat) (mode : RoundingMode) :
    Small (11 * 10 ^ 17) (u.nonZero.map fun m => m.round currency mode) ∧
      (Money.orZero (u.nonZero.map fun m => m.round currency mode)).value = u.value := by
  cases hz : u.nonZero with
  | none =>
    rw [Option.map_none, ← Money.value_orZero_nonZero u, hz]
    exact ⟨.none (by norm_num), rfl⟩
  | some m =>
    have hm : m.Plain places := by
      have hplain := hu.orZero_nonZero
      rw [hz] at hplain
      exact hplain
    have hvalue := Money.value_orZero_nonZero u
    rw [hz, Money.orZero_some] at hvalue
    have hround : (m.round currency mode).value = m.value :=
      Money.value_roundTo_of_whole hm.nonneg hm.whole hplaces mode
    rw [Option.map_some]
    refine ⟨⟨Money.fine_roundTo hm.fine _ _, ?_⟩, hround.trans hvalue⟩
    rw [Money.orZero_some, hround, abs_of_nonneg hm.nonneg]
    linarith [hm.small]

/-- The portion towards the income of a window is what was left to accrue in the window. -/
theorem Accounted.towards_remaining (h : Accounted policy places now rows cs) (hrow : row ∈ rows)
    (hdue : till ≤ row.dueDate) (hnow : now ≤ till ∨ till = row.dueDate) {a : Apportionment}
    (hof : Apportionment.ofCharges policy row ⟨row.fromDate, till⟩ cs = .ok a) {penalty : Bool}
    {u : Money} (hu : income penalty policy row ⟨row.fromDate, till⟩ cs = .ok u)
    {mode : RoundingMode} {portion : Portion}
    (htowards : Portion.towards (u.nonZero.map fun m => m.round row.currency mode)
      (row.accrued (.ofKind penalty)) (row.credited (.ofKind penalty)) = .ok portion) :
    (Money.orZero portion.total).Fine ∧
      (Money.orZero portion.total).value =
        (Money.orZero (row.accrued (.ofKind penalty))).value + Charge.total penalty
          (fun c => worth Dues.remaining (c.brought policy row ⟨row.fromDate, till⟩)) cs ∧
      (Money.orZero portion.delta).value = Charge.total penalty
        (fun c => worth Dues.remaining (c.brought policy row ⟨row.fromDate, till⟩)) cs := by
  obtain ⟨huPlain, huValue⟩ := income_plain h.proper h.size hof hu
  rw [h.income_eq hrow hdue hnow] at huValue
  have hplain := h.uncredited row hrow
  have haccrued : 0 ≤ (Money.orZero (row.accrued (.ofKind penalty))).value := by
    rw [h.tallied row hrow]
    exact Charge.total_nonneg fun c hc => (h.proper c hc).worth_accrued_nonneg
  have hremaining : 0 ≤ Charge.total penalty
      (fun c => worth Dues.remaining (c.brought policy row ⟨row.fromDate, till⟩)) cs :=
    Charge.total_nonneg fun c hc => (h.proper c hc).worth_remaining_nonneg
  obtain ⟨hsmall, hvalue⟩ := value_target huPlain hplain.places_le mode
  obtain ⟨hcreditedFine, hcredited⟩ := hplain.credited penalty
  have haccruedSmall : |(Money.orZero (row.accrued (.ofKind penalty))).value| < 11 * 10 ^ 17 := by
    rw [abs_of_nonneg haccrued]
    linarith [huPlain.small]
  obtain ⟨hfine, htotal, hdelta⟩ := Portion.towards_plain htowards
    ⟨hsmall, ⟨hplain.accrued penalty, by linarith⟩,
      ⟨hcreditedFine, by rw [hcredited, abs_zero]; norm_num⟩⟩
    hcredited haccrued (by rw [hvalue]; linarith)
  rw [hvalue, huValue] at htotal hdelta
  exact ⟨hfine, htotal, hdelta.trans (add_sub_cancel_left _ _)⟩

variable {input : AccrualInput} {s : Settings} {processedOn : Date} {id : TransactionId}
  {e : Extent} {p : PreparedAccrual} {x : Posting}

/-- What a posting on an accounted row carries and leads to: its allocations explain it, and the
columns rise by them. -/
theorem Accounted.propose_explained (h : Accounted s.policy places now rows cs) (hrow : row ∈ rows)
    (hreach : e.Reaches now row) {stamp : Option Date}
    (hpropose : input.propose s processedOn cs id { row with accruedTill := stamp } e =
      .ok (p, some x)) :
    x.Explained ∧ ∀ penalty, (Money.orZero (x.total (.ofKind penalty))).Fine ∧
      (Money.orZero (x.total (.ofKind penalty))).value =
        (Money.orZero (row.accrued (.ofKind penalty))).value + Charge.total penalty
          (fun c => worth Dues.remaining (c.brought s.policy row (e.window row))) cs := by
  obtain ⟨till, hwindow, hdue, -, hnow⟩ := hreach.window
  obtain ⟨targets, parts, htargets, hsettle⟩ := AccrualInput.targets_of_propose hpropose
  obtain ⟨hp, _, _, _, -, -, -, hx⟩ := (input.propose_eq_ok s processedOn).mp hpropose
  have hof : Apportionment.ofCharges s.policy row (e.window row) cs = .ok p.charges :=
    (AccrualInput.prepare_eq_ok.mp hp).1
  have hallocations : x.allocations = p.charges.allocations := by
    split at hx
    · rw [Option.some.inj hx]
      rfl
    · cases hx
  -- A column, of fees or of penalties, is computed towards the income of the window.
  have htowards : ∀ penalty, ∃ u, income penalty s.policy row (e.window row) cs = .ok u ∧
      Portion.towards (u.nonZero.map fun m => m.round row.currency s.rounding)
        (row.accrued (.ofKind penalty)) (row.credited (.ofKind penalty)) =
          .ok (parts.of (.ofKind penalty)) := by
    obtain ⟨fee, pen, _, hfee, hpen, -, -, htargetFee, htargetPen⟩ :=
      AccrualInput.targets_eq_ok.mp htargets
    intro penalty
    have hcolumn := hsettle.towards (.ofKind penalty)
    cases penalty with
    | false => exact ⟨fee, hfee, htargetFee ▸ hcolumn⟩
    | true => exact ⟨pen, hpen, htargetPen ▸ hcolumn⟩
  rw [hwindow] at hof htowards ⊢
  refine ⟨fun penalty => ?_, fun penalty => ?_⟩
  · obtain ⟨u, hu, hparts⟩ := htowards penalty
    obtain ⟨-, -, hdelta⟩ := h.towards_remaining hrow hdue hnow hof hu hparts
    rw [hallocations, Apportionment.sumOf_allocations h.proper hof,
      (hsettle.posting x rfl (.ofKind penalty)).1]
    exact hdelta.symm
  · obtain ⟨u, hu, hparts⟩ := htowards penalty
    obtain ⟨hfine, htotal, -⟩ := h.towards_remaining hrow hdue hnow hof hu hparts
    rw [(hsettle.posting x rfl (.ofKind penalty)).2]
    exact ⟨hfine, htotal⟩

/-- A posting keeps rows and charges accounted: its row rises by what accrued on its charges. -/
theorem Accounted.post (h : Accounted policy places now rows cs)
    (hrows : (rows.map (·.rowId)).Nodup) (hrow : row ∈ rows) (hdue : till ≤ row.dueDate)
    (hnow : till ≤ now)
    (hds : List.Forall₂ (Charge.AccruedIn places policy row ⟨row.fromDate, till⟩) cs ds)
    (hid : x.totals.rowId = row.rowId)
    (htotals : ∀ penalty, (Money.orZero (x.total (.ofKind penalty))).Fine ∧
      (Money.orZero (x.total (.ofKind penalty))).value =
        (Money.orZero (row.accrued (.ofKind penalty))).value + Charge.total penalty
          (fun c => worth Dues.remaining (c.brought policy row ⟨row.fromDate, till⟩)) cs) :
    Accounted policy places now (rows.map (Loan.settledBy [x])) ds := by
  -- the row takes the totals of the posting, and the others stay and are apart from it
  have hcases : ∀ r' ∈ rows.map (Loan.settledBy [x]), r' = Loan.settle x.totals row ∨
      r' ∈ rows ∧ row.Apart r' := by
    intro r' hr'
    obtain ⟨r, hr, rfl⟩ := List.mem_map.mp hr'
    rw [Loan.settledBy_singleton]
    by_cases hsame : r = row
    · rw [hsame, if_pos hid.symm]
      exact .inl rfl
    · have hne : r.rowId ≠ x.totals.rowId := fun heq =>
        hsame (List.inj_on_of_nodup_map hrows hr hrow (heq.trans hid))
      rw [if_neg hne]
      exact .inr ⟨hr, h.gapFree.apart hrow hr (Ne.symm hsame)⟩
  have hterms : List.Forall₂ Charge.SameTerms cs ds := hds.imp fun _ _ hcd => hcd.sameTerms
  constructor
  case gapFree => exact h.gapFree.map (Loan.settledBy_sameTerms [x])
  case uncredited =>
    intro r' hr'
    rcases hcases r' hr' with rfl | ⟨hr, -⟩
    · exact (h.uncredited row hrow).settle fun penalty => (htotals penalty).1
    · exact h.uncredited r' hr
  case ids => exact Charge.map_id_of_sameTerms hterms ▸ h.ids
  case proper =>
    intro d hd
    obtain ⟨c, -, hcd⟩ := exists_mem_of_forall₂ hds.flip hd
    exact hcd.proper
  case size =>
    rw [Charge.size_congr (hterms.imp fun _ _ hcd => hcd.map_amount)]
    exact h.size
  case tallied =>
    intro r' hr' penalty
    rcases hcases r' hr' with rfl | ⟨hr, hapart⟩
    · rw [Loan.accrued_settle, (htotals penalty).2, h.tallied row hrow]
      exact (ScheduleRow.accruedOn_accrued hdue hds penalty).symm
    · rw [h.tallied r' hr, ScheduleRow.accruedOn_apart hdue hapart hds]
  case timely =>
    intro r' hr' d hd
    obtain ⟨c, hc, hcd⟩ := exists_mem_of_forall₂ hds.flip hd
    rcases hcases r' hr' with rfl | ⟨hr, hapart⟩
    · exact (hcd.timely_on hnow (h.timely row hrow c hc)).of_sameTerms rfl
    · exact hcd.timely_apart hdue hapart (h.timely r' hr c hc)

/-- Carrying out a plan that reaches a date on accounted rows posts what its allocations explain,
and the rows and the charges are accounted afterwards. -/
theorem Accrues.explained {n : Nat} {tasks : List (ScheduleRow × Extent)}
    {os : List (Option Posting)} (h : Accrues input s processedOn cs n tasks os ds)
    (hacc : Accounted s.policy places now rows cs) (hrows : (rows.map (·.rowId)).Nodup)
    (htasks : ∀ task ∈ tasks, task.2.Reaches now task.1 ∧
      ∃ row ∈ rows, ∃ stamp, task.1 = { row with accruedTill := stamp })
    (hnodup : (tasks.map (·.1.rowId)).Nodup) :
    (∀ x ∈ os.reduceOption, x.Explained) ∧
      Accounted s.policy places now (rows.map (Loan.settledBy os.reduceOption)) ds := by
  induction h generalizing rows with
  | done =>
    rw [List.reduceOption_nil, show Loan.settledBy [] = fun row => row from rfl, List.map_id']
    exact ⟨fun x hx => (nomatch hx), hacc⟩
  | rest _ _ ih =>
    rw [List.reduceOption_cons_of_none]
    exact ih hacc hrows (fun task htask => htasks task (List.mem_cons_of_mem _ htask))
      (List.nodup_cons.mp hnodup).2
  | @posts cs cs' ds n candidate e tasks os p x hpropose happly hrest ih =>
    obtain ⟨⟨hreach, row, hrow, stamp, hcandidate⟩, hothers⟩ := List.forall_mem_cons.mp htasks
    obtain ⟨hid, hlater⟩ := List.nodup_cons.mp hnodup
    dsimp only at hreach hcandidate hid
    subst hcandidate
    have hreach : e.Reaches now row := by cases e <;> exact hreach
    obtain ⟨hexplained, htotals⟩ := hacc.propose_explained hrow hreach hpropose
    obtain ⟨till, hwindow, hdue, hnow, -⟩ := hreach.window
    have hxid : x.totals.rowId = row.rowId := (AccrualInput.propose_isFor hpropose).1.rowId
    have hof : Apportionment.ofCharges s.policy row ⟨row.fromDate, till⟩ cs = .ok p.charges :=
      hwindow ▸ (AccrualInput.prepare_eq_ok.mp
        ((input.propose_eq_ok s processedOn).mp hpropose).1).1
    rw [hwindow] at htotals
    have hstep := hacc.post hrows hrow hdue hnow
      (Apportionment.applyTo_accruedIn hof hacc.ids hacc.proper happly) hxid htotals
    have hrowIds : (rows.map (Loan.settledBy [x])).map (·.rowId) = rows.map (·.rowId) := by
      rw [List.map_map]
      exact List.map_congr_left fun r _ => Loan.rowId_settledBy [x] r
    -- the rows of the later tasks were not touched
    have hlaterIds : ∀ task ∈ tasks, task.1.rowId ≠ x.totals.rowId := by
      intro task htask heq
      apply hid
      rw [← hxid, ← heq]
      exact List.mem_map_of_mem (f := fun task : ScheduleRow × Extent => task.1.rowId) htask
    have hrestTasks : ∀ task ∈ tasks, task.2.Reaches now task.1 ∧
        ∃ r ∈ rows.map (Loan.settledBy [x]), ∃ stamp, task.1 = { r with accruedTill := stamp } := by
      intro task htask
      obtain ⟨hreach, r, hr, stamp, heq⟩ := hothers task htask
      have hne : r.rowId ≠ x.totals.rowId := by
        have hne := hlaterIds task htask
        rwa [heq] at hne
      refine ⟨hreach, r, List.mem_map.mpr ⟨r, hr, ?_⟩, stamp, heq⟩
      rw [Loan.settledBy_singleton, if_neg hne]
    obtain ⟨hrestExplained, hrestAcc⟩ := ih hstep (hrowIds ▸ hrows) hrestTasks hlater
    rw [List.reduceOption_cons_of_some]
    refine ⟨List.forall_mem_cons.mpr ⟨hexplained, hrestExplained⟩, ?_⟩
    have hsettled : (rows.map (Loan.settledBy [x])).map (Loan.settledBy os.reduceOption) =
        rows.map (Loan.settledBy (x :: os.reduceOption)) := by
      rw [List.map_map]
      refine List.map_congr_left fun r _ => ?_
      rw [Function.comp_apply, Loan.settledBy_singleton, Loan.settledBy_cons]
      intro hmem
      obtain ⟨y, hy, hyid⟩ := List.mem_map.mp hmem
      obtain ⟨row', hrow', hfor⟩ := exists_mem_of_sublistForall₂ hrest.postings_isFor hy
      obtain ⟨task, htask, rfl⟩ := List.mem_map.mp hrow'
      exact hlaterIds task htask (hfor.rowId.symm.trans hyid)
    exact hsettled ▸ hrestAcc

end LoanLedger
