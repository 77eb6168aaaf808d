import LoanLedger.Proofs.Ledger.Settle

/-!
Accruing again. A task that was carried out has nothing left to post, whatever the other tasks have
posted meanwhile; and the tasks of a second run are those of the first, unless the date that the
loan is accrued to has moved back behind the date of the run.
-/

set_option autoImplicit false
set_option relaxedAutoImplicit false

namespace LoanLedger

/-- A row after a posting, if there was one. -/
def ScheduleRow.after (row : ScheduleRow) : Option Posting → ScheduleRow
  | none => row
  | some p => Loan.settle p.totals row

/-- A task that posts nothing on the given charges. -/
def AccrualInput.Rests (input : AccrualInput) (s : Settings) (processedOn : Date)
    (cs : List Charge) (task : ScheduleRow × Extent) : Prop :=
  ∀ id p x, input.propose s processedOn cs id task.1 task.2 ≠ .ok (p, some x)

namespace AccrualInput

variable {input : AccrualInput} {s : Settings} {processedOn : Date} {cs ds : List Charge}
  {row : ScheduleRow} {e : Extent}

/-- A task that posts nothing under one transaction number posts nothing under any. -/
theorem rests_of_propose {id : TransactionId} {p : PreparedAccrual}
    (h : input.propose s processedOn cs id row e = .ok (p, none)) :
    input.Rests s processedOn cs (row, e) := by
  intro id' p' y h'
  obtain ⟨x, parts, hx, hsettle⟩ := targets_of_propose h
  obtain ⟨x', parts', hx', hsettle'⟩ := targets_of_propose h'
  rw [hx] at hx'
  cases hx'
  exact Bool.false_ne_true (hsettle.isSome_eq hsettle')

/-- A task that was carried out rests, on charges that kept their terms. -/
theorem rests_after {id : TransactionId} {p : PreparedAccrual} {o : Option Posting}
    {till : Option Date} {cs' : List Charge} (hin : input.InRange cs row)
    (hds : List.Forall₂ Charge.SameTerms cs ds) (hcs' : List.Forall₂ Charge.SameTerms cs cs')
    (h : input.propose s processedOn ds id row e = .ok (p, o)) :
    input.Rests s processedOn cs' ({ row.after o with accruedTill := till }, e) := by
  intro id' p' y h'
  have hsmall : ∀ c, Small (21 * 10 ^ 17) (row.accrued c) :=
    fun c => (hin.row_inRange.small_accrued c).mono (by norm_num)
  obtain ⟨x, parts, hx, hsettle, hexact⟩ := settle_of_propose hin (.refl row) hds hsmall h
  obtain ⟨x', parts', hx', hsettle'⟩ := targets_of_propose h'
  have hterms : row.SameTerms { row.after o with accruedTill := till } := by cases o <;> rfl
  rw [targets_congr hterms hcs', hx] at hx'
  cases hx'
  cases o with
  | none =>
    have hsame : x.Settle row parts' (some y) :=
      ⟨fun c => by cases c <;> exact hsettle'.towards _, hsettle'.amount, hsettle'.posting⟩
    exact Bool.false_ne_true (hsettle.isSome_eq hsame)
  | some posting =>
    have hnone : ∀ c, (parts'.of c).delta = none := by
      intro c
      have htotal := (hsettle.posting posting rfl c).2
      have hagain := hsettle'.towards c
      have hcolumn : ({ row.after (some posting) with accruedTill := till } : ScheduleRow).accrued c =
          (parts.of c).total := by
        rw [← htotal]
        cases c <;> rfl
      rw [hcolumn, hterms.credited c] at hagain
      exact Portion.towards_settled (hsettle.towards c) (hexact c) hagain
    cases hsettle'.eq_none hnone

end AccrualInput

namespace Accrues

variable {input : AccrualInput} {s : Settings} {processedOn : Date} {cs ds : List Charge} {n : Nat}
  {tasks : List (ScheduleRow × Extent)} {os : List (Option Posting)}

theorem eq_nil_of_rests (h : Accrues input s processedOn cs n tasks os ds)
    (hrests : ∀ task ∈ tasks, input.Rests s processedOn cs task) : os.reduceOption = [] := by
  induction h with
  | done => rfl
  | rest _ _ ih =>
    rw [List.reduceOption_cons_of_none]
    exact ih fun task htask => hrests task (List.mem_cons_of_mem _ htask)
  | posts hpropose _ _ _ => exact absurd hpropose (hrests _ List.mem_cons_self _ _ _)

/-- Where nothing is posted all tasks rest. -/
theorem rests_of_eq_nil (h : Accrues input s processedOn cs n tasks os ds)
    (hnil : os.reduceOption = []) : ∀ task ∈ tasks, input.Rests s processedOn cs task := by
  induction h with
  | done => exact fun task htask => nomatch htask
  | rest hpropose _ ih =>
    rw [List.reduceOption_cons_of_none] at hnil
    intro task htask
    rcases List.mem_cons.mp htask with rfl | htask
    · exact AccrualInput.rests_of_propose hpropose
    · exact ih hnil task htask
  | posts _ _ _ _ =>
    rw [List.reduceOption_cons_of_some] at hnil
    cases hnil

/-- Where rows differ in their numbers, each row is settled by the posting of its own task. -/
theorem settledBy_eq (h : Accrues input s processedOn cs n tasks os ds)
    (hrows : (tasks.map (·.1.rowId)).Nodup) :
    List.Forall₂ (fun task o => Loan.settledBy os.reduceOption task.1 = task.1.after o) tasks os := by
  induction h with
  | done => exact .nil
  | @rest cs ds n row e tasks os p hpropose hrest ih =>
    obtain ⟨hrow, hrows⟩ := List.nodup_cons.mp hrows
    dsimp only at hrow
    rw [List.reduceOption_cons_of_none]
    refine .cons ?_ (ih hrows)
    have hnone : os.reduceOption.find? (fun x => x.totals.rowId == row.rowId) = none := by
      apply List.find?_eq_none.mpr
      intro x hx hid
      apply hrow
      obtain ⟨row', hrow', hfor⟩ := exists_mem_of_sublistForall₂ hrest.postings_isFor hx
      obtain ⟨task, htask, rfl⟩ := List.mem_map.mp hrow'
      rw [← beq_iff_eq.mp hid, hfor.rowId]
      exact List.mem_map_of_mem (f := fun task : ScheduleRow × Extent => task.1.rowId) htask
    unfold Loan.settledBy ScheduleRow.after
    rw [hnone]
  | @posts cs cs' ds n row e tasks os p x hpropose happly hrest ih =>
    obtain ⟨hrow, hrows⟩ := List.nodup_cons.mp hrows
    dsimp only at hrow
    have hid : x.totals.rowId = row.rowId := (AccrualInput.propose_isFor hpropose).1.rowId
    rw [List.reduceOption_cons_of_some]
    refine .cons ?_ ?_
    · have hfound : (x :: os.reduceOption).find? (fun y => y.totals.rowId == row.rowId) = some x :=
        List.find?_cons_of_pos (beq_iff_eq.mpr hid)
      unfold Loan.settledBy ScheduleRow.after
      rw [hfound]
    · -- The posting of this task is for another row than those that come later.
      refine List.Forall₂.imp ?_ ((List.forall₂_and_left _ _).mpr ⟨fun task htask => htask, ih hrows⟩)
      rintro task o ⟨htask, hsettled⟩
      rw [← hsettled]
      simp only [Loan.settledBy]
      rw [List.find?_cons_of_neg]
      rw [beq_iff_eq, hid]
      intro heq
      rw [heq] at hrow
      exact hrow (List.mem_map_of_mem (f := fun task : ScheduleRow × Extent => task.1.rowId) htask)

theorem settled (h : Accrues input s processedOn cs n tasks os ds)
    (hrows : (tasks.map (·.1.rowId)).Nodup) {task : ScheduleRow × Extent} (htask : task ∈ tasks) :
    ∃ cs' id p o, List.Forall₂ Charge.SameTerms cs cs' ∧
      input.propose s processedOn cs' id task.1 task.2 = .ok (p, o) ∧
      Loan.settledBy os.reduceOption task.1 = task.1.after o := by
  obtain ⟨hproposals, -⟩ := h.proposals (Charge.forall₂_sameTerms_refl cs)
  obtain ⟨o, -, ⟨cs', id, p, hcs', hpropose⟩, hsettled⟩ :=
    exists_mem_of_forall₂ (forall₂_and hproposals (h.settledBy_eq hrows)) htask
  exact ⟨cs', id, p, o, hcs', hpropose, hsettled⟩

/-- After a plan was carried out, all its tasks rest on the rows as they were settled. -/
theorem rests_settled (h : Accrues input s processedOn cs n tasks os ds)
    (hrows : (tasks.map (·.1.rowId)).Nodup) (hin : ∀ task ∈ tasks, input.InRange cs task.1)
    (till : Option Date) : ∀ task ∈ tasks, input.Rests s processedOn ds
      ({ Loan.settledBy os.reduceOption task.1 with accruedTill := till }, task.2) := by
  obtain ⟨-, hds⟩ := h.proposals (Charge.forall₂_sameTerms_refl cs)
  intro task htask
  obtain ⟨cs', id, p, o, hcs', hpropose, hsettled⟩ := h.settled hrows htask
  rw [hsettled]
  exact AccrualInput.rests_after (hin task htask) hcs' hds hpropose

end Accrues

/-! The rows of a second plan. -/

/-- The first rows due after a date, up to the next one that is due by then. -/
def opening (till : Date) (rows : List ScheduleRow) : List ScheduleRow :=
  (rows.dropWhile fun row => row.dueDate ≤ till).takeWhile fun row => till < row.dueDate

section Plans

variable {till : Date} {w w' : Option Date} {rows : List ScheduleRow}

private theorem takeWhile_cons_future {row : ScheduleRow} (h : till < row.dueDate) :
    (row :: rows).takeWhile (fun row => till < row.dueDate) =
      row :: rows.takeWhile fun row => till < row.dueDate := by
  rw [List.takeWhile_cons, if_pos (decide_eq_true h)]

private theorem opening_cons_future {row : ScheduleRow} (h : till < row.dueDate) :
    opening till (row :: rows) = (row :: rows).takeWhile fun row => till < row.dueDate := by
  have hpast : ¬decide (row.dueDate ≤ till) = true :=
    fun hle => Date.not_le_iff.mpr h (of_decide_eq_true hle)
  simp only [opening]
  rw [List.dropWhile_cons, if_neg hpast]

private theorem opening_cons_past {row : ScheduleRow} (h : ¬till < row.dueDate) :
    opening till (row :: rows) = opening till rows := by
  have hpast : row.dueDate ≤ till := Int.not_lt.mp h
  simp only [opening]
  rw [List.dropWhile_cons, if_pos (decide_eq_true hpast)]

theorem markAt_eq {row : ScheduleRow} (hrow : row.accruedTill = w) (beforeFuture : Bool) :
    markAt w beforeFuture row = w := by
  simp only [markAt]
  split
  · exact hrow
  · rfl

private theorem planFrom_opening (hrows : ∀ row ∈ rows, row.accruedTill = w)
    (hbehind : isBehind w till = true) {row : ScheduleRow}
    (hrow : row ∈ rows.takeWhile fun row => till < row.dueDate) :
    (row, .upTo till) ∈ planFrom till w false rows := by
  induction rows with
  | nil => cases hrow
  | cons r rows ih =>
    obtain ⟨hr, hrows⟩ := List.forall_mem_cons.mp hrows
    unfold planFrom
    by_cases hfuture : till < r.dueDate
    · rw [takeWhile_cons_future hfuture] at hrow
      rw [if_pos hfuture, markAt_eq hr, if_pos hbehind]
      rcases List.mem_cons.mp hrow with rfl | hrow
      · exact List.mem_cons_self
      · exact List.mem_cons_of_mem _ (ih hrows hrow)
    · rw [List.takeWhile_cons, if_neg fun h => hfuture (of_decide_eq_true h)] at hrow
      cases hrow

/-- Where the rows before the first one that is due later leave the plan to its own date, the mark
does not matter. -/
theorem planFrom_cons_future {row : ScheduleRow} {mark : Option Date}
    (hrow : row.accruedTill = w) (hfuture : till < row.dueDate) :
    planFrom till mark true (row :: rows) = planFrom till w false (row :: rows) := by
  have hmark : markAt mark true row = w := hrow
  have hmark' : markAt w false row = w := markAt_eq hrow false
  rw [planFrom, planFrom, if_pos hfuture, if_pos hfuture, hmark, hmark']

/-- A run takes up the opening rows when the loan is accrued to an earlier date. -/
theorem mem_plan_of_opening (hrows : ∀ row ∈ rows, row.accruedTill = w)
    (hbehind : isBehind w till = true) {row : ScheduleRow} (hrow : row ∈ opening till rows) :
    (row, .upTo till) ∈ plan (.tillDate till) rows := by
  show (row, Extent.upTo till) ∈ planFrom till none true rows
  generalize (none : Option Date) = mark
  induction rows generalizing mark with
  | nil => cases hrow
  | cons r rows ih =>
    obtain ⟨hr, hrest⟩ := List.forall_mem_cons.mp hrows
    by_cases hfuture : till < r.dueDate
    · rw [opening_cons_future hfuture] at hrow
      rw [planFrom_cons_future hr hfuture]
      exact planFrom_opening hrows hbehind hrow
    · rw [opening_cons_past hfuture] at hrow
      rw [planFrom, if_neg hfuture]
      exact List.mem_cons_of_mem _ (ih hrest hrow (some r.dueDate))

variable {f : ScheduleRow → ScheduleRow}

private theorem planFrom_map (hf : ∀ row, (f row).dueDate = row.dueDate) (m : Date) :
    planFrom till (some m) false (rows.map f) =
      (planFrom till (some m) false rows).map fun task => (f task.1, task.2) := by
  induction rows generalizing m with
  | nil => rfl
  | cons row rows ih =>
    have hmark : ∀ row, markAt (some m) false row = some m := fun _ => rfl
    rw [List.map_cons, planFrom, planFrom, hf, hmark, hmark]
    split
    · split
      · rw [List.map_cons, ih]
      · exact ih m
    · rw [List.map_cons, ih]

/-- A task of a second plan: it was in the first one, or it opens up. -/
private def Reappears (f : ScheduleRow → ScheduleRow) (tasks : List (ScheduleRow × Extent))
    (openRows : List ScheduleRow) (till : Date) (w w' : Option Date)
    (task : ScheduleRow × Extent) : Prop :=
  (∃ task₀ ∈ tasks, task = (f task₀.1, task₀.2)) ∨
    (isBehind w till = false ∧ isBehind w' till = true ∧
      ∃ row ∈ openRows, task = (row, .upTo till))

private theorem planFrom_map_open (hf : ∀ row, (f row).dueDate = row.dueDate)
    (hrows : ∀ row ∈ rows, row.accruedTill = w) (hf' : ∀ row, (f row).accruedTill = w') :
    ∀ task ∈ planFrom till w' false (rows.map f), Reappears f (planFrom till w false rows)
      ((rows.map f).takeWhile fun row => till < row.dueDate) till w w' task := by
  induction rows with
  | nil => exact fun task htask => nomatch htask
  | cons row rows ih =>
    obtain ⟨hrow, hrows⟩ := List.forall_mem_cons.mp hrows
    intro task htask
    rw [List.map_cons, planFrom, hf, markAt_eq (hf' row)] at htask
    rw [List.map_cons, planFrom, markAt_eq hrow]
    split at htask
    · next hfuture =>
      have hfuture' : till < (f row).dueDate := by rw [hf]; exact hfuture
      rw [if_pos hfuture, takeWhile_cons_future hfuture']
      -- the later tasks of the block reappear in the same way
      have hlater : task ∈ planFrom till w' false (rows.map f) →
          Reappears f (if isBehind w till = true then (row, .upTo till) :: planFrom till w false rows
            else planFrom till w false rows)
            (f row :: (rows.map f).takeWhile fun row => till < row.dueDate) till w w' task := by
        intro hmem
        rcases ih hrows task hmem with ⟨task₀, htask₀, rfl⟩ | ⟨hw, hw', row', hrow', rfl⟩
        · refine .inl ⟨task₀, ?_, rfl⟩
          split
          · exact List.mem_cons_of_mem _ htask₀
          · exact htask₀
        · exact .inr ⟨hw, hw', row', List.mem_cons_of_mem _ hrow', rfl⟩
      split at htask
      · next hbehind' =>
        rcases List.mem_cons.mp htask with rfl | htask
        · cases hbehind : isBehind w till with
          | true => exact .inl ⟨(row, .upTo till), List.mem_cons_self, rfl⟩
          | false => exact .inr ⟨hbehind, hbehind', f row, List.mem_cons_self, rfl⟩
        · exact hlater htask
      · exact hlater htask
    · next hpast =>
      rw [if_neg hpast]
      refine .inl ?_
      rcases List.mem_cons.mp htask with rfl | htask
      · exact ⟨(row, .whole till), List.mem_cons_self, rfl⟩
      · rw [planFrom_map hf] at htask
        obtain ⟨task₀, htask₀, rfl⟩ := List.mem_map.mp htask
        exact ⟨task₀, List.mem_cons_of_mem _ htask₀, rfl⟩

/-- The tasks of a second run are those of the first, on the rows as they are then; only when the
date that the loan is accrued to moved back behind the till date, opening rows are taken up that the
first run left out. -/
theorem mem_plan_map {mode : RunMode} {task : ScheduleRow × Extent}
    (hf : ∀ row, (f row).dueDate = row.dueDate) (hrows : ∀ row ∈ rows, row.accruedTill = w)
    (hf' : ∀ row, (f row).accruedTill = w') (htask : task ∈ plan mode (rows.map f)) :
    (∃ task₀ ∈ plan mode rows, task = (f task₀.1, task₀.2)) ∨
      ∃ till, mode = .tillDate till ∧ isBehind w till = false ∧ isBehind w' till = true ∧
        ∃ row ∈ opening till (rows.map f), task = (row, .upTo till) := by
  cases mode with
  | asOfToday =>
    unfold plan at htask ⊢
    obtain ⟨row', hrow', rfl⟩ := List.mem_map.mp htask
    obtain ⟨row, hrow, rfl⟩ := List.mem_map.mp hrow'
    exact .inl ⟨(row, .whole row.dueDate), List.mem_map_of_mem hrow, by rw [hf]⟩
  | tillDate till =>
    -- The mark changes from row to row, so the induction is over all marks.
    have hfrom : ∀ mark, task ∈ planFrom till mark true (rows.map f) →
        Reappears f (planFrom till mark true rows) (opening till (rows.map f)) till w w' task := by
      clear htask
      induction rows with
      | nil => exact fun mark htask => nomatch htask
      | cons row rows ih =>
        obtain ⟨hrow, hrest⟩ := List.forall_mem_cons.mp hrows
        intro mark htask
        by_cases hfuture : till < row.dueDate
        · have hfuture' : till < (f row).dueDate := by rw [hf]; exact hfuture
          rw [List.map_cons, planFrom_cons_future (hf' row) hfuture', ← List.map_cons] at htask
          rw [planFrom_cons_future hrow hfuture, List.map_cons, opening_cons_future hfuture',
            ← List.map_cons]
          exact planFrom_map_open hf hrows hf' task htask
        · have hfuture' : ¬till < (f row).dueDate := by rw [hf]; exact hfuture
          rw [List.map_cons, planFrom, if_neg hfuture'] at htask
          rw [planFrom, if_neg hfuture, List.map_cons, opening_cons_past hfuture']
          rcases List.mem_cons.mp htask with rfl | htask
          · exact .inl ⟨(row, .whole till), List.mem_cons_self, rfl⟩
          · rw [hf] at htask
            rcases ih hrest _ htask with ⟨task₀, htask₀, rfl⟩ | hopens
            · exact .inl ⟨task₀, List.mem_cons_of_mem _ htask₀, rfl⟩
            · exact .inr hopens
    rcases hfrom none htask with hfound | hopens
    · exact .inl hfound
    · exact .inr ⟨till, rfl, hopens⟩

end Plans
end LoanLedger
