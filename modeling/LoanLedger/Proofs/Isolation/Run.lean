import LoanLedger.Proofs.Consistency
import LoanLedger.Proofs.Isolation.Turn

/-!
A run treats every loan as if it were alone in the ledger: what it makes of a loan, writes about it
and reports of it is what a run over that loan alone does, but for the names of transactions.
-/

set_option autoImplicit false
set_option relaxedAutoImplicit false

namespace LoanLedger

namespace Table

variable {α : Type}

/-- The entry of one loan and no other. -/
def only (t : Table α) (id : LoanId) : Table α :=
  match t.find? id with
  | none => empty
  | some a => empty.insert id a

theorem find?_only_self (t : Table α) (id : LoanId) : (t.only id).find? id = t.find? id := by
  unfold only
  cases h : t.find? id with
  | none => rfl
  | some a => exact find?_insert_self _ _ _

theorem find?_only_of_ne (t : Table α) {id k : LoanId} (h : k ≠ id) :
    (t.only id).find? k = none := by
  unfold only
  cases t.find? id with
  | none => rfl
  | some a => exact find?_insert_of_ne _ h _

end Table

/-- Books with nothing written and only one loan, which finds the same in them about itself. -/
def Books.alone (b : Books) (id : LoanId) : Books where
  ledger :=
    { loans := b.ledger.loans.only id
      transactions := []
      payments := []
      arrears := b.ledger.arrears.only id
      conflicts := b.ledger.conflicts.only id
      issuedReads := 0 }
  journal := ⟨[], b.journal.refused⟩
  events := []
  nextId := 0

theorem Books.alike_alone (b : Books) (id : LoanId) : (b.alone id).Alike id b where
  ledger := ⟨(Table.find?_only_self _ _).symm, (Table.find?_only_self _ _).symm,
    (Table.find?_only_self _ _).symm⟩
  refused := rfl

theorem Books.filed_alone {b : Books} (h : b.ledger.Filed) (id : LoanId) :
    (b.alone id).ledger.Filed := by
  intro k loan hloan
  by_cases hk : k = id
  · subst hk
    exact h k loan ((Table.find?_only_self _ _).symm.trans hloan)
  · rw [Books.alone, Table.find?_only_of_ne _ hk] at hloan
    cases hloan

namespace RunSummary

variable {id k : LoanId} {o : LoanOutcome}

/-- What a summary says of one loan. -/
def of (id : LoanId) (s : RunSummary) : RunSummary where
  succeeded := s.succeeded.filter fun l => l.loanId = id
  failed := s.failed.filter fun f => f.1 = id
  notAttempted := s.notAttempted.filter fun k => k = id

theorem of_record_self (s : RunSummary) (h : o.loanId = id) :
    (s.record o).of id = (s.of id).record o := by
  cases o <;> simp_all [record, of, LoanOutcome.loanId]

theorem of_record_of_ne (s : RunSummary) (h : o.loanId ≠ id) : (s.record o).of id = s.of id := by
  cases o <;> simp_all [record, of, LoanOutcome.loanId]

theorem of_skip_self (s : RunSummary) (id : LoanId) : (s.skip id).of id = (s.of id).skip id := by
  simp [skip, of]

theorem of_skip_of_ne (s : RunSummary) (h : k ≠ id) : (s.skip k).of id = s.of id := by
  simp [skip, of, h]

end RunSummary

namespace RunTerms

variable {t : RunTerms} {id : LoanId} {groups : List (LoanId × List ScheduleRow)}
  {summary summary' : RunSummary} {st st' : Books}

theorem loanId_of_ofResult {tries attempt : Nat} {rows : List ScheduleRow} {o : LoanOutcome}
    {r : Except Failure LoanSummary} (h : t.accrueLoan id tries attempt rows st = (st', r))
    (ho : LoanOutcome.ofResult id r = .ok o) : o.loanId = id := by
  rcases r with (r | f) | s
  · cases ho
    rfl
  · cases ho
  · cases ho
    exact accrueLoan_loanId h

end RunTerms

/-- Books to which one loan finds the same about itself as before, with `w` written of which nothing is
about it. -/
structure Books.Passes (id : LoanId) (w : Written) (b b' : Books) : Prop where
  adds : b.Adds w b'
  others : w.of id = .nothing
  alike : b.Alike id b'

/-- What a run over several loans makes of one of them, seen beside a run over that loan alone
from the books `b`. -/
structure Isolated (id : LoanId) (b : Books) (st st' solo : Books) : Prop where
  alike : solo.Alike id st'
  written : ∃ f w v, Function.Bijective f ∧ st.Adds w st' ∧ b.Adds v solo ∧ w.of id = v.rename f

theorem Books.Passes.isolated {id : LoanId} {b : Books} {w : Written} {st st' : Books}
    (h : st.Passes id w st') (hb : b.Alike id st) : Isolated id b st st' b :=
  ⟨hb.trans h.alike, fun t => t, w, .nothing, Function.bijective_id, h.adds, .refl b, h.others⟩

theorem Books.Moves.passes {id k : LoanId} {w : Written} {st st' : Books}
    (h : st.Moves k w st') (hk : id ≠ k) : st.Passes id w st' :=
  ⟨h.adds, h.isFor.of_ne hk, h.alike hk⟩

namespace RunTerms

variable {t : RunTerms} {c : Cancellation} {id k : LoanId}
  {groups : List (LoanId × List ScheduleRow)} {summary summary' : RunSummary} {st st' : Books}

/-- The turns of other loans pass by a loan, and the summary says nothing new of it. -/
theorem accrueGroups_passes {r : Except Fault RunSummary}
    (h : t.accrueGroups c groups summary st = (st', r))
    (hg : st.ledger.Filed) (hid : id ∉ groups.map Prod.fst) :
    ∃ w, st.Passes id w st' ∧ ∀ s, r = .ok s → s.of id = summary.of id := by
  induction groups generalizing summary st with
  | nil =>
    cases h
    exact ⟨.nothing, ⟨.refl _, rfl, .refl id _⟩, fun s hs => by cases hs; rfl⟩
  | cons group groups ih =>
    obtain ⟨k, rows⟩ := group
    have hk : id ≠ k := fun heq => hid (heq ▸ List.mem_cons_self)
    have hrest : id ∉ groups.map Prod.fst := fun hmem => hid (List.mem_cons_of_mem _ hmem)
    rcases accrueGroups_cons_cases h with ⟨-, h⟩ | ⟨st₁, x, -, hloan, hturn⟩
    · obtain ⟨w, hw, hs⟩ := ih h hg hrest
      exact ⟨w, hw, fun s hr => (hs s hr).trans (summary.of_skip_of_ne hk.symm)⟩
    · obtain ⟨w, hmoves⟩ := accrueLoan_moves hloan hg
      rcases hturn with ⟨f, -, rfl, rfl⟩ | ⟨o, ho, h⟩
      · exact ⟨w, hmoves.passes hk, fun s hs => nomatch hs⟩
      · obtain ⟨v, hv, hs⟩ := ih h (accrueLoan_filed hloan hg) hrest
        refine ⟨w.append v, ⟨hmoves.adds.trans hv.adds, ?_, (hmoves.alike hk).trans hv.alike⟩,
          fun s hr => (hs s hr).trans ?_⟩
        · rw [Written.append_of, hmoves.isFor.of_ne hk, hv.others]
          rfl
        · refine summary.of_record_of_ne fun heq => hk ?_
          rw [← heq, loanId_of_ofResult hloan ho]

/-- The turn of a loan, and then turns of others. -/
private theorem isolated_turn {tries attempt : Nat} {rows : List ScheduleRow} {b : Books}
    {st₁ : Books} {w : Written} (hg : st.ledger.Filed) (hb : b.Alike id st)
    (hfiled : b.ledger.Filed) (hnext : b.nextId = 0)
    (hloan : (t.accrueLoan id tries attempt rows st).1 = st₁) (hpasses : st₁.Passes id w st') :
    (t.accrueLoan id tries attempt rows st).2 =
        (t.accrueLoan id tries attempt rows b).2 ∧
      Isolated id b st st' (t.accrueLoan id tries attempt rows b).1 := by
  have htwins : b.Twins id st.nextId st := ⟨hb, by rw [hnext, Nat.zero_add], hfiled, hg⟩
  have hends := accrueLoan_alike (t := t) htwins tries attempt rows
  obtain ⟨v, hv, hv'⟩ := hends.moves
  rw [hloan] at hv'
  have halike := hends.alike
  rw [hloan] at halike
  refine ⟨hends.result, halike.trans hpasses.alike, .shift st.nextId,
    (v.rename (.shift st.nextId)).append w, v, TransactionId.shift_bijective _,
    hv'.adds.trans hpasses.adds, hv.adds, ?_⟩
  rw [Written.append_of, hpasses.others, hv'.isFor.of_eq, Written.append_nothing]

/-- A run makes of each of its loans what a run over that loan alone makes of it. -/
theorem accrueGroups_isolated {rows : List ScheduleRow} {b : Books}
    (h : t.accrueGroups c groups summary st = (st', .ok summary')) (hg : st.ledger.Filed)
    (hn : (groups.map Prod.fst).Nodup) (hmem : (id, rows) ∈ groups) (hb : b.Alike id st)
    (hfiled : b.ledger.Filed) (hnext : b.nextId = 0) :
    ∃ solo, t.accrueGroups c [(id, rows)] (summary.of id) b = (solo, .ok (summary'.of id)) ∧
      Isolated id b st st' solo := by
  induction groups generalizing summary st with
  | nil => cases hmem
  | cons group groups ih =>
    obtain ⟨k, rows'⟩ := group
    obtain ⟨hk, hn⟩ := List.nodup_cons.mp hn
    rcases List.mem_cons.mp hmem with heq | hlater
    · cases heq
      rcases accrueGroups_cons_cases h with ⟨hrequested, h⟩ | ⟨st₁, r, hrequested, hloan, hturn⟩
      · obtain ⟨w, hw, hs⟩ := accrueGroups_passes h hg hk
        refine ⟨b, ?_, hw.isolated hb⟩
        rw [accrueGroups, if_pos hrequested, hs summary' rfl, RunSummary.of_skip_self]
        rfl
      · obtain ⟨f, -, -, hr⟩ | ⟨o, ho, h⟩ := hturn
        · cases hr
        obtain ⟨solo, r', hsolo, hcons⟩ :=
          t.accrueGroups_cons id rows [] (summary.of id) b hrequested
        obtain ⟨w, hw, hs⟩ := accrueGroups_passes h (accrueLoan_filed hloan hg) hk
        obtain ⟨hr, hisolated⟩ := isolated_turn hg hb hfiled hnext (by rw [hloan]) hw
        rw [hloan, hsolo] at hr
        rw [hsolo] at hisolated
        refine ⟨solo, ?_, hisolated⟩
        rw [hcons, ← show r = r' from hr, ho, hs summary' rfl,
          summary.of_record_self (loanId_of_ofResult hloan ho)]
        rfl
    · have hkey : (id, rows).1 ∈ groups.map Prod.fst := List.mem_map_of_mem hlater
      have hne : id ≠ k := by
        rintro rfl
        exact hk hkey
      rcases accrueGroups_cons_cases h with ⟨-, h⟩ | ⟨st₁, r, -, hloan, hturn⟩
      · obtain ⟨solo, hsolo, hisolated⟩ := ih h hg hn hlater hb
        rw [summary.of_skip_of_ne hne.symm] at hsolo
        exact ⟨solo, hsolo, hisolated⟩
      · obtain ⟨f, -, -, hr⟩ | ⟨o, ho, h⟩ := hturn
        · cases hr
        obtain ⟨w, hmoves⟩ := accrueLoan_moves hloan hg
        have hw := hmoves.passes hne
        obtain ⟨solo, hsolo, halike, f, v, u, hf, hv, hu, hof⟩ := ih h
          (accrueLoan_filed hloan hg) hn hlater (hb.trans hw.alike)
        have hother : o.loanId ≠ id := fun heq =>
          hne (heq.symm.trans (loanId_of_ofResult hloan ho))
        rw [summary.of_record_of_ne hother] at hsolo
        refine ⟨solo, hsolo, halike, f, w.append v, u, hf, hw.adds.trans hv, hu, ?_⟩
        rw [Written.append_of, hw.others, Written.nothing_append, hof]

/-- A fault that ends a run is met by a loan that meets it alone as well. -/
theorem accrueGroups_fault {f : Fault} (h : t.accrueGroups c groups summary st = (st', .error f))
    (hg : st.ledger.Filed) (hn : (groups.map Prod.fst).Nodup) :
    ∃ id rows, (id, rows) ∈ groups ∧ ∀ b : Books, b.Alike id st → b.ledger.Filed →
      b.nextId = 0 → ∀ summary, (t.accrueGroups c [(id, rows)] summary b).2 = .error f := by
  induction groups generalizing summary st with
  | nil => cases h
  | cons group groups ih =>
    obtain ⟨k, rows⟩ := group
    obtain ⟨hk, hn⟩ := List.nodup_cons.mp hn
    rcases accrueGroups_cons_cases h with
      ⟨-, h⟩ | ⟨st₁, r, hrequested, hloan, ⟨f', ho, -, hr⟩ | ⟨o, ho, h⟩⟩
    · obtain ⟨id, rows, hmem, hfault⟩ := ih h hg hn
      exact ⟨id, rows, List.mem_cons_of_mem _ hmem, hfault⟩
    · cases hr
      refine ⟨k, rows, List.mem_cons_self, fun b hb hfiled hnext summary => ?_⟩
      obtain ⟨solo, r', hsolo, hcons⟩ :=
        t.accrueGroups_cons k rows [] summary b hrequested
      have htwins : b.Twins k st.nextId st := ⟨hb, by rw [hnext, Nat.zero_add], hfiled, hg⟩
      have hends := accrueLoan_alike (t := t) htwins
        (t.settings.retry.maxAttempts.toNat - 1) 1 rows
      rw [hloan, hsolo] at hends
      rw [hcons, ← show r = r' from hends.result, ho]
    · -- The fault comes later, from a loan that the turn of this one passed by.
      obtain ⟨w, hw⟩ := accrueLoan_moves hloan hg
      obtain ⟨id, rows', hmem, hfault⟩ := ih h (accrueLoan_filed hloan hg) hn
      have hkey : (id, rows').1 ∈ groups.map Prod.fst := List.mem_map_of_mem hmem
      have hne : id ≠ k := by
        rintro rfl
        exact hk hkey
      exact ⟨id, rows', List.mem_cons_of_mem _ hmem, fun b hb =>
        hfault b (hb.trans (hw.passes hne).alike)⟩

end RunTerms

/-- The groups of one loan: its rows, if there are any. -/
theorem Grouped.filter_eq {rows : List ScheduleRow} {groups : List (LoanId × List ScheduleRow)}
    (h : Grouped rows groups) (id : LoanId) :
    groups.filter (fun g => g.1 = id) =
      if rows.filter (fun row => row.loanId = id) = [] then []
      else [(id, rows.filter fun row => row.loanId = id)] := by
  rw [filter_eq_toList_find? Prod.fst id h.nodup]
  cases hfound : groups.find? fun g => g.1 == id with
  | none =>
    rw [if_pos]
    · rfl
    · apply List.filter_eq_nil_iff.mpr
      intro row hrow hid
      have hkey := (h.mem_keys id).mpr (of_decide_eq_true hid ▸ List.mem_map_of_mem hrow)
      obtain ⟨g, hg, hgid⟩ := List.mem_map.mp hkey
      exact List.find?_eq_none.mp hfound g hg (beq_iff_eq.mpr hgid)
  | some g =>
    have hg := List.mem_of_find?_eq_some hfound
    have hid : g.1 = id := by simpa using List.find?_some hfound
    have hkey : id ∈ groups.map Prod.fst := hid ▸ List.mem_map_of_mem hg
    obtain ⟨row, hrow, hrowId⟩ := List.mem_map.mp ((h.mem_keys id).mp hkey)
    rw [if_neg]
    · rw [Option.toList_some, ← hid, ← h.rows_eq g hg]
    · exact List.ne_nil_of_mem (List.mem_filter.mpr ⟨hrow, decide_eq_true hrowId⟩)

theorem Grouped.filter_of_mem {rows : List ScheduleRow}
    {groups : List (LoanId × List ScheduleRow)} (h : Grouped rows groups)
    {g : LoanId × List ScheduleRow} (hg : g ∈ groups) :
    groups.filter (fun d => d.1 = g.1) = [g] := by
  rw [filter_eq_toList_find? Prod.fst g.1 h.nodup, find?_key_eq_some Prod.fst h.nodup hg]
  rfl

/-- In the books of one loan a run has the group of that loan, if there is one. -/
theorem Books.groups_alone {b : Books} (h : b.ledger.Filed) (id : LoanId) (mode : RunMode)
    (today : Date) :
    groupByLoan ((b.alone id).ledger.candidates none mode today) =
      (groupByLoan (b.ledger.candidates none mode today)).filter fun g => g.1 = id := by
  have hall : (groupByLoan ((b.alone id).ledger.candidates none mode today)).filter
      (fun g => g.1 = id) = groupByLoan ((b.alone id).ledger.candidates none mode today) := by
    apply List.filter_eq_self.mpr
    intro g hg
    have hkey := ((grouped_groupByLoan _).mem_keys g.1).mp (List.mem_map_of_mem hg)
    obtain ⟨row, hrow, hid⟩ := List.mem_map.mp hkey
    obtain ⟨loan, hloan, -⟩ := Ledger.mem_candidates (Books.filed_alone h id) hrow
    by_contra hne
    rw [hid, alone, Table.find?_only_of_ne _ (by simpa using hne)] at hloan
    cases hloan
  rw [← hall, (grouped_groupByLoan _).filter_eq id, (grouped_groupByLoan _).filter_eq id,
    Ledger.filter_candidates (Books.filed_alone h id), Ledger.filter_candidates h,
    (b.alike_alone id).ledger.loan]

namespace Batch

variable {b : Batch} {mode : RunMode} {today : Date} {c : Cancellation} {st : Books}

/-- What a run reports of every loan, before it counts as a failure if any of them failed. -/
def outcomes (b : Batch) (mode : RunMode) (today : Date) (c : Cancellation) (st : Books) :
    Except Failure RunSummary :=
  match b.settings with
  | .error r => refuse r
  | .ok settings =>
    let t : RunTerms := ⟨settings, mode, today⟩
    match (t.accrueGroups c (groupByLoan (st.ledger.candidates none mode today)) .empty st).2 with
    | .error f => .error (.fault f)
    | .ok summary => .ok summary

/-- A run gives its summary, or fails with all the failures in it. -/
theorem run_result (b : Batch) (mode : RunMode) (today : Date) (c : Cancellation) (st : Books) :
    (b.run mode today none c st).result =
      b.outcomes mode today c st >>= fun summary => liftM summary.result := by
  cases hs : b.settings with
  | error r => simp only [run, outcomes, hs]; rfl
  | ok s =>
    rw [(run_eq hs mode today none c st).2, outcomes, hs]
    dsimp only [Option.getD_none]
    cases ((⟨s, mode, today⟩ : RunTerms).accrueGroups c
      (groupByLoan (st.ledger.candidates none mode today)) .empty st).2 <;> rfl

theorem run_result_eq_fault {f : Fault} :
    (b.run mode today none c st).result = .error (.fault f) ↔
      b.outcomes mode today c st = .error (.fault f) := by
  rw [run_result]
  cases b.outcomes mode today c st with
  | error g => rfl
  | ok summary =>
    dsimp only [bind_ok]
    cases summary.result <;> exact ⟨fun h => (nomatch h), fun h => nomatch h⟩

variable {s : Settings}

theorem outcomes_eq (hs : b.settings = .ok s) :
    b.outcomes mode today c st =
      match ((⟨s, mode, today⟩ : RunTerms).accrueGroups c
        (groupByLoan (st.ledger.candidates none mode today)) .empty st).2 with
      | .error f => .error (.fault f)
      | .ok summary => .ok summary := by
  simp only [outcomes, hs]

/-- Once the settings are in force only a fault leaves a run without a report. -/
theorem fault_of_outcomes (hs : b.settings = .ok s) {failure : Failure}
    (h : b.outcomes mode today c st = .error failure) : ∃ f, failure = .fault f := by
  rw [outcomes_eq hs] at h
  split at h
  · cases h
    exact ⟨_, rfl⟩
  · cases h

theorem outcomes_eq_ok (hs : b.settings = .ok s) {made : RunSummary} :
    b.outcomes mode today c st = .ok made ↔ ((⟨s, mode, today⟩ : RunTerms).accrueGroups c
      (groupByLoan (st.ledger.candidates none mode today)) .empty st).2 = .ok made := by
  rw [outcomes_eq hs]
  split <;> simp_all

/-- The turns of a run that ends with a report. -/
theorem turns_of_outcomes (hs : b.settings = .ok s) {made : RunSummary}
    (h : b.outcomes mode today c st = .ok made) :
    (⟨s, mode, today⟩ : RunTerms).accrueGroups c
      (groupByLoan (st.ledger.candidates none mode today)) .empty st =
        ((b.run mode today none c st).books, .ok made) :=
  Prod.ext (run_books hs mode today c st).symm ((outcomes_eq_ok hs).mp h)

/-- A run that meets no fault ends with a report. -/
theorem exists_outcomes (hs : b.settings = .ok s)
    (hfault : ∀ f, (b.run mode today none c st).result ≠ .error (.fault f)) :
    ∃ made, b.outcomes mode today c st = .ok made := by
  cases hrun : b.outcomes mode today c st with
  | error failure =>
    obtain ⟨f, rfl⟩ := fault_of_outcomes hs hrun
    exact absurd (run_result_eq_fault.mpr hrun) (hfault f)
  | ok made => exact ⟨made, rfl⟩

/-- A loan without candidate rows is passed by. -/
private theorem passes_of_no_candidates (hs : b.settings = .ok s) (hfiled : st.ledger.Filed)
    {summary : RunSummary} (hrun : b.outcomes mode today c st = .ok summary) {id : LoanId}
    (hid : id ∉ (groupByLoan (st.ledger.candidates none mode today)).map Prod.fst) :
    (∃ w, st.Passes id w (b.run mode today none c st).books) ∧ summary.of id = .empty := by
  obtain ⟨w, hw, hsummary⟩ :=
    RunTerms.accrueGroups_passes (turns_of_outcomes hs hrun) hfiled hid
  exact ⟨⟨w, hw⟩, hsummary summary rfl⟩

/-- A run beside a run over one of its loans alone. -/
theorem isolated_of_outcomes (hs : b.settings = .ok s) (hfiled : st.ledger.Filed)
    {summary : RunSummary} (hrun : b.outcomes mode today c st = .ok summary) (id : LoanId) :
    Isolated id (st.alone id) st (b.run mode today none c st).books
        (b.run mode today none c (st.alone id)).books ∧
      b.outcomes mode today c (st.alone id) = .ok (summary.of id) := by
  have hgrouped := grouped_groupByLoan (st.ledger.candidates none mode today)
  rw [run_books hs mode today c (st.alone id), outcomes_eq hs,
    Books.groups_alone hfiled id mode today]
  by_cases hid : id ∈ (groupByLoan (st.ledger.candidates none mode today)).map Prod.fst
  · obtain ⟨⟨k, rows⟩, hmem, rfl⟩ := List.mem_map.mp hid
    obtain ⟨solo, hsolo, hisolated⟩ := RunTerms.accrueGroups_isolated (turns_of_outcomes hs hrun)
      hfiled hgrouped.nodup hmem (st.alike_alone k) (Books.filed_alone hfiled k) rfl
    rw [show RunSummary.empty.of k = .empty from rfl] at hsolo
    rw [hgrouped.filter_of_mem hmem, hsolo]
    exact ⟨hisolated, rfl⟩
  · obtain ⟨⟨w, hw⟩, hsummary⟩ := passes_of_no_candidates hs hfiled hrun hid
    have hfilter : (groupByLoan (st.ledger.candidates none mode today)).filter
        (fun g => g.1 = id) = [] :=
      List.filter_eq_nil_iff.mpr fun g hg hgid =>
        hid (List.mem_map.mpr ⟨g, hg, of_decide_eq_true hgid⟩)
    rw [hfilter, hsummary]
    exact ⟨hw.isolated (st.alike_alone id), rfl⟩

private theorem not_mem_keys_of_inactive (hfiled : st.ledger.Filed) {id : LoanId}
    {loan : Loan} (hloan : st.ledger.loans.find? id = some loan)
    (hinactive : loan.status.isActive = false) :
    id ∉ (groupByLoan (st.ledger.candidates none mode today)).map Prod.fst := by
  intro hid
  obtain ⟨row, hrow, rfl⟩ := List.mem_map.mp (((grouped_groupByLoan _).mem_keys id).mp hid)
  obtain ⟨found, hfound, hcandidate⟩ := Ledger.mem_candidates hfiled hrow
  cases hloan.symm.trans hfound
  rw [(Ledger.mem_candidatesOf hcandidate).1] at hinactive
  cases hinactive

/-- A run makes of a loan, writes about it and reports of it what the same run over that loan alone
does, but for the names of transactions; and it leaves a loan alone that is not active. -/
theorem run_isolated (hfiled : st.ledger.Filed)
    (hfault : ∀ f, (b.run mode today none c st).result ≠ .error (.fault f)) (id : LoanId) :
    Isolated id (st.alone id) st (b.run mode today none c st).books
        (b.run mode today none c (st.alone id)).books ∧
      b.outcomes mode today c (st.alone id) =
        RunSummary.of id <$> b.outcomes mode today c st ∧
      ∀ loan, st.ledger.loans.find? id = some loan → loan.status.isActive = false →
        (b.run mode today none c st).books.ledger.loans.find? id = some loan ∧
          ∃ w, st.Adds w (b.run mode today none c st).books ∧ w.of id = .nothing := by
  cases hs : b.settings with
  | error r =>
    have hstays : st.Passes id .nothing st := ⟨.refl _, rfl, .refl id _⟩
    rw [run_of_error hs, run_of_error hs]
    refine ⟨hstays.isolated (st.alike_alone id), ?_, fun loan hloan _ =>
      ⟨hloan, .nothing, .refl _, rfl⟩⟩
    simp only [outcomes, hs]
    rfl
  | ok s =>
    obtain ⟨summary, hrun⟩ := exists_outcomes hs hfault
    obtain ⟨hisolated, houtcomes⟩ := isolated_of_outcomes hs hfiled hrun id
    rw [hrun]
    refine ⟨hisolated, houtcomes, fun loan hloan hinactive => ?_⟩
    obtain ⟨⟨w, hw⟩, -⟩ := passes_of_no_candidates hs hfiled hrun
      (not_mem_keys_of_inactive hfiled hloan hinactive)
    exact ⟨hw.alike.ledger.loan.trans hloan, w, hw.adds, hw.others⟩

end Batch

/-- A second loan, of the first installment. -/
def secondLoan : Loan :=
  { Loan.blank 2 .active with schedule := [{ januaryRow with loanId := 2 }] }

/-- Books in which the journal refuses the first of two loans, and another writer comes before the
second. -/
def neighbours : Books where
  ledger := ((booksOf januaryFeeLoan).ledger.putLoan secondLoan).expectConflicts 2 1
  journal := Journal.empty.refusing 1
  events := []
  nextId := 0

theorem filed_neighbours : neighbours.ledger.Filed := by
  intro id loan hloan
  by_cases hid : id = 2
  · subst hid
    cases (Table.find?_insert_self _ _ _).symm.trans hloan
    exact ⟨rfl, by decide⟩
  · have hloan := (Table.find?_insert_of_ne _ hid _).symm.trans hloan
    obtain ⟨rfl, rfl⟩ := find?_booksOf hloan
    exact ⟨rfl, by decide⟩

theorem run_neighbours :
    (standardBatch.run .asOfToday firstOfMarch none .never neighbours).result =
      refuse (.runFailed 1
        ["loan 1: journal entry posting failed for loan 1: storage error: journal unavailable"]) := by
  decide +kernel

theorem run_isolated_neighbours :
    Isolated 2 (neighbours.alone 2) neighbours
      (standardBatch.run .asOfToday firstOfMarch none .never neighbours).books
      (standardBatch.run .asOfToday firstOfMarch none .never (neighbours.alone 2)).books ∧
    (standardBatch.run .asOfToday firstOfMarch none .never
      neighbours).books.ledger.transactions.map (·.loanId) = [2] := by
  have hfault : ∀ f, (standardBatch.run .asOfToday firstOfMarch none .never neighbours).result ≠
      .error (.fault f) := fun f hf => nomatch run_neighbours.symm.trans hf
  exact ⟨(Batch.run_isolated filed_neighbours hfault 2).1, by decide +kernel⟩

end LoanLedger
