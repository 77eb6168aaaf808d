import LoanLedger.Proofs.Isolation.Commit
import LoanLedger.Proofs.Ledger.Accept

/-!
The turn of a loan on two books that look alike to it: it ends alike, tries as often, writes the
same under renamed transaction identifiers, and moves no other loan.
-/

set_option autoImplicit false
set_option relaxedAutoImplicit false

namespace LoanLedger

theorem RunTerms.accrueOnce_filed {t : RunTerms} {id : LoanId} {rows : List ScheduleRow}
    {st st' : Books} {r : Except Failure LoanSummary} (h : t.accrueOnce id rows st = (st', r))
    (hg : st.ledger.Filed) : st'.ledger.Filed := by
  rcases accrueOnce_spec h with ⟨hquiet, -⟩ | ⟨loan, loan', result, hloan, hposts, hloans, -⟩
  · exact hquiet.filed hg
  · intro k found hfound
    rw [hloans] at hfound
    by_cases hk : k = id
    · subst hk
      rw [Table.find?_insert_self] at hfound
      cases hfound
      exact (hg k loan hloan).accept hposts.accepted
    · rw [Table.find?_insert_of_ne _ hk] at hfound
      exact hg k found hfound

namespace Books

/-- The books of two runs that look alike to a loan, with transaction numbers that are `k` apart. -/
structure Twins (id : LoanId) (k : Nat) (st st' : Books) : Prop where
  alike : st.Alike id st'
  nextId : st'.nextId = st.nextId + k
  filed : st.ledger.Filed
  filed' : st'.ledger.Filed

end Books

/-- What is computed for a loan from two sets of books ends alike: with the same result, in books
that look alike again, and with the same written but for the names of the transactions. -/
structure EndsAlike {α : Type} (id : LoanId) (k : Nat) (st st' : Books)
    (x x' : Books × α) : Prop where
  result : x'.2 = x.2
  alike : x.1.Alike id x'.1
  nextId : x'.1.nextId = x.1.nextId + k
  moves : ∃ w, st.Moves id w x.1 ∧ st'.Moves id (w.rename (.shift k)) x'.1

theorem EndsAlike.map {α β : Type} {id : LoanId} {k : Nat} {st st' : Books}
    {x x' : Books × α} (h : EndsAlike id k st st' x x') (b : β) :
    EndsAlike id k st st' (x.1, b) (x'.1, b) :=
  ⟨rfl, h.alike, h.nextId, h.moves⟩

theorem EndsAlike.trans {α β : Type} {id : LoanId} {k : Nat} {st st' : Books}
    {x x' : Books × α} {y y' : Books × β} (h : EndsAlike id k st st' x x')
    (h' : EndsAlike id k x.1 x'.1 y y') : EndsAlike id k st st' y y' where
  result := h'.result
  alike := h'.alike
  nextId := h'.nextId
  moves := by
    obtain ⟨w, hw, hw'⟩ := h.moves
    obtain ⟨v, hv, hv'⟩ := h'.moves
    exact ⟨w.append v, hw.trans hv, Written.append_rename ▸ hw'.trans hv'⟩

theorem EndsAlike.twins {α : Type} {id : LoanId} {k : Nat} {st st' : Books}
    {x x' : Books × α} (h : EndsAlike id k st st' x x')
    (hfiled : x.1.ledger.Filed) (hfiled' : x'.1.ledger.Filed) :
    x.1.Twins id k x'.1 :=
  ⟨h.alike, h.nextId, hfiled, hfiled'⟩

namespace RunTerms

variable {t : RunTerms} {id : LoanId} {k : Nat} {st st' : Books}

theorem loanId_of_mem_events {r : AccrualResult} {e : Event} (he : e ∈ r.events id) :
    e.loanId = id := by
  rcases List.mem_append.mp he with he | he
  · obtain ⟨p, -, rfl⟩ := List.mem_map.mp he
    rfl
  · obtain ⟨till, -, rfl⟩ := Option.map_eq_some_iff.mp (Option.mem_toList.mp he)
    rfl

private theorem announce_moves (st : Books) {es : List Event} (hes : ∀ e ∈ es, e.loanId = id) :
    st.Moves id ⟨[], [], es⟩ (st.announce es) where
  isFor := ⟨fun _ hp => (nomatch hp), fun _ he => (nomatch he), hes⟩
  adds := ⟨(List.append_nil _).symm, (List.append_nil _).symm, (List.append_nil _).symm, rfl⟩
  others := fun _ _ => ⟨rfl, rfl, rfl⟩
  arrears := rfl
  refused := rfl

/-- A commit, for which each run draws its transaction numbers, ends alike. -/
private theorem commit_alike (h : st.Twins id k st') {version : UInt64} {result : AccrualResult}
    (hpostings : ∀ p ∈ result.postings, p.transaction.loanId = id)
    (hentries : ∀ e ∈ result.entries, e.loanId = id) :
    ∃ books books' r,
      ({ st with nextId := st.nextId + result.postings.length } : Books).commit
        ⟨id, version, result⟩ = (books, r) ∧
      ({ st' with nextId := st'.nextId + result.postings.length } : Books).commit
        ⟨id, version, result.rename (.shift k)⟩ = (books', r) ∧
      EndsAlike id k st st' (books, r) (books', r) := by
  obtain ⟨drawn, hdrawn⟩ : ∃ b : Books, b =
      { st with nextId := st.nextId + result.postings.length } := ⟨_, rfl⟩
  obtain ⟨drawn', hdrawn'⟩ : ∃ b : Books, b =
      { st' with nextId := st'.nextId + result.postings.length } := ⟨_, rfl⟩
  have halike : drawn.Alike id drawn' := hdrawn ▸ hdrawn' ▸ ⟨h.alike.ledger, h.alike.refused⟩
  obtain ⟨hends, hsame⟩ := halike.commit (c := ⟨id, version, result⟩) hentries (.shift k)
  have hmoves := drawn.commit_moves (c := ⟨id, version, result⟩) hpostings hentries
  have hmoves' := drawn'.commit_moves (c := ⟨id, version, result.rename (.shift k)⟩)
    (List.forall_mem_map.mpr hpostings) (List.forall_mem_map.mpr hentries)
  have hnext : (drawn'.commit ⟨id, version, result.rename (.shift k)⟩).1.nextId =
      (drawn.commit ⟨id, version, result⟩).1.nextId + k := by
    rw [Books.nextId_commit, Books.nextId_commit, hdrawn, hdrawn']
    dsimp only
    rw [h.nextId, Nat.add_right_comm]
  -- The two commits are known by their ends from here on.
  rw [← hdrawn, ← hdrawn']
  generalize drawn.commit ⟨id, version, result⟩ = x at *
  generalize drawn'.commit ⟨id, version, result.rename (.shift k)⟩ = x' at *
  obtain ⟨books, r⟩ := x
  obtain ⟨books', r'⟩ := x'
  dsimp only at hmoves hmoves' hends hsame hnext
  subst hsame
  rw [hdrawn] at hmoves
  rw [hdrawn'] at hmoves'
  refine ⟨books, books', r', rfl, rfl, rfl, hends, hnext, ?_⟩
  cases r' with
  | error f => exact ⟨.nothing, hmoves.of_drawn, hmoves'.of_drawn⟩
  | ok v => exact ⟨_, hmoves.of_drawn, hmoves'.of_drawn⟩

/-- Books that ended alike end alike once a result is announced. -/
private theorem announce_alike {α β : Type} {x x' : Books × α} (h : EndsAlike id k st st' x x')
    (result : AccrualResult) (y : β) :
    EndsAlike id k st st' (x.1.announce (result.events id), y)
      (x'.1.announce ((result.rename (.shift k)).events id), y) where
  result := rfl
  alike := ⟨h.alike.ledger, h.alike.refused⟩
  nextId := h.nextId
  moves := by
    obtain ⟨w, hw, hw'⟩ := h.moves
    have hid : ∀ r : AccrualResult, ∀ e ∈ r.events id, e.loanId = id :=
      fun r e he => loanId_of_mem_events he
    have hevents := announce_moves x.1 (hid result)
    have hevents' := announce_moves x'.1 (hid (result.rename (.shift k)))
    refine ⟨_, hw.trans hevents, ?_⟩
    rw [result.events_rename (.shift k) id] at hevents' ⊢
    rw [Written.append_rename]
    exact hw'.trans hevents'

private theorem conclude_alike (h : st.Twins id k st') {version : UInt64} {result : AccrualResult}
    (hpostings : ∀ p ∈ result.postings, p.transaction.loanId = id)
    (hentries : ∀ e ∈ result.entries, e.loanId = id) :
    EndsAlike id k st st' (conclude id version result st)
      (conclude id version (result.rename (.shift k)) st') := by
  have hempty : (result.rename (.shift k)).isEmpty = result.isEmpty := List.isEmpty_map
  have hlength : (result.rename (.shift k)).postings.length = result.postings.length :=
    List.length_map _
  have hamounts : (result.rename (.shift k)).postings.map (·.transaction.amount) =
      result.postings.map (·.transaction.amount) := List.map_map
  simp only [conclude, hempty, hlength]
  split
  · exact ⟨rfl, h.alike, h.nextId, .nothing, .refl id st, .refl id st'⟩
  · obtain ⟨books, books', r, hcommit, hcommit', hends⟩ := commit_alike h hpostings hentries
    rw [hcommit, hcommit']
    cases r with
    | error f => exact hends.map _
    | ok v =>
      dsimp only
      rw [hamounts]
      cases Money.sum (result.postings.map (·.transaction.amount)) with
      | error f => exact announce_alike hends result _
      | ok amount => exact announce_alike hends result _

/-- An attempt at a loan ends alike on books that look alike to it. -/
theorem accrueOnce_alike (h : st.Twins id k st') (rows : List ScheduleRow) :
    EndsAlike id k st st' (t.accrueOnce id rows st) (t.accrueOnce id rows st') := by
  have hstays (r : Except Failure LoanSummary) : EndsAlike id k st st' (st, r) (st', r) :=
    ⟨rfl, h.alike, h.nextId, .nothing, .refl id st, .refl id st'⟩
  rw [accrueOnce_eq, accrueOnce_eq, h.alike.ledger.loan]
  cases hloan : st.ledger.loans.find? id with
  | none => exact hstays _
  | some loan =>
    dsimp only
    cases loan.status.isActive with
    | false => exact hstays _
    | true =>
      have hshift := (loan.inputOn id rows).accrue_shift k t.settings t.today t.mode st.nextId
      rw [← h.nextId] at hshift
      rw [hshift]
      cases haccrue : (loan.inputOn id rows).accrue t.mode t.settings t.today st.nextId with
      | error f => exact hstays _
      | ok result =>
        exact conclude_alike h (fun p hp => AccrualInput.accrue_loanId haccrue hp)
          (fun e he => AccrualInput.loanId_of_mem_entries haccrue he)

/-- The attempts at a loan end alike on books that look alike to it. -/
theorem accrueLoan_alike (h : st.Twins id k st') (tries attempt : Nat) (rows : List ScheduleRow) :
    EndsAlike id k st st' (t.accrueLoan id tries attempt rows st)
      (t.accrueLoan id tries attempt rows st') := by
  induction tries using Nat.strong_induction_on generalizing attempt rows st st' with
  | _ tries ih =>
    have honce := accrueOnce_alike (t := t) h rows
    unfold accrueLoan
    rcases hx : t.accrueOnce id rows st with ⟨st₁, r⟩
    rcases hx' : t.accrueOnce id rows st' with ⟨st₁', r'⟩
    rw [hx, hx'] at honce
    obtain rfl : r' = r := honce.result
    rcases r' with (r | f) | s
    · dsimp only
      split
      · cases tries with
        | zero => exact honce.map _
        | succ tries =>
          have htwins : st₁.Twins id k st₁' :=
            honce.twins (accrueOnce_filed hx h.filed) (accrueOnce_filed hx' h.filed')
          have hrows : st₁'.ledger.candidates (some id) t.mode t.today =
              st₁.ledger.candidates (some id) t.mode t.today := by
            rw [Ledger.candidates_some htwins.filed, Ledger.candidates_some htwins.filed',
              htwins.alike.ledger.loan]
          dsimp only
          rw [hrows]
          exact honce.trans (ih tries (Nat.lt_succ_self tries) htwins _ _)
      · exact honce.map _
    · exact honce.map _
    · exact honce.map _

theorem accrueLoan_filed {tries attempt : Nat} {rows : List ScheduleRow}
    {r : Except Failure LoanSummary} (h : t.accrueLoan id tries attempt rows st = (st', r))
    (hg : st.ledger.Filed) : st'.ledger.Filed := by
  induction tries using Nat.strong_induction_on generalizing attempt rows st with
  | _ tries ih =>
    rcases hattempt : t.accrueOnce id rows st with ⟨st₁, r₁⟩
    have hfiled := accrueOnce_filed hattempt hg
    rcases accrueLoan_cases hattempt h with ⟨rfl, -⟩ | ⟨f, n, -, -, rfl, hrest⟩
    · exact hfiled
    · exact ih n (Nat.lt_succ_self n) hrest hfiled

private theorem accrueOnce_loanId {rows : List ScheduleRow} {r : Except Failure LoanSummary}
    (h : t.accrueOnce id rows st = (st', r)) : ∀ s, r = .ok s → s.loanId = id := by
  rcases accrueOnce_spec h with ⟨-, -, -, hok⟩ | ⟨_, _, _, _, _, _, _, hok, -⟩
  · exact fun s hs => (hok s hs).1
  · exact hok

theorem accrueLoan_loanId {tries attempt : Nat} {rows : List ScheduleRow} {s : LoanSummary}
    (h : t.accrueLoan id tries attempt rows st = (st', .ok s)) : s.loanId = id := by
  induction tries using Nat.strong_induction_on generalizing attempt rows st with
  | _ tries ih =>
    rcases hattempt : t.accrueOnce id rows st with ⟨st₁, r₁⟩
    rcases accrueLoan_cases hattempt h with ⟨rfl, hr⟩ | ⟨f, n, -, -, rfl, hrest⟩
    · obtain ⟨s₁, hs₁, rfl⟩ := hr s rfl
      exact accrueOnce_loanId hattempt s₁ hs₁
    · exact ih n (Nat.lt_succ_self n) hrest

theorem accrueLoan_moves {tries attempt : Nat} {rows : List ScheduleRow}
    {r : Except Failure LoanSummary} (h : t.accrueLoan id tries attempt rows st = (st', r))
    (hg : st.ledger.Filed) : ∃ w, st.Moves id w st' := by
  have htwins : st.Twins id 0 st := ⟨.refl id _, rfl, hg, hg⟩
  obtain ⟨w, hw, -⟩ := (accrueLoan_alike (t := t) htwins tries attempt rows).moves
  rw [h] at hw
  exact ⟨w, hw⟩

end RunTerms
end LoanLedger
