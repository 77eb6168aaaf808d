import LoanLedger.Proofs.Isolation.Run

/-!
Runs over books that look alike to each of their loans. They end alike: where the one meets no
fault, the other meets none.
-/

set_option autoImplicit false
set_option relaxedAutoImplicit false

namespace LoanLedger

namespace RunTerms

variable {t : RunTerms} {c : Cancellation} {id : LoanId} {st st' σ : Books}

/-- On books that look alike to its loan a turn ends with the same result. -/
theorem accrueLoan_twins {tries attempt : Nat} {rows : List ScheduleRow} {σ' : Books}
    {r r' : Except Failure LoanSummary} (halike : st.Alike id σ)
    (h : t.accrueLoan id tries attempt rows st = (st', r)) (hg : st.ledger.Filed)
    (h' : t.accrueLoan id tries attempt rows σ = (σ', r')) (hg' : σ.ledger.Filed) : r' = r := by
  -- each of the two is compared with a turn in the books of the loan alone
  have hbeside : ∀ {b : Books}, (st.alone id).Alike id b → b.ledger.Filed →
      (t.accrueLoan id tries attempt rows b).2 =
        (t.accrueLoan id tries attempt rows (st.alone id)).2 := by
    intro b hb hfiled
    have htwins : (st.alone id).Twins id b.nextId b :=
      ⟨hb, (Nat.zero_add _).symm, Books.filed_alone hg id, hfiled⟩
    exact (accrueLoan_alike (t := t) htwins tries attempt rows).result
  have halone := st.alike_alone id
  have hsame := (hbeside (halone.trans halike) hg').trans (hbeside halone hg).symm
  rw [h, h'] at hsame
  exact hsame

theorem accrueGroups_filed {groups : List (LoanId × List ScheduleRow)} {summary : RunSummary}
    {r : Except Fault RunSummary} (h : t.accrueGroups c groups summary st = (st', r))
    (hg : st.ledger.Filed) : st'.ledger.Filed := by
  induction groups generalizing summary st with
  | nil =>
    cases h
    exact hg
  | cons group groups ih =>
    obtain ⟨k, rows⟩ := group
    rcases accrueGroups_cons_cases h with ⟨-, h⟩ | ⟨st₁, x, -, hloan, ⟨f, -, rfl, -⟩ | ⟨o, -, h⟩⟩
    · exact ih h hg
    · exact accrueLoan_filed hloan hg
    · exact ih h (accrueLoan_filed hloan hg)

/-- A run over several groups makes the turns of the first before those of the others. -/
theorem accrueGroups_append (t : RunTerms) (c : Cancellation)
    (pre post : List (LoanId × List ScheduleRow)) (summary : RunSummary) (st : Books) :
    t.accrueGroups c (pre ++ post) summary st =
      match t.accrueGroups c pre summary st with
      | (σ, .ok made) => t.accrueGroups c post made σ
      | (σ, .error f) => (σ, .error f) := by
  induction pre generalizing summary st with
  | nil => rfl
  | cons group pre ih =>
    obtain ⟨k, rows⟩ := group
    rw [List.cons_append, accrueGroups, accrueGroups]
    split
    · exact ih _ _
    · rcases t.accrueLoan k (t.settings.retry.maxAttempts.toNat - 1) 1 rows st with
        ⟨st₁, (r | f) | s⟩
      · exact ih _ _
      · rfl
      · exact ih _ _

/-- On books that look alike to each of its loans a run that meets no fault on the one meets none on
the other. -/
theorem accrueGroups_ok_of_alike {groups : List (LoanId × List ScheduleRow)}
    {summary summary' : RunSummary} (h : t.accrueGroups c groups summary st = (st', .ok summary'))
    (hg : st.ledger.Filed) (hn : (groups.map Prod.fst).Nodup) (hg' : σ.ledger.Filed)
    (halike : ∀ k ∈ groups.map Prod.fst, st.Alike k σ) (summary₁ : RunSummary) :
    ∃ σ' made, t.accrueGroups c groups summary₁ σ = (σ', .ok made) := by
  induction groups generalizing summary summary₁ st σ with
  | nil =>
    cases h
    exact ⟨σ, summary₁, rfl⟩
  | cons group groups ih =>
    obtain ⟨k, rows⟩ := group
    obtain ⟨hk, hn⟩ := List.nodup_cons.mp hn
    have hrest : ∀ i ∈ groups.map Prod.fst, st.Alike i σ := fun i hi =>
      halike i (List.mem_cons_of_mem _ hi)
    rcases accrueGroups_cons_cases h with
      ⟨hrequested, h⟩ | ⟨st₁, x, hgoing, hloan, ⟨f, -, -, hr⟩ | ⟨o, ho, h⟩⟩
    · rw [accrueGroups, if_pos hrequested]
      exact ih h hg hn hg' hrest _
    · cases hr
    · obtain ⟨σ₁, x', hloan', hcons⟩ := t.accrueGroups_cons k rows groups summary₁ σ hgoing
      obtain rfl := accrueLoan_twins (halike k List.mem_cons_self) hloan hg hloan' hg'
      rw [hcons, ho]
      obtain ⟨w, hw⟩ := accrueLoan_moves hloan hg
      obtain ⟨w', hw'⟩ := accrueLoan_moves hloan' hg'
      refine ih h (accrueLoan_filed hloan hg) hn (accrueLoan_filed hloan' hg') ?_ _
      intro i hi
      have hik : i ≠ k := fun heq => hk (heq ▸ hi)
      exact (hw.alike hik).symm.trans ((hrest i hi).trans (hw'.alike hik))

end RunTerms
end LoanLedger
