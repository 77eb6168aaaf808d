import LoanLedger.Proofs.Success
import LoanLedger.Ledger.Run

/-!
Transaction numbers carry no meaning: an accrual that numbers its transactions from a later start
gives the same result with the transactions renamed, and fails alike.
-/

set_option autoImplicit false
set_option relaxedAutoImplicit false

namespace LoanLedger

namespace TransactionId

/-- The identifier `k` numbers further on. -/
def shift (k : Nat) (t : TransactionId) : TransactionId := ofNat (t.number + k)

theorem shift_ofNat (k n : Nat) : shift k (ofNat n) = ofNat (n + k) := by
  simp only [shift, ofNat, Nat.mod_add_mod]

theorem shift_bijective (k : Nat) : Function.Bijective (shift k) := by
  have hback (a b : Nat) (h : (a + b) % limit = 0) (t : TransactionId) :
      shift b (shift a t) = t := by
    have hnumber : (t.number + a + b) % limit = t.number := by
      rw [Nat.add_assoc, Nat.add_mod, h, Nat.add_zero, Nat.mod_mod, Nat.mod_eq_of_lt t.number_lt]
    simp only [shift, ofNat, Nat.mod_add_mod, hnumber]
  have hsum : (k + (limit - k % limit)) % limit = 0 := by
    have hlt : k % limit < limit := Nat.mod_lt _ (by decide)
    rw [Nat.add_mod, ← Nat.mod_mod k, ← Nat.add_mod, Nat.mod_mod,
      Nat.add_sub_cancel' (Nat.le_of_lt hlt), Nat.mod_self]
  exact ⟨Function.LeftInverse.injective (hback _ _ hsum),
    Function.RightInverse.surjective (hback _ _ ((Nat.add_comm _ _).symm ▸ hsum))⟩

end TransactionId

variable (f : TransactionId → TransactionId)

/-! Records under other identifiers. -/

def Accrual.rename (t : Accrual) : Accrual := { t with id := f t.id }

def ChargePayment.rename (p : ChargePayment) : ChargePayment :=
  { p with transactionId := f p.transactionId }

def Posting.rename (p : Posting) : Posting :=
  { p with transaction := p.transaction.rename f, payments := p.payments.map (.rename f) }

def JournalTransaction.rename (t : JournalTransaction) : JournalTransaction :=
  { t with id := f t.id }

def JournalEntry.rename (e : JournalEntry) : JournalEntry :=
  { e with transactions := e.transactions.map (.rename f) }

def Event.rename : Event → Event
  | .accrualCreated loan t installment amount date =>
    .accrualCreated loan (f t) installment amount date
  | e => e

def AccrualResult.rename (r : AccrualResult) : AccrualResult :=
  { r with postings := r.postings.map (.rename f), entries := r.entries.map (.rename f) }

theorem AccrualResult.events_rename (r : AccrualResult) (id : LoanId) :
    (r.rename f).events id = (r.events id).map (.rename f) := by
  simp only [events, rename, List.map_append, List.map_map]
  congr 1
  cases r.accruedTill <;> rfl

theorem Loan.accept_rename (loan : Loan) (r : AccrualResult) :
    loan.accept (r.rename f) = loan.accept r := by
  have hposts : (r.postings.map (.rename f)).foldlM post loan = r.postings.foldlM post loan := by
    rw [List.foldlM_map]
    rfl
  simp only [accept, AccrualResult.rename, hposts]

theorem AccrualResult.rename_rename (g : TransactionId → TransactionId) (r : AccrualResult) :
    (r.rename f).rename g = r.rename (g ∘ f) := by
  simp only [rename, List.map_map]
  congr 1
  · refine List.map_congr_left fun p _ => ?_
    simp only [Function.comp_apply, Posting.rename, List.map_map]
    rfl
  · refine List.map_congr_left fun e _ => ?_
    simp only [Function.comp_apply, JournalEntry.rename, List.map_map]
    rfl

namespace PreparedAccrual

variable (p : PreparedAccrual) (s : Settings) (id : TransactionId) (parts : Portions)
  (postedOn till processedOn : Date)

private theorem post_rename : p.post (f id) parts postedOn till processedOn =
    Option.map (Posting.rename f) <$> p.post id parts postedOn till processedOn := by
  simp only [post, map_bind]
  congr 1
  funext part
  congr 1
  funext amount
  cases amount.isPositive with
  | false => rfl
  | true =>
    simp only [Bool.not_true, Bool.false_eq_true, if_false, map_pure, Option.map_some,
      Posting.rename, Accrual.rename, List.map_map]
    rfl

private theorem postPeriod_rename : p.postPeriod s (f id) processedOn =
    Option.map (Posting.rename f) <$> p.postPeriod s id processedOn := by
  simp only [postPeriod, post_rename, map_bind]

private theorem postTill_rename : p.postTill s (f id) till processedOn =
    Option.map (Posting.rename f) <$> p.postTill s id till processedOn := by
  simp only [postTill, post_rename, map_bind]

end PreparedAccrual

namespace AccrualInput

variable (k : Nat)

/-- An accrual in progress, `k` transaction numbers further on. -/
private def Progress.shifted (g : Progress) : Progress :=
  { g with
    postings := g.postings.map (.rename (.shift k))
    nextId := g.nextId + k }

variable (input : AccrualInput) (s : Settings) (processedOn till : Date) (row : ScheduleRow)

private theorem add_shifted (g : Progress) (p : PreparedAccrual) (o : Option Posting) :
    (Progress.shifted k g).add p (o.map (.rename (.shift k))) = Progress.shifted k <$> g.add p o := by
  cases o with
  | none => rfl
  | some x =>
    simp only [Progress.add, Option.map_some, map_bind, map_pure]
    simp [Progress.shifted, Nat.add_right_comm]

private theorem accruePeriod_shifted (g : Progress) :
    input.accruePeriod s processedOn till (Progress.shifted k g) row =
      Progress.shifted k <$> input.accruePeriod s processedOn till g row := by
  simp only [accruePeriod, map_bind]
  congr 1
  funext p
  rw [show TransactionId.ofNat (Progress.shifted k g).nextId = .shift k (.ofNat g.nextId) from
    (TransactionId.shift_ofNat k g.nextId).symm, PreparedAccrual.postPeriod_rename, bind_map_left]
  congr 1
  funext o
  exact add_shifted k g p o

private theorem accrueTill_shifted (g : Progress) :
    input.accrueTill s processedOn till (Progress.shifted k g) row =
      Progress.shifted k <$> input.accrueTill s processedOn till g row := by
  simp only [accrueTill, map_bind]
  congr 1
  funext p
  rw [show TransactionId.ofNat (Progress.shifted k g).nextId = .shift k (.ofNat g.nextId) from
    (TransactionId.shift_ofNat k g.nextId).symm, PreparedAccrual.postTill_rename, bind_map_left]
  congr 1
  funext o
  exact add_shifted k g p o

private theorem atFuture_shifted (g : Progress) :
    (Progress.shifted k g).atFuture row = Progress.shifted k (g.atFuture row) := by
  simp only [Progress.atFuture]
  change (if (g.beforeFuture || g.mark.isNone) = true then _ else _) = _
  split <;> rfl

private theorem accrueNext_shifted (mode : RunMode) (g : Progress) :
    input.accrueNext mode s processedOn (Progress.shifted k g) row =
      Progress.shifted k <$> input.accrueNext mode s processedOn g row := by
  cases mode with
  | asOfToday => exact accruePeriod_shifted k input s processedOn row.dueDate row g
  | tillDate till =>
    simp only [accrueNext, accrueRow]
    split
    · rw [atFuture_shifted]
      change (if (g.atFuture row).isBehind till = true then _ else _) = _
      split
      · exact accrueTill_shifted k input s processedOn till row _
      · rfl
    · rw [accruePeriod_shifted, bind_map_left, map_bind]
      rfl

private theorem foldlM_shifted (mode : RunMode) (rows : List ScheduleRow) (g : Progress) :
    rows.foldlM (input.accrueNext mode s processedOn) (Progress.shifted k g) =
      Progress.shifted k <$> rows.foldlM (input.accrueNext mode s processedOn) g := by
  induction rows generalizing g with
  | nil => rfl
  | cons row rows ih =>
    simp only [List.foldlM_cons, accrueNext_shifted, bind_map_left, map_bind, ih]

private theorem entryFor?_rename (method : AccountingMethod) (p : Posting) :
    input.entryFor? method (p.rename f) = (input.entryFor? method p).map (.rename f) := by
  simp only [entryFor?, Option.map_map]
  rfl

private theorem liftM_map {α β : Type} (f : α → β) (x : Except Fault α) :
    (liftM (f <$> x) : Except Failure β) = f <$> (liftM x : Except Failure α) := by
  cases x <;> rfl

/-- Under later transaction numbers an accrual gives the renamed result, or fails alike. -/
theorem accrue_shift (mode : RunMode) (firstId : Nat) :
    input.accrue mode s processedOn (firstId + k) =
      AccrualResult.rename (.shift k) <$> input.accrue mode s processedOn firstId := by
  have hrows : input.accrueRows mode s processedOn (firstId + k) =
      Progress.shifted k <$> input.accrueRows mode s processedOn firstId :=
    foldlM_shifted k input s processedOn mode input.candidates
      ⟨[], input.charges, none, true, firstId⟩
  simp only [accrue, map_bind, map_pure]
  congr 1
  funext u
  rw [hrows, liftM_map, bind_map_left]
  congr 1
  funext g
  congr 1
  simp only [AccrualResult.rename, Progress.shifted, List.filterMap_map, List.map_filterMap,
    List.getLast?_map, Option.map_map]
  rw [show input.entryFor? s.accountingMethod ∘ Posting.rename (.shift k) = fun p =>
    (input.entryFor? s.accountingMethod p).map (JournalEntry.rename (.shift k)) from
    funext fun p => entryFor?_rename (.shift k) input s.accountingMethod p]
  rfl

/-- From whatever number on an accrual numbers its transactions, it gives the same result under other
identifiers, or fails alike. -/
theorem accrue_renumber (mode : RunMode) (n m : Nat) :
    ∃ f, Function.Bijective f ∧ input.accrue mode s processedOn m =
      AccrualResult.rename f <$> input.accrue mode s processedOn n := by
  have hshift := fun k => input.accrue_shift k s processedOn mode 0
  simp only [Nat.zero_add] at hshift
  obtain ⟨g, hleft, hright⟩ :=
    Function.bijective_iff_has_inverse.mp (TransactionId.shift_bijective n)
  refine ⟨TransactionId.shift m ∘ g, (TransactionId.shift_bijective m).comp
    (Function.bijective_iff_has_inverse.mpr ⟨_, hright, hleft⟩), ?_⟩
  have hback : (TransactionId.shift m ∘ g) ∘ TransactionId.shift n = TransactionId.shift m :=
    funext fun t => congrArg (TransactionId.shift m) (hleft t)
  rw [hshift m, hshift n]
  cases input.accrue mode s processedOn 0 with
  | error e => rfl
  | ok r => exact congrArg Except.ok ((r.rename_rename _ _).trans (by rw [hback])).symm

theorem accrue_renumbered {mode : RunMode} {n : Nat} {r : AccrualResult}
    (h : input.accrue mode s processedOn n = .ok r) (m : Nat) :
    ∃ f, Function.Bijective f ∧ input.accrue mode s processedOn m = .ok (r.rename f) := by
  obtain ⟨f, hf, hm⟩ := input.accrue_renumber s processedOn mode n m
  rw [h] at hm
  exact ⟨f, hf, hm⟩

end AccrualInput
end LoanLedger
