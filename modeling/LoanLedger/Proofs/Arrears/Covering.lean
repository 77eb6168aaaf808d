import LoanLedger.Proofs.Arrears.Overdue

/-!
Arrears aspect by aspect. Repayments are laid over periods, and what they leave is added up, for
principal, interest, fees and penalties each on their own; a step succeeds when it does so on every
aspect, and what it gives on an aspect depends on that aspect alone.
-/

set_option autoImplicit false
set_option relaxedAutoImplicit false

namespace LoanLedger

/-- What amounts are due for. -/
inductive Aspect
  | principal
  | interest
  | fee
  | penalty
  deriving DecidableEq, Repr

/-- The overdue amount of an aspect. -/
def OverdueTotals.part (t : OverdueTotals) : Aspect → Money
  | .principal => t.principal
  | .interest => t.interest
  | .fee => t.fee
  | .penalty => t.penalty

/-- The totals with an amount for every aspect. -/
def OverdueTotals.of (m : Aspect → Money) : OverdueTotals :=
  ⟨m .principal, m .interest, m .fee, m .penalty⟩

@[simp] theorem OverdueTotals.part_of (m : Aspect → Money) (k : Aspect) :
    (OverdueTotals.of m).part k = m k := by
  cases k <;> rfl

@[simp] theorem OverdueTotals.part_none (k : Aspect) : OverdueTotals.none.part k = .zero := by
  cases k <;> rfl

/-- What a period asks for. -/
def IssuedPeriod.due (p : IssuedPeriod) : Aspect → Money
  | .principal => p.principal
  | .interest => p.interest
  | .fee => p.fee
  | .penalty => p.penalty

/-- What repayments pay of a period. -/
def CoveredPeriod.paid (c : CoveredPeriod) : Aspect → Money
  | .principal => c.principal
  | .interest => c.interest
  | .fee => c.fee
  | .penalty => c.penalty

/-- A period with what repayments pay of it, and whether that is enough for every aspect. -/
def CoveredPeriod.of (period : IssuedPeriod) (paid : Aspect → Money) (done : Aspect → Bool) :
    CoveredPeriod where
  period
  principal := paid .principal
  interest := paid .interest
  fee := paid .fee
  penalty := paid .penalty
  complete := done .principal && done .interest && done .fee && done .penalty

@[simp] theorem CoveredPeriod.period_of (period : IssuedPeriod) (paid : Aspect → Money)
    (done : Aspect → Bool) : (CoveredPeriod.of period paid done).period = period := rfl

@[simp] theorem CoveredPeriod.paid_of (period : IssuedPeriod) (paid : Aspect → Money)
    (done : Aspect → Bool) (k : Aspect) : (CoveredPeriod.of period paid done).paid k = paid k := by
  cases k <;> rfl

theorem CoveredPeriod.complete_of (period : IssuedPeriod) (paid : Aspect → Money)
    (done : Aspect → Bool) :
    (CoveredPeriod.of period paid done).complete = true ↔ ∀ k, done k = true := by
  simp only [CoveredPeriod.of, Bool.and_eq_true]
  refine ⟨fun ⟨⟨⟨hprincipal, hinterest⟩, hfee⟩, hpenalty⟩ k => ?_,
    fun hdone => ⟨⟨⟨hdone _, hdone _⟩, hdone _⟩, hdone _⟩⟩
  cases k <;> assumption

/-- What of the repayments has not reached a period yet. -/
def RepaymentPools.pool (p : RepaymentPools) : Aspect → Money
  | .principal => p.principal
  | .interest => p.interest
  | .fee => p.fee
  | .penalty => p.penalty

/-- The pools with an amount for every aspect. -/
def RepaymentPools.of (m : Aspect → Money) : RepaymentPools :=
  ⟨m .principal, m .interest, m .fee, m .penalty⟩

@[simp] theorem RepaymentPools.pool_of (m : Aspect → Money) (k : Aspect) :
    (RepaymentPools.of m).pool k = m k := by
  cases k <;> rfl

/-- The aspect of an installment. -/
def Installment.part (i : Installment) : Aspect → Component
  | .principal => i.principal
  | .interest => i.interest
  | .fee => i.fee
  | .penalty => i.penalty

/-- What was repaid on a loan. -/
def RepaymentTotals.paid (t : RepaymentTotals) : Aspect → Money
  | .principal => t.principalPaid
  | .interest => t.interestPaid
  | .fee => t.feePaid
  | .penalty => t.penaltyPaid

/-- What was written off or waived on a loan. -/
def RepaymentTotals.forgiven (t : RepaymentTotals) : Aspect → Money
  | .principal => t.principalWrittenOff
  | .interest => t.interestWaived
  | .fee => t.feeWaived
  | .penalty => t.penaltyWaived

/-- The amounts of all aspects. -/
def Aspect.amounts (m : Aspect → Money) : List Money :=
  [m .principal, m .interest, m .fee, m .penalty]

theorem Aspect.mem_amounts (m : Aspect → Money) (k : Aspect) : m k ∈ Aspect.amounts m := by
  cases k <;> simp [Aspect.amounts]

/-- The amounts of a period. -/
def IssuedPeriod.amounts (p : IssuedPeriod) : List Money := Aspect.amounts p.due

/-- The amounts of repayments. -/
def RepaymentTotals.amounts (t : RepaymentTotals) : List Money :=
  Aspect.amounts t.paid ++ Aspect.amounts t.forgiven

namespace RepaymentPools

theorem ofTotals_eq {t : RepaymentTotals} {m : Aspect → Money}
    (h : ∀ k, (t.paid k).add (t.forgiven k) = .ok (m k)) : ofTotals t = .ok (.of m) :=
  bind_eq_ok.mpr ⟨_, h .principal, bind_eq_ok.mpr ⟨_, h .interest,
    bind_eq_ok.mpr ⟨_, h .fee, bind_eq_ok.mpr ⟨_, h .penalty, rfl⟩⟩⟩⟩

theorem cover_eq {p : RepaymentPools} {period : IssuedPeriod} {paid left : Aspect → Money}
    {done : Aspect → Bool}
    (h : ∀ k, take (period.due k) (p.pool k) = .ok (paid k, left k, done k)) :
    p.cover period = .ok (.of period paid done, .of left) :=
  bind_eq_ok.mpr ⟨_, h .principal, bind_eq_ok.mpr ⟨_, h .interest,
    bind_eq_ok.mpr ⟨_, h .fee, bind_eq_ok.mpr ⟨_, h .penalty, rfl⟩⟩⟩⟩

end RepaymentPools

namespace Arrears

theorem IssuedTally.include_eq {t : IssuedTally} {c : CoveredPeriod} {o m : Aspect → Money}
    (ho : ∀ k, (c.period.due k).monus (c.paid k) = .ok (o k))
    (hm : ∀ k, (t.totals.part k).add (o k) = .ok (m k)) :
    t.include c = .ok ⟨.of m, if c.period.dueDate < t.since && c.principal < c.period.principal
      then c.period.dueDate else t.since⟩ :=
  bind_eq_ok.mpr ⟨_, ho .principal, bind_eq_ok.mpr ⟨_, hm .principal,
    bind_eq_ok.mpr ⟨_, ho .interest, bind_eq_ok.mpr ⟨_, hm .interest,
    bind_eq_ok.mpr ⟨_, ho .fee, bind_eq_ok.mpr ⟨_, hm .fee,
    bind_eq_ok.mpr ⟨_, ho .penalty, bind_eq_ok.mpr ⟨_, hm .penalty, rfl⟩⟩⟩⟩⟩⟩⟩⟩

theorem LiveTally.include_eq {t : LiveTally} {i : Installment} {o m : Aspect → Money}
    {settled : Bool} (ho : ∀ k, (i.part k).outstanding = .ok (o k))
    (hm : ∀ k, (t.totals.part k).add (o k) = .ok (m k)) (hsettled : i.isSettled = .ok settled) :
    t.include i = .ok ⟨.of m, if !settled && i.dueDate < t.since then i.dueDate else t.since⟩ :=
  bind_eq_ok.mpr ⟨_, ho .principal, bind_eq_ok.mpr ⟨_, hm .principal,
    bind_eq_ok.mpr ⟨_, ho .interest, bind_eq_ok.mpr ⟨_, hm .interest,
    bind_eq_ok.mpr ⟨_, ho .fee, bind_eq_ok.mpr ⟨_, hm .fee,
    bind_eq_ok.mpr ⟨_, ho .penalty, bind_eq_ok.mpr ⟨_, hm .penalty,
    bind_eq_ok.mpr ⟨_, hsettled, rfl⟩⟩⟩⟩⟩⟩⟩⟩⟩

end Arrears

theorem Installment.isSettled_eq {i : Installment} {o : Aspect → Money} {two three all : Money}
    (ho : ∀ k, (i.part k).outstanding = .ok (o k))
    (htwo : (o .principal).add (o .interest) = .ok two) (hthree : two.add (o .fee) = .ok three)
    (hall : three.add (o .penalty) = .ok all) : i.isSettled = .ok all.isZero :=
  bind_eq_ok.mpr ⟨all, bind_eq_ok.mpr ⟨_, ho .principal, bind_eq_ok.mpr ⟨_, ho .interest,
    bind_eq_ok.mpr ⟨_, htwo, bind_eq_ok.mpr ⟨_, ho .fee, bind_eq_ok.mpr ⟨_, hthree,
    bind_eq_ok.mpr ⟨_, ho .penalty, hall⟩⟩⟩⟩⟩⟩, rfl⟩

theorem OverdueTotals.toArrears_eq {t : OverdueTotals} {two three all : Money}
    (htwo : t.principal.add t.interest = .ok two) (hthree : two.add t.fee = .ok three)
    (hall : three.add t.penalty = .ok all) (id : LoanId) (since : Date) :
    t.toArrears id since = .ok (if t.principal.isPositive
      then some ⟨id, t.principal, t.interest, t.fee, t.penalty, all, since⟩ else Option.none) := by
  rw [toArrears]
  split
  · exact bind_eq_ok.mpr ⟨all, bind_eq_ok.mpr ⟨two, htwo, bind_eq_ok.mpr ⟨three, hthree, hall⟩⟩, rfl⟩
  · rfl

end LoanLedger
