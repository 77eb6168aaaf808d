import LoanLedger.Error
import LoanLedger.Power

/-!
Settings of accrual and arrears runs: their defaults and validity, the retry delays, and the
snapshot that a run takes of a configuration.
-/

set_option autoImplicit false
set_option relaxedAutoImplicit false

namespace LoanLedger

/-- How often a conflicting commit is tried, and how long to wait in between. -/
structure RetryPolicy where
  maxAttempts : UInt32
  baseDelayMs : UInt64
  maxDelayMs : UInt64
  jitterMs : UInt64
  deriving DecidableEq, Repr

namespace RetryPolicy

/-- Three attempts, from 50 ms doubling up to two seconds. -/
def standard : RetryPolicy := ⟨3, 50, 2000, 50⟩

instance : Inhabited RetryPolicy := ⟨standard⟩

/-- Attempts without waiting. -/
def immediate (maxAttempts : UInt32) : RetryPolicy := ⟨maxAttempts, 0, 0, 0⟩

/-- The delay in milliseconds after a failed attempt, jitter aside: it doubles with every attempt,
seventeen times at most, and is capped. -/
def delayMs (r : RetryPolicy) (attempt : UInt32) : Nat :=
  Nat.min (r.baseDelayMs.toNat * twoTo (Nat.min (attempt.toNat - 1) 16)) r.maxDelayMs.toNat

end RetryPolicy

/-- Settings for the ageing of arrears. -/
structure AgeingSettings where
  /-- Compute against the schedule as first issued, where the product allows it. -/
  onIssuedSchedule : Bool
  /-- Days after its due date before a period of the issued schedule counts. -/
  graceDays : UInt32
  deriving DecidableEq, Repr

instance : Inhabited AgeingSettings := ⟨⟨false, 0⟩⟩

/-- The settings of a run. -/
structure Settings where
  policy : ChargePolicy
  accountingMethod : AccountingMethod
  rounding : RoundingMode
  retry : RetryPolicy
  arrears : AgeingSettings
  deriving DecidableEq, Repr

/-- A source of configuration outside the ledger. -/
structure Configuration where
  policy : Except Refusal ChargePolicy
  onIssuedSchedule : Bool

/-- The policy that a configured text names, up to blanks around it and ASCII case. -/
def ChargePolicy.ofText (text : String) : Except Refusal ChargePolicy :=
  match ofName? (fold text) with
  | some p => .ok p
  | none => .error (.invalidConfiguration ("unknown accrual policy '" ++ fold text ++ "'"))

namespace Settings

/-- Settings where nothing was chosen. -/
def standard : Settings := ⟨.dueDate, .accrualPeriodic, .halfEven, default, default⟩

instance : Inhabited Settings := ⟨standard⟩

/-- The standard settings with another charge policy. -/
def withPolicy (policy : ChargePolicy) : Settings := { standard with policy }

/-- Settings must allow an attempt, and delays must not exceed their cap from the start. -/
def validate (s : Settings) : Except Refusal Unit :=
  if s.retry.maxAttempts = 0 then
    .error (.invalidConfiguration "retry.maxAttempts must be at least 1")
  else if s.retry.maxDelayMs < s.retry.baseDelayMs then
    .error (.invalidConfiguration "retry.maxDelayMs must not be below retry.baseDelayMs")
  else .ok ()

/-- The settings of a run under a configuration, which decides the policy and the arrears mode. -/
def snapshot (source : Configuration) (base : Settings) : Except Refusal Settings := do
  let policy ← source.policy
  let s := { base with
    policy, arrears := { base.arrears with onIssuedSchedule := source.onIssuedSchedule } }
  s.validate
  return s

end Settings
end LoanLedger
