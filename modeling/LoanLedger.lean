import LoanLedger.Arrears.Update
import LoanLedger.Json.Document
import LoanLedger.Proofs.Accrual.PastRows
import LoanLedger.Proofs.Accrual.Recognition
import LoanLedger.Proofs.Advance
import LoanLedger.Proofs.Arrears.Excess
import LoanLedger.Proofs.Arrears.Repeated
import LoanLedger.Proofs.ArrearsHistory
import LoanLedger.Proofs.Atomicity
import LoanLedger.Proofs.Charge.Exhaustion
import LoanLedger.Proofs.Charge.ReliefBound
import LoanLedger.Proofs.Charge.Undoing
import LoanLedger.Proofs.Given.Retry
import LoanLedger.Proofs.Growth
import LoanLedger.Proofs.Idempotence
import LoanLedger.Proofs.Interest.Shortfall
import LoanLedger.Proofs.Interest.Start
import LoanLedger.Proofs.Interleaving.Stale
import LoanLedger.Proofs.Operations
import LoanLedger.Proofs.Record.ComesBack
import LoanLedger.Proofs.Retry
import LoanLedger.Proofs.RoundedShare
import LoanLedger.Proofs.Skip
import LoanLedger.Proofs.TillDate
import LoanLedger.Proofs.WorkingRange
import LoanLedger.Record.Accrual
import LoanLedger.Record.Arrears
import LoanLedger.Record.Settings
