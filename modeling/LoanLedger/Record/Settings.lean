import LoanLedger.Json.Shape
import LoanLedger.Money.Form
import LoanLedger.Settings

/-!
JSON forms of settings, and the reading of settings from text. What a text leaves out is standard; a
text that names a setting twice is refused, and what it holds besides settings is passed over.
-/

set_option autoImplicit false
set_option relaxedAutoImplicit false

namespace LoanLedger

open Json.FieldReader (orDefault)

instance : JsonForm RetryPolicy where
  toJson r := .obj [
    ("maxAttempts", toJson r.maxAttempts),
    ("baseDelayMs", toJson r.baseDelayMs),
    ("maxDelayMs", toJson r.maxDelayMs),
    ("jitterMs", toJson r.jitterMs)]
  ofJson? := Json.FieldReader.read? do
    return {
      maxAttempts := ← orDefault "maxAttempts" RetryPolicy.standard.maxAttempts
      baseDelayMs := ← orDefault "baseDelayMs" RetryPolicy.standard.baseDelayMs
      maxDelayMs := ← orDefault "maxDelayMs" RetryPolicy.standard.maxDelayMs
      jitterMs := ← orDefault "jitterMs" RetryPolicy.standard.jitterMs }

instance : JsonForm AgeingSettings where
  toJson a := .obj [
    ("onOriginalSchedule", toJson a.onIssuedSchedule),
    ("graceOnArrearsAgeing", toJson a.graceDays)]
  ofJson? := Json.FieldReader.read? do
    return {
      onIssuedSchedule := ← orDefault "onOriginalSchedule" false
      graceDays := ← orDefault "graceOnArrearsAgeing" 0 }

instance : JsonForm Settings where
  toJson s := .obj [
    ("policy", toJson s.policy),
    ("accountingMethod", toJson s.accountingMethod),
    ("rounding", toJson s.rounding),
    ("retry", toJson s.retry),
    ("arrears", toJson s.arrears)]
  ofJson? := Json.FieldReader.read? do
    return {
      policy := ← orDefault "policy" Settings.standard.policy
      accountingMethod := ← orDefault "accountingMethod" Settings.standard.accountingMethod
      rounding := ← orDefault "rounding" Settings.standard.rounding
      retry := ← orDefault "retry" Settings.standard.retry
      arrears := ← orDefault "arrears" Settings.standard.arrears }

namespace Settings

/-- The settings that a text may name. -/
def shape : Json.Shape := .record [
  ("policy", .alternative),
  ("accountingMethod", .alternative),
  ("rounding", .alternative),
  ("retry", .record [
    ("maxAttempts", .any), ("baseDelayMs", .any), ("maxDelayMs", .any), ("jitterMs", .any)]),
  ("arrears", .record [("onOriginalSchedule", .any), ("graceOnArrearsAgeing", .any)])]

/-- The valid settings that a text holds. -/
def ofText (text : String) : Except Refusal Settings := do
  let some j := shape.read? text | throw .unreadableSettings
  let some s := (ofJson? j : Option Settings) | throw .unreadableSettings
  s.validate
  return s

end Settings
end LoanLedger
