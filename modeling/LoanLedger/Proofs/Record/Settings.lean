import LoanLedger.Proofs.Json.Shape
import LoanLedger.Proofs.Record.Form
import LoanLedger.Record.Settings

/-!
Settings come back from their JSON form. Their text is read as the settings where they are valid,
and refused for the same reason as the settings where they are not.
-/

set_option autoImplicit false
set_option relaxedAutoImplicit false

namespace LoanLedger

open Json.FieldReader (ofJson?_toJson_of_fields)

variable {n : Nat}

instance : RegularForm RetryPolicy (n + 1) := ⟨fun _ => .obj (by simp) (by simp)⟩

instance : HasAmounts RetryPolicy := ⟨fun _ => id, fun _ => rfl⟩

instance : AmountFree RetryPolicy := ⟨fun _ _ => rfl⟩

instance : FaithfulForm RetryPolicy where
  ofJson?_toJson _ := ofJson?_toJson_of_fields rfl rfl (by simp)

instance : RegularForm AgeingSettings (n + 1) := ⟨fun _ => .obj (by simp) (by simp)⟩

instance : HasAmounts AgeingSettings := ⟨fun _ => id, fun _ => rfl⟩

instance : AmountFree AgeingSettings := ⟨fun _ _ => rfl⟩

instance : FaithfulForm AgeingSettings where
  ofJson?_toJson _ := ofJson?_toJson_of_fields rfl rfl (by simp)

instance : RegularForm Settings (n + 2) := ⟨fun _ => .obj (by simp) (by simp)⟩

instance : HasAmounts Settings := ⟨fun _ => id, fun _ => rfl⟩

instance : AmountFree Settings := ⟨fun _ _ => rfl⟩

instance : FaithfulForm Settings where
  ofJson?_toJson _ := ofJson?_toJson_of_fields rfl rfl (by simp)

namespace Json.Shape

theorem readsBack_any_toJson {α : Type} [JsonForm α] [RegularForm α 0] (a : α) :
    ReadsBack .any (toJson a) :=
  readsBack_any (RegularForm.regular (n := 0) a)

end Json.Shape

namespace Settings

open Json.Shape (readsBack_any_toJson readsBack_name readsBack_record)

theorem readsBack_retry (r : RetryPolicy) :
    Json.Shape.ReadsBack (.record [("maxAttempts", .any), ("baseDelayMs", .any),
      ("maxDelayMs", .any), ("jitterMs", .any)]) (toJson r) :=
  readsBack_record (by simp) (by simp [readsBack_any_toJson])

theorem readsBack_arrears (a : AgeingSettings) :
    Json.Shape.ReadsBack (.record [("onOriginalSchedule", .any), ("graceOnArrearsAgeing", .any)])
      (toJson a) :=
  readsBack_record (by simp) (by simp [readsBack_any_toJson])

theorem readsBack_shape (s : Settings) : shape.ReadsBack (toJson s) := by
  have hpolicy : Json.Shape.alternative.ReadsBack (toJson s.policy) := readsBack_name _
  have hmethod : Json.Shape.alternative.ReadsBack (toJson s.accountingMethod) := readsBack_name _
  have hrounding : Json.Shape.alternative.ReadsBack (toJson s.rounding) := readsBack_name _
  exact readsBack_record (by simp)
    (by simp [hpolicy, hmethod, hrounding, readsBack_retry, readsBack_arrears])

/-- The text of settings is read as them where they are valid, and refused as they are otherwise. -/
theorem ofText_toString (s : Settings) :
    ofText (toString (toJson s)) = s.validate.map fun _ => s := by
  simp only [ofText, (readsBack_shape s).read?_toString, FaithfulForm.ofJson?_toJson,
    AmountFree.mapAmounts_eq]
  rfl

end Settings
end LoanLedger
