import LoanLedger.Money.Form
import LoanLedger.Proofs.Calendar
import LoanLedger.Proofs.Identity
import LoanLedger.Proofs.Json.Document
import LoanLedger.Proofs.Money.Text
import LoanLedger.Terms

/-!
Values come back from their JSON form. What comes back is the value itself, except that an amount of
zero has no sign. A form is shown to be faithful once for each type: here for the values that
records are made of, with lemmas that read a record field by field.
-/

set_option autoImplicit false
set_option relaxedAutoImplicit false

namespace LoanLedger

/-- Types whose values may hold amounts. -/
class HasAmounts (α : Type) where
  /-- Change the amounts of a value, and nothing else. -/
  mapAmounts : (Money → Money) → α → α
  mapAmounts_id (a : α) : mapAmounts id a = a

export HasAmounts (mapAmounts)

/-- Types whose values hold no amounts. -/
class AmountFree (α : Type) [HasAmounts α] : Prop where
  mapAmounts_eq (f : Money → Money) (a : α) : mapAmounts f a = a

attribute [simp] HasAmounts.mapAmounts_id AmountFree.mapAmounts_eq

section Containers

variable {α : Type} [HasAmounts α]

instance : HasAmounts (Option α) where
  mapAmounts f := Option.map (mapAmounts f)
  mapAmounts_id
    | none => rfl
    | some a => congrArg some (HasAmounts.mapAmounts_id a)

instance [AmountFree α] : AmountFree (Option α) where
  mapAmounts_eq f
    | none => rfl
    | some a => congrArg some (AmountFree.mapAmounts_eq f a)

instance : HasAmounts (List α) where
  mapAmounts f := List.map (mapAmounts f)
  mapAmounts_id := List.map_id'' HasAmounts.mapAmounts_id

end Containers

/-- A JSON form that keeps values, the signs of amounts of zero aside. -/
class FaithfulForm (α : Type) [JsonForm α] [HasAmounts α] : Prop where
  ofJson?_toJson (a : α) : ofJson? (toJson a) = some (mapAmounts Money.unsignedZero a)

attribute [simp] FaithfulForm.ofJson?_toJson

/-- A JSON form that a text keeps, and that nests at most `n` levels. -/
class RegularForm (α : Type) [JsonForm α] (n : Nat) : Prop where
  regular (a : α) : (toJson a).Regular n

attribute [simp] RegularForm.regular

/-- A JSON form without `null`. -/
class NeverNull (α : Type) [JsonForm α] : Prop where
  toJson_ne_null (a : α) : toJson a ≠ .null

/-- The value that a document holds. -/
def decode? (α : Type) [JsonForm α] (text : String) : Option α := (Json.read? text).bind ofJson?

theorem decode?_toString {α : Type} [JsonForm α] [HasAmounts α] [RegularForm α 127] [FaithfulForm α]
    (a : α) : decode? α (toString (toJson a)) = some (mapAmounts Money.unsignedZero a) := by
  rw [decode?, (RegularForm.regular (n := 127) a).read?_toString, Option.bind_some,
    FaithfulForm.ofJson?_toJson]

section Leaves

variable {n : Nat}

instance : RegularForm Bool n := ⟨.bool⟩

instance : HasAmounts Bool := ⟨fun _ => id, fun _ => rfl⟩

instance : AmountFree Bool := ⟨fun _ _ => rfl⟩

instance : FaithfulForm Bool := ⟨fun _ => rfl⟩

instance : RegularForm String n := ⟨.str⟩

instance : HasAmounts String := ⟨fun _ => id, fun _ => rfl⟩

instance : AmountFree String := ⟨fun _ _ => rfl⟩

instance : FaithfulForm String := ⟨fun _ => rfl⟩

instance : RegularForm Int64 n where
  regular i := .int (by
    have hle := i.le_toInt
    have hlt := i.toInt_lt
    show i.toInt.natAbs < 2 ^ 64
    omega)

instance : HasAmounts Int64 := ⟨fun _ => id, fun _ => rfl⟩

instance : AmountFree Int64 := ⟨fun _ _ => rfl⟩

instance : FaithfulForm Int64 where
  ofJson?_toJson i := by
    have hle := i.le_toInt
    have hlt := i.toInt_lt
    simp only [toJson, ofJson?]
    rw [if_pos (by omega), Int64.ofInt_toInt]
    rfl

instance : RegularForm UInt32 n where
  regular i := .int (by
    have hlt := i.toNat_lt
    show (i.toNat : Int).natAbs < 2 ^ 64
    omega)

instance : NeverNull UInt32 := ⟨fun _ => Json.noConfusion⟩

instance : HasAmounts UInt32 := ⟨fun _ => id, fun _ => rfl⟩

instance : AmountFree UInt32 := ⟨fun _ _ => rfl⟩

instance : FaithfulForm UInt32 where
  ofJson?_toJson i := by
    have hlt := i.toNat_lt
    simp only [toJson, ofJson?]
    rw [if_pos (by omega), Int.toNat_natCast, UInt32.ofNat_toNat]
    rfl

instance : RegularForm UInt64 n where
  regular i := .int (by
    have hlt := i.toNat_lt
    show (i.toNat : Int).natAbs < 2 ^ 64
    omega)

instance : HasAmounts UInt64 := ⟨fun _ => id, fun _ => rfl⟩

instance : AmountFree UInt64 := ⟨fun _ _ => rfl⟩

instance : FaithfulForm UInt64 where
  ofJson?_toJson i := by
    have hlt := i.toNat_lt
    simp only [toJson, ofJson?]
    rw [if_pos (by omega), Int.toNat_natCast, UInt64.ofNat_toNat]
    rfl

instance : RegularForm Money n := ⟨fun _ => .str _⟩

instance : NeverNull Money := ⟨fun _ => Json.noConfusion⟩

instance : HasAmounts Money := ⟨id, fun _ => rfl⟩

instance : FaithfulForm Money where
  ofJson?_toJson a := by
    simp only [toJson, ofJson?, Money.read_toString]
    rfl

instance : RegularForm Date n := ⟨fun _ => .str _⟩

instance : NeverNull Date := ⟨fun _ => Json.noConfusion⟩

instance : HasAmounts Date := ⟨fun _ => id, fun _ => rfl⟩

instance : AmountFree Date := ⟨fun _ _ => rfl⟩

instance : FaithfulForm Date := ⟨Date.ofText?_toString⟩

instance : RegularForm TransactionId n := ⟨fun _ => .str _⟩

instance : HasAmounts TransactionId := ⟨fun _ => id, fun _ => rfl⟩

instance : AmountFree TransactionId := ⟨fun _ _ => rfl⟩

instance : FaithfulForm TransactionId where
  ofJson?_toJson t := by simp [toJson, ofJson?, toString]

end Leaves

section Compounds

variable {α : Type} [JsonForm α] {n : Nat}

instance [RegularForm α n] : RegularForm (Option α) n where
  regular
    | none => .null
    | some a => RegularForm.regular a

theorem ofJson?_of_ne_null {j : Json} (h : j ≠ .null) :
    (ofJson? j : Option (Option α)) = (ofJson? j : Option α).map some := by
  cases j <;> simp_all [ofJson?]

/-- A missing value stays missing. -/
instance [NeverNull α] [HasAmounts α] [FaithfulForm α] : FaithfulForm (Option α) where
  ofJson?_toJson
    | none => rfl
    | some a => by
      rw [show toJson (some a) = toJson a from rfl, ofJson?_of_ne_null (NeverNull.toJson_ne_null a),
        FaithfulForm.ofJson?_toJson]
      rfl

instance [RegularForm α n] : RegularForm (List α) (n + 1) where
  regular as := .arr fun v hv => by
    obtain ⟨a, -, rfl⟩ := List.mem_map.1 hv
    exact RegularForm.regular a

instance [HasAmounts α] [FaithfulForm α] : FaithfulForm (List α) where
  ofJson?_toJson as := by
    simp only [toJson, ofJson?]
    induction as with
    | nil => rfl
    | cons a as ih =>
      rw [List.map_cons, List.mapM_cons, FaithfulForm.ofJson?_toJson, ih]
      rfl

end Compounds

namespace Json.FieldReader

section Fields

variable {α β γ : Type} [JsonForm α]

/-- Go on with the value that a member of an object holds. -/
def withMember (member : Option Json) (k : α → Option γ) : Option γ := (member.bind ofJson?).bind k

/-- Go on with the value that a member of an object holds, or with another one if there is none. -/
def withMemberOr (member : Option Json) (d : α) (k : α → Option γ) : Option γ :=
  (member.elim (some d) ofJson?).bind k

@[simp] theorem withMember_toJson [HasAmounts α] [FaithfulForm α] (a : α) (k : α → Option γ) :
    withMember (some (toJson a)) k = k (mapAmounts Money.unsignedZero a) := by
  simp [withMember]

@[simp] theorem withMemberOr_toJson [HasAmounts α] [FaithfulForm α] (a d : α) (k : α → Option γ) :
    withMemberOr (some (toJson a)) d k = k (mapAmounts Money.unsignedZero a) := by
  simp [withMemberOr]

@[simp] theorem withMemberOr_none (d : α) (k : α → Option γ) : withMemberOr none d k = k d := by
  simp [withMemberOr]

@[simp] theorem lookup_cons_eq (name k : String) (v : γ) (ms : List (String × γ)) :
    ((k, v) :: ms).lookup name = if name = k then some v else ms.lookup name := by
  by_cases h : name = k
  · rw [if_pos h, h, List.lookup_cons_self]
  · rw [if_neg h, List.lookup_cons, show (name == k) = false by simpa using h]

variable (name : String) (ms : List (String × Json))

@[simp] theorem required_bind (k : α → FieldReader β) :
    (required name >>= k) (.named ms) = withMember (ms.lookup name) fun a => k a (.named ms) := by
  simp only [required, next?, withMember, bind, StateT.bind, Option.bind_some]
  cases ms.lookup name with
  | none => rfl
  | some j => cases h : (ofJson? j : Option α) <;> simp [StateT.lift, h, bind]

@[simp] theorem orDefault_bind (d : α) (k : α → FieldReader β) :
    (orDefault name d >>= k) (.named ms) =
      withMemberOr (ms.lookup name) d fun a => k a (.named ms) := by
  simp only [orDefault, next?, withMemberOr, bind, StateT.bind, Option.bind_some]
  cases ms.lookup name with
  | none => rfl
  | some j => cases h : (ofJson? j : Option α) <;> simp [StateT.lift, h, bind]

@[simp] theorem optional_bind (k : Option α → FieldReader β) :
    (Json.FieldReader.optional name >>= k) (.named ms) =
      withMemberOr (ms.lookup name) none fun a => k a (.named ms) := by
  simp only [Json.FieldReader.optional, withMemberOr, bind, StateT.bind]
  cases ms.lookup name with
  | none => rfl
  | some j => cases h : (ofJson? j : Option (Option α)) <;> simp [h]

end Fields

section Map

variable {α β : Type} [JsonForm α] (name : String) (ms : List (String × Json)) (f : α → β)

@[simp] theorem map_required :
    (f <$> required name : FieldReader β) (.named ms) =
      withMember (ms.lookup name) fun a => some (f a, .named ms) := by
  rw [← bind_pure_comp, required_bind]
  rfl

@[simp] theorem map_orDefault (d : α) :
    (f <$> orDefault name d : FieldReader β) (.named ms) =
      withMemberOr (ms.lookup name) d fun a => some (f a, .named ms) := by
  rw [← bind_pure_comp, orDefault_bind]
  rfl

@[simp] theorem map_optional (g : Option α → β) :
    (g <$> Json.FieldReader.optional name : FieldReader β) (.named ms) =
      withMemberOr (ms.lookup name) none fun a => some (g a, .named ms) := by
  rw [← bind_pure_comp, optional_bind]
  rfl

end Map

@[simp] theorem pure_named {α : Type} (a : α) (fs : Fields) :
    (pure a : FieldReader α) fs = some (a, fs) := rfl

section Records

variable {α : Type} {reader : FieldReader α} {b : α} {ms : List (String × Json)}

theorem readNamed?_of_fields (hfields : reader (.named ms) = some (b, .named ms)) :
    readNamed? reader (.obj ms) = some b := by
  rw [readNamed?, hfields]
  rfl

/-- A record comes back when the members of its object give back its fields. -/
theorem ofJson?_toJson_of_fields [JsonForm α] {a : α}
    (hread : (ofJson? : Json → Option α) = read? reader) (hwrite : toJson a = .obj ms)
    (hfields : reader (.named ms) = some (b, .named ms)) : ofJson? (toJson a) = some b := by
  rw [hread, hwrite]
  exact readNamed?_of_fields hfields

end Records

end Json.FieldReader

section Terms

open Json.FieldReader

variable {n : Nat}

instance : RegularForm Currency (n + 1) := ⟨fun _ => .obj (by simp) (by simp)⟩

instance : HasAmounts Currency := ⟨fun _ => id, fun _ => rfl⟩

instance : AmountFree Currency := ⟨fun _ _ => rfl⟩

instance : FaithfulForm Currency where
  ofJson?_toJson c := ofJson?_toJson_of_fields rfl rfl (by simp)

instance : RegularForm ChargePolicy n := ⟨fun _ => .str _⟩

instance : HasAmounts ChargePolicy := ⟨fun _ => id, fun _ => rfl⟩

instance : AmountFree ChargePolicy := ⟨fun _ _ => rfl⟩

instance : FaithfulForm ChargePolicy := ⟨ChargePolicy.ofName?_name⟩

instance : RegularForm AccountingMethod n := ⟨fun _ => .str _⟩

instance : HasAmounts AccountingMethod := ⟨fun _ => id, fun _ => rfl⟩

instance : AmountFree AccountingMethod := ⟨fun _ _ => rfl⟩

instance : FaithfulForm AccountingMethod := ⟨AccountingMethod.ofName?_name⟩

instance : RegularForm RoundingMode n := ⟨fun _ => .str _⟩

instance : HasAmounts RoundingMode := ⟨fun _ => id, fun _ => rfl⟩

instance : AmountFree RoundingMode := ⟨fun _ _ => rfl⟩

instance : FaithfulForm RoundingMode := ⟨RoundingMode.ofName?_name⟩

instance : RegularForm LoanStatus n := ⟨fun _ => .str _⟩

instance : HasAmounts LoanStatus := ⟨fun _ => id, fun _ => rfl⟩

instance : AmountFree LoanStatus := ⟨fun _ _ => rfl⟩

instance : FaithfulForm LoanStatus := ⟨LoanStatus.ofName?_name⟩

instance : RegularForm RunMode (n + 1) where
  regular
    | .asOfToday => .str _
    | .tillDate d => .obj (by simp) (by simp)

instance : HasAmounts RunMode := ⟨fun _ => id, fun _ => rfl⟩

instance : FaithfulForm RunMode where
  ofJson?_toJson
    | .asOfToday => rfl
    | .tillDate d => congrArg (Option.map RunMode.tillDate) (FaithfulForm.ofJson?_toJson d)

end Terms

end LoanLedger
