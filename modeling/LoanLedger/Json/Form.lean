import LoanLedger.Json.Reader

/-!
Values with a JSON form, and the reading of records. A record is written as an object; it is read
from an object, where the order of members is free and unknown ones are ignored, or from a list of
its fields in their order. The content of a tagged alternative that has named fields is read from an
object only.
-/

set_option autoImplicit false
set_option relaxedAutoImplicit false

namespace LoanLedger

universe u

/-- A type whose values are written as JSON and read back. -/
class JsonForm (α : Type u) where
  toJson : α → Json
  ofJson? : Json → Option α

export JsonForm (toJson ofJson?)

namespace JsonForm

variable {α : Type}

instance : JsonForm Bool where
  toJson := .bool
  ofJson?
    | .bool b => some b
    | _ => none

instance : JsonForm String where
  toJson := .str
  ofJson?
    | .str s => some s
    | _ => none

instance : JsonForm Int64 where
  toJson i := .int i.toInt
  ofJson?
    | .int n => if -0x8000000000000000 ≤ n ∧ n < 0x8000000000000000 then some (Int64.ofInt n) else none
    | _ => none

instance : JsonForm UInt32 where
  toJson i := .int i.toNat
  ofJson?
    | .int n => if 0 ≤ n ∧ n < 0x100000000 then some (UInt32.ofNat n.toNat) else none
    | _ => none

instance : JsonForm UInt64 where
  toJson i := .int i.toNat
  ofJson?
    | .int n => if 0 ≤ n ∧ n < 0x10000000000000000 then some (UInt64.ofNat n.toNat) else none
    | _ => none

/-- A missing value is written as `null`. -/
instance [JsonForm α] : JsonForm (Option α) where
  toJson
    | none => .null
    | some a => toJson a
  ofJson?
    | .null => some none
    | j => (ofJson? j).map some

/-- A list is written as an array; one bad item spoils it. -/
instance [JsonForm α] : JsonForm (List α) where
  toJson as := .arr (as.map toJson)
  ofJson?
    | .arr vs => vs.mapM ofJson?
    | _ => none

end JsonForm

namespace Json

/-- A tagged alternative: a bare name, or an object whose only member is the name with a content. -/
def variant? : Json → Option (String × Option Json)
  | .str s => some (s, none)
  | .obj [(s, v)] => some (s, some v)
  | _ => none

/-- The value named by an alternative without content. -/
def named? {α : Type} (ofName? : String → Option α) (j : Json) : Option α :=
  match variant? j with
  | some (s, none) => ofName? s
  | some (s, some .null) => ofName? s
  | _ => none

/-- The fields of a record: named ones, or the values that are left in field order. -/
inductive Fields
  | named (members : List (String × Json))
  | listed (values : List Json)

/-- A reader of one record, field after field. -/
abbrev FieldReader (α : Type) := StateT Fields Option α

namespace FieldReader

variable {α : Type}

/-- The next field: by name, or by position. -/
def next? (name : String) : FieldReader (Option Json) := fun fs =>
  match fs with
  | .named ms => some (ms.lookup name, fs)
  | .listed [] => some (none, fs)
  | .listed (v :: vs) => some (some v, .listed vs)

/-- A field that must be there. -/
def required [JsonForm α] (name : String) : FieldReader α := do
  match ← next? name with
  | some j => StateT.lift (ofJson? j)
  | none => failure

/-- A field that may be left out of an object. -/
def optional [JsonForm α] (name : String) : FieldReader (Option α) := fun fs =>
  match fs with
  | .named ms =>
    match ms.lookup name with
    | some j => (ofJson? j).map fun a => (a, fs)
    | none => some (none, fs)
  | .listed _ => required name fs

/-- A field with a value of its own when it is left out. -/
def orDefault [JsonForm α] (name : String) (a : α) : FieldReader α := do
  match ← next? name with
  | some j => StateT.lift (ofJson? j)
  | none => pure a

/-- Read a record from an object. -/
def readNamed? (reader : FieldReader α) : Json → Option α
  | .obj ms => (reader (.named ms)).map Prod.fst
  | _ => none

/-- Read a record from an object, or from a list, which must be used up. -/
def read? (reader : FieldReader α) : Json → Option α
  | .arr vs =>
    match reader (.listed vs) with
    | some (a, .listed []) => some a
    | _ => none
  | j => readNamed? reader j

end FieldReader
end Json
end LoanLedger
