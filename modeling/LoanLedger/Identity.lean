import LoanLedger.Json.Form

/-!
Identifiers. Loans, charges and schedule rows are numbered from outside; a transaction gets a
128-bit identifier here, written as 32 hexadecimal digits in five groups.
-/

set_option autoImplicit false
set_option relaxedAutoImplicit false

namespace LoanLedger

/-- The number of a loan. -/
abbrev LoanId := Int64

/-- The number of a charge on a loan. -/
abbrev ChargeId := Int64

/-- The number of the definition that a charge was made from. -/
abbrev ChargeKind := Int64

/-- The number of a row of a repayment schedule. -/
abbrev RowId := Int64

/-- The position of an installment in its schedule. -/
abbrev InstallmentNumber := UInt32

/-- Identifiers have 128 bits. -/
abbrev TransactionId.limit : Nat := 0x100000000000000000000000000000000

/-- The identifier of a ledger transaction. -/
structure TransactionId where
  number : Nat
  number_lt : number < TransactionId.limit
  deriving DecidableEq, Repr

namespace TransactionId

/-- The identifier with the given number; different numbers below `2 ^ 128` stay different. -/
def ofNat (n : Nat) : TransactionId := ⟨n % limit, Nat.mod_lt _ (by decide)⟩

instance : Inhabited TransactionId := ⟨ofNat 0⟩

/-- The number that hexadecimal digits stand for. -/
def ofHex? (ds : List Char) : Option Nat :=
  ds.foldlM (fun n c => (Json.hexDigit? c).map fun d => n * 16 + d) 0

/-- The characters of an identifier. -/
def chars (t : TransactionId) : List Char :=
  let ds := Nat.toDigits 16 t.number
  let ds := List.replicate (32 - ds.length) '0' ++ ds
  ds.take 8 ++ '-' :: (ds.drop 8).take 4 ++ '-' :: (ds.drop 12).take 4 ++
    '-' :: (ds.drop 16).take 4 ++ '-' :: ds.drop 20

instance : ToString TransactionId := ⟨fun t => String.ofList t.chars⟩

/-- Take the hyphens between the groups out of a text of 36 characters. -/
def ungroup? (cs : List Char) : Option (List Char) :=
  if cs.length = 36 ∧ [8, 13, 18, 23].all (fun i => cs[i]? == some '-') then
    some (cs.take 8 ++ (cs.drop 9).take 4 ++ (cs.drop 14).take 4 ++ (cs.drop 19).take 4 ++
      cs.drop 24)
  else none

/-- The identifier of 32 digits. -/
def ofDigits? (ds : List Char) : Option TransactionId :=
  if ds.length = 32 then (ofHex? ds).map ofNat else none

/-- The identifier that a text names: digits in groups, in braces or after `urn:uuid:` in any case,
or without groups. -/
def ofChars? (cs : List Char) : Option TransactionId :=
  if cs.length = 32 then ofDigits? cs
  else if cs.length = 38 ∧ cs.head? = some '\x7b' ∧ cs.getLast? = some '\x7d' then
    (ungroup? (cs.drop 1).dropLast).bind ofDigits?
  else if cs.length = 45 ∧ (cs.take 9).map Char.toLower = "urn:uuid:".toList then
    (ungroup? (cs.drop 9)).bind ofDigits?
  else (ungroup? cs).bind ofDigits?

instance : JsonForm TransactionId where
  toJson t := .str (toString t)
  ofJson?
    | .str s => ofChars? s.toList
    | _ => none

example : (ofChars? "6ba7b810-9dad-11d1-80b4-00c04fd430c8".toList).map chars =
    some "6ba7b810-9dad-11d1-80b4-00c04fd430c8".toList := by decide +kernel

end TransactionId
end LoanLedger
