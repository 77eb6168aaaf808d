import LoanLedger.Json.Reader

/-!
Reading a text against a shape. A record is read from an object or from a list of its fields. The
members that the shape does not name are passed over, so that nothing but their grammar counts;
those that it names may stand only once. The object of an alternative has one member, which may
stand only once too.
-/

set_option autoImplicit false
set_option relaxedAutoImplicit false

namespace LoanLedger.Json

/-- What a text is expected to hold: any value, an alternative (a bare name, or an object whose only
member is the name), or a record with fields of given shapes. -/
inductive Shape
  | any
  | alternative
  | record (fields : List (String × Shape))
  deriving Repr, Inhabited

namespace Shape

/-- The only member of an object, behind its opening brace. -/
def only? (n : Nat) (cs : List Char) : Option (Json × List Char) :=
  match skipBlanks cs with
  | '"' :: r =>
    match textBody? none n r with
    | none => none
    | some (k, r) =>
      match skipBlanks r with
      | ':' :: r =>
        match Json.value? none n r with
        | none => none
        | some (v, r) =>
          match skipBlanks r with
          | '\x7d' :: r => some (.obj [(String.ofList k, v)], r)
          | _ => none
      | _ => none
  | _ => none

mutual

/-- A value of a shape at the front of a text, and the rest. -/
def value? : Nat → Shape → List Char → Option (Json × List Char)
  | 0, _, _ => none
  | n + 1, .any, cs => Json.value? none n cs
  | n + 1, .alternative, cs =>
    match skipBlanks cs with
    | '\x7b' :: r => only? n r
    | r => Json.value? none n r
  | n + 1, .record fields, cs =>
    match skipBlanks cs with
    | '[' :: r =>
      match skipBlanks r with
      | ']' :: r => some (.arr [], r)
      | r => (items? n (fields.map Prod.snd) r).map fun (vs, r) => (.arr vs, r)
    | '\x7b' :: r =>
      match skipBlanks r with
      | '\x7d' :: r => some (.obj [], r)
      | r => (members? n fields [] r).map fun (ms, r) => (.obj ms, r)
    | _ => none

/-- Items up to the closing bracket, one for each field and no more. -/
def items? : Nat → List Shape → List Char → Option (List Json × List Char)
  | 0, _, _ => none
  | _ + 1, [], _ => none
  | n + 1, shape :: shapes, cs =>
    match value? n shape cs with
    | none => none
    | some (v, r) =>
      match skipBlanks r with
      | ',' :: r => (items? n shapes r).map fun (vs, r) => (v :: vs, r)
      | ']' :: r => some ([v], r)
      | _ => none

/-- The fields among the members up to the closing brace. `seen` holds the names of those that have
been read. -/
def members? : Nat → List (String × Shape) → (seen : List String) → List Char →
    Option (List (String × Json) × List Char)
  | 0, _, _, _ => none
  | n + 1, fields, seen, cs =>
    match skipBlanks cs with
    | '"' :: r =>
      match textBody? none n r with
      | none => none
      | some (k, r) =>
        match skipBlanks r with
        | ':' :: r =>
          match member? n (fields.lookup (String.ofList k)) (seen.contains (String.ofList k)) r with
          | none => none
          | some (v, r) =>
            let found := (v.map fun v => (String.ofList k, v)).toList
            match skipBlanks r with
            | ',' :: r =>
              (members? n fields (found.map Prod.fst ++ seen) r).map fun (ms, r) => (found ++ ms, r)
            | '\x7d' :: r => some (found, r)
            | _ => none
        | _ => none
    | _ => none

/-- The value of a member: that of a field which has not been read yet, or none of another. -/
def member? : Nat → Option Shape → (seen : Bool) → List Char → Option (Option Json × List Char)
  | 0, _, _, _ => none
  | n + 1, none, _, cs => (skip? n cs).map fun r => (none, r)
  | _ + 1, some _, true, _ => none
  | n + 1, some shape, false, cs => (value? n shape cs).map fun (v, r) => (some v, r)

end

/-- The value that a text holds, with the fields of the shape and no other members. A level of
nesting costs up to three steps. -/
def read? (shape : Shape) (s : String) : Option Json :=
  complete? (value? (2 * bound s.toList) shape s.toList)

end Shape
end LoanLedger.Json
