import LiterateSync.Wire.Json

namespace LiterateSync

/-- The known fields of a value that holds a structure. -/
structure Record where
  fields : List (String × Json)
  /-- Whether the fields were told apart by their places in an array. -/
  positional : Bool

namespace Json

/-- The fields with the given names. A structure is written as an object, where each name
    may stand at most once and other names do not count, or as an array of the values of
    its first fields in order. -/
def record? (names : List String) : Json → Option Record
  | .object fields =>
    let known := fields.filter fun f => names.contains f.1
    if (known.map (·.1)).Nodup then some ⟨known, false⟩ else none
  | .array items => if items.length ≤ names.length then some ⟨names.zip items, true⟩ else none
  | _ => none

/-- The fields of a structure that has to be written as an object. -/
def objectRecord? (names : List String) : Json → Option Record
  | .object fields => record? names (.object fields)
  | _ => none

/-- A string. -/
def string? : Json → Option String
  | .string s => some s
  | _ => none

/-- A truth value. -/
def bool? : Json → Option Bool
  | .bool b => some b
  | _ => none

/-- A number below a bound. -/
def natBelow? (bound : Nat) : Json → Option Nat
  | .nat n => if n < bound then some n else none
  | _ => none

/-- A number of 64 bits. -/
def nat64? : Json → Option Nat :=
  natBelow? (Nat.pow 2 64)

/-- A number of 32 bits. -/
def uint32? (v : Json) : Option UInt32 :=
  (natBelow? (Nat.pow 2 32) v).map UInt32.ofNat

/-- A string of one character. -/
def char? (v : Json) : Option Char := do
  let s ← v.string?
  match s.toList with
  | [c] => some c
  | _ => none

/-- An array whose items are all read by `read`. -/
def list? {α : Type} (read : Json → Option α) : Json → Option (List α)
  | .array items => items.mapM read
  | _ => none

/-- A value or nothing, for which `null` stands. -/
def orNull? {α : Type} (read : Json → Option α) : Json → Option (Option α)
  | .null => some none
  | v => (read v).map some

/-- One name out of several, written as a string, or as an object with that name for its
    only field and no value. Where data was `kept` until its type was known, an empty object
    is no value too. -/
def tag? (kept : Bool) : Json → Option String
  | .string s => some s
  | .object [(s, .null)] => some s
  | .object [(s, .object [])] => if kept then some s else none
  | _ => none

/-- What is written for a value that may be missing. -/
def ofOption {α : Type} (write : α → Json) : Option α → Json
  | none => .null
  | some a => write a

/-- An array of written values. -/
def ofList {α : Type} (write : α → Json) (items : List α) : Json :=
  .array (items.map write)

end Json

namespace Record

/-- The value of a field, if it is there. -/
def get? (r : Record) (name : String) : Option Json :=
  (r.fields.find? (·.1 = name)).map (·.2)

/-- A field that has to be there. -/
def required {α : Type} (r : Record) (name : String) (read : Json → Option α) : Option α :=
  (r.get? name).bind read

/-- A field that may be `null`, and missing where fields have names. -/
def optional {α : Type} (r : Record) (name : String) (read : Json → Option α) :
    Option (Option α) :=
  match r.get? name with
  | none => if r.positional then none else some none
  | some v => v.orNull? read

/-- A field that may be missing, and then has a given value. -/
def orDefault {α : Type} (r : Record) (name : String) (read : Json → Option α) (default : α) :
    Option α :=
  match r.get? name with
  | none => some default
  | some v => read v

end Record

end LiterateSync
