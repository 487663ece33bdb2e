import LiterateSync.Wire.Json
import LiterateSync.Wire.Magnitude

namespace LiterateSync.Json

/-- A character of a string, or half of a surrogate pair. -/
inductive StringUnit where
  | char (c : Char)
  | surrogate (code : Nat)

/-- The text without white space at its start. -/
def skipSpace (s : List Char) : List Char :=
  s.dropWhile fun c => c = ' ' || c = '\n' || c = '\t' || c = '\r'

/-- The number that a hexadecimal digit stands for. -/
def hexValue? (c : Char) : Option Nat :=
  if c.isDigit then some (c.toNat - '0'.toNat)
  else if 'a' ≤ c && c ≤ 'f' then some (c.toNat - 'a'.toNat + 10)
  else if 'A' ≤ c && c ≤ 'F' then some (c.toNat - 'A'.toNat + 10)
  else none

/-- The unit with a given UTF-16 code. -/
def unitOfCode (code : Nat) : StringUnit :=
  if 0xD800 ≤ code && code ≤ 0xDFFF then .surrogate code else .char (Char.ofNat code)

/-- The unit that four hexadecimal digits name. -/
def unicodeUnit? (a b c d : Char) : Option StringUnit := do
  let a ← hexValue? a
  let b ← hexValue? b
  let c ← hexValue? c
  let d ← hexValue? d
  some (unitOfCode (((a * 16 + b) * 16 + c) * 16 + d))

/-- The character that a backslash and a letter stand for. -/
def simpleEscape? (c : Char) : Option Char :=
  match c with
  | '"' => some '"'
  | '\\' => some '\\'
  | '/' => some '/'
  | 'b' => some '\x08'
  | 'f' => some '\x0c'
  | 'n' => some '\n'
  | 'r' => some '\r'
  | 't' => some '\t'
  | _ => none

/-- The units of a string up to its closing quote, with the text after the quote.
    Control characters have to be escaped. -/
def stringUnits? : List Char → Option (List StringUnit × List Char)
  | [] => none
  | '"' :: s => some ([], s)
  | '\\' :: 'u' :: a :: b :: c :: d :: s => do
    let unit ← unicodeUnit? a b c d
    let (units, r) ← stringUnits? s
    some (unit :: units, r)
  | '\\' :: e :: s => do
    let c ← simpleEscape? e
    let (units, r) ← stringUnits? s
    some (.char c :: units, r)
  | c :: s =>
    if c.toNat < 0x20 then none
    else (stringUnits? s).map fun (units, r) => (.char c :: units, r)

/-- The characters that units make up, if every surrogate is one of a pair. -/
def joinUnits? : List StringUnit → Option (List Char)
  | [] => some []
  | .char c :: units => (joinUnits? units).map (c :: ·)
  | .surrogate high :: .surrogate low :: units =>
    if high < 0xDC00 && 0xDC00 ≤ low then
      (joinUnits? units).map (Char.ofNat (0x10000 + (high - 0xD800) * 0x400 + (low - 0xDC00)) :: ·)
    else none
  | .surrogate _ :: _ => none

/-- The digits at the start of a text, at least one, with the text after them. -/
def digits? (s : List Char) : Option (List Char × List Char) :=
  match s.takeWhile Char.isDigit with
  | [] => none
  | digits => some (digits, s.dropWhile Char.isDigit)

/-- The fraction of a number with its point, and the text after it. There may be none. -/
def fraction? : List Char → Option (List Char × List Char)
  | '.' :: s => digits? s
  | s => some ([], s)

/-- The sign and the digits of an exponent, and the text after them. -/
def signedDigits? : List Char → Option (Int × List Char)
  | '-' :: s => (digits? s).map fun (ds, r) => (-(Text.decimal ds : Int), r)
  | '+' :: s => (digits? s).map fun (ds, r) => ((Text.decimal ds : Int), r)
  | s => (digits? s).map fun (ds, r) => ((Text.decimal ds : Int), r)

/-- The exponent of a number, if it has one, and the text after it. -/
def exponent? (s : List Char) : Option (Option Int × List Char) :=
  match s with
  | c :: r =>
    if c = 'e' || c = 'E' then (signedDigits? r).map fun (e, r) => (some e, r)
    else some (none, s)
  | [] => some (none, [])

/-- A number, with the text after it. It does not start with a zero that another digit
    follows. -/
def number? (s : List Char) : Option (Json × List Char) := do
  let negative := s.head? = some '-'
  let (whole, r) ← digits? (if negative then s.drop 1 else s)
  if whole.head? = some '0' && 1 < whole.length then none
  let (fraction, r) ← fraction? r
  let (exponent, r) ← exponent? r
  if !(Magnitude.ofDigits whole fraction (exponent.getD 0)).isFinite then some (.unreadable, r)
  else if !negative && fraction.isEmpty && exponent.isNone then some (.nat (Text.decimal whole), r)
  else some (.decimal (String.ofList (s.take (s.length - r.length))), r)

/-- A string behind its opening quote as a name, with the text after it. A name that
    cannot be read is none. -/
def name? (s : List Char) : Option (Option String × List Char) :=
  (stringUnits? s).map fun (units, r) => ((joinUnits? units).map String.ofList, r)

/-- The object with the given fields, which cannot be read if one of its names cannot. -/
def ofFields (fields : List (Option String × Json)) : Json :=
  if fields.all (·.1.isSome) then
    .object (fields.filterMap fun (k, v) => k.map (·, v))
  else .unreadable

mutual

/-- The value at the start of a text, with the text after it. The number bounds the
    calls that may follow one another. -/
def value? : Nat → List Char → Option (Json × List Char)
  | 0, _ => none
  | n + 1, s =>
    match skipSpace s with
    | 'n' :: 'u' :: 'l' :: 'l' :: r => some (.null, r)
    | 't' :: 'r' :: 'u' :: 'e' :: r => some (.bool true, r)
    | 'f' :: 'a' :: 'l' :: 's' :: 'e' :: r => some (.bool false, r)
    | '"' :: r => (name? r).map fun (s, r) => (s.elim .unreadable .string, r)
    | '[' :: r =>
      match skipSpace r with
      | ']' :: r => some (.array [], r)
      | r => (items? n r).map fun (items, r) => (.array items, r)
    | '{' :: r =>
      match skipSpace r with
      | '}' :: r => some (.object [], r)
      | r => (fields? n r).map fun (fields, r) => (ofFields fields, r)
    | r => number? r

/-- The items of an array, at least one, up to its closing bracket. -/
def items? : Nat → List Char → Option (List Json × List Char)
  | 0, _ => none
  | n + 1, s => do
    let (v, r) ← value? n s
    match skipSpace r with
    | ',' :: r => (items? n r).map fun (vs, r) => (v :: vs, r)
    | ']' :: r => some ([v], r)
    | _ => none

/-- The fields of an object, at least one, up to its closing brace. -/
def fields? : Nat → List Char → Option (List (Option String × Json) × List Char)
  | 0, _ => none
  | n + 1, s =>
    match skipSpace s with
    | '"' :: r => do
      let (k, r) ← name? r
      match skipSpace r with
      | ':' :: r =>
        let (v, r) ← value? n r
        match skipSpace r with
        | ',' :: r => (fields? n r).map fun (fs, r) => ((k, v) :: fs, r)
        | '}' :: r => some ([(k, v)], r)
        | _ => none
      | _ => none
    | _ => none

end

/-- The value that a text spells, if it spells one. Only white space may follow the value. -/
def parse? (text : String) : Option Json :=
  match value? (2 * text.length + 2) text.toList with
  | some (v, r) => if (skipSpace r).isEmpty then some v else none
  | none => none

end LiterateSync.Json
