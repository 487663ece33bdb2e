namespace LiterateSync

/-- A value of the data format in which documents and messages are written. -/
inductive Json where
  | null
  | bool (value : Bool)
  /-- A number written with digits only. -/
  | nat (value : Nat)
  /-- A number written with a sign, a fraction or an exponent. No data is read from
      one, so its spelling is all that is kept. -/
  | decimal (spelling : String)
  | string (value : String)
  | array (items : List Json)
  /-- Names with values, in the order in which they are written. -/
  | object (fields : List (String × Json))
  /-- A value that can be skipped but not read: a string or a name in which half of
      a surrogate pair stands alone, or a number beyond the range of doubles. -/
  | unreadable
  deriving Repr

namespace Json

/-- The digit that stands for a number below sixteen. -/
def hexDigit (n : Nat) : Char :=
  Nat.digitChar n

/-- A character as it is written within a string. -/
def escape (c : Char) : List Char :=
  match c with
  | '"' => ['\\', '"']
  | '\\' => ['\\', '\\']
  | '\n' => ['\\', 'n']
  | '\r' => ['\\', 'r']
  | '\t' => ['\\', 't']
  | '\x08' => ['\\', 'b']
  | '\x0c' => ['\\', 'f']
  | _ =>
    if c.toNat < 0x20 then
      ['\\', 'u', '0', '0', hexDigit (c.toNat / 16), hexDigit (c.toNat % 16)]
    else [c]

/-- A string as it is written, between quotes. -/
def quote (s : String) : List Char :=
  '"' :: s.toList.flatMap escape ++ ['"']

mutual

/-- A value as it is written on one line. -/
def chars : Json → List Char
  | .null => "null".toList
  | .bool true => "true".toList
  | .bool false => "false".toList
  | .nat n => (toString n).toList
  | .decimal spelling => spelling.toList
  | .string s => quote s
  | .array items => '[' :: itemChars items ++ [']']
  | .object fields => '{' :: fieldChars fields ++ ['}']
  | .unreadable => "null".toList

/-- The items of an array, with commas between them. -/
def itemChars : List Json → List Char
  | [] => []
  | [v] => v.chars
  | v :: vs => v.chars ++ ',' :: itemChars vs

/-- The fields of an object, with commas between them. -/
def fieldChars : List (String × Json) → List Char
  | [] => []
  | [(k, v)] => quote k ++ ':' :: v.chars
  | (k, v) :: fs => quote k ++ ':' :: v.chars ++ ',' :: fieldChars fs

end

/-- A value as a text on one line. -/
def render (v : Json) : String :=
  String.ofList v.chars

/-- A line break and the spaces at the start of a line at a given depth. -/
def newline (depth : Nat) : List Char :=
  '\n' :: List.replicate (2 * depth) ' '

mutual

/-- A value as it is written over several lines, two spaces deeper at each level.
    An array or an object without members stays on its line. -/
def prettyChars (depth : Nat) : Json → List Char
  | .array (v :: vs) =>
    '[' :: newline (depth + 1) ++ prettyItems (depth + 1) (v :: vs) ++ newline depth ++ [']']
  | .object (f :: fs) =>
    '{' :: newline (depth + 1) ++ prettyFields (depth + 1) (f :: fs) ++ newline depth ++ ['}']
  | v => v.chars

/-- The items of an array, each on a line of its own. -/
def prettyItems (depth : Nat) : List Json → List Char
  | [] => []
  | [v] => v.prettyChars depth
  | v :: vs => v.prettyChars depth ++ ',' :: newline depth ++ prettyItems depth vs

/-- The fields of an object, each on a line of its own. -/
def prettyFields (depth : Nat) : List (String × Json) → List Char
  | [] => []
  | [(k, v)] => quote k ++ ':' :: ' ' :: v.prettyChars depth
  | (k, v) :: fs =>
    quote k ++ ':' :: ' ' :: v.prettyChars depth ++ ',' :: newline depth ++ prettyFields depth fs

end

/-- A value as a text over several lines. -/
def renderPretty (v : Json) : String :=
  String.ofList (v.prettyChars 0)

mutual

/-- Whether a value can be kept as it is before its type is known: all of it is
    readable, and it is at most `room` levels deep. -/
def isPlain (room : Nat) : Json → Bool
  | .unreadable => false
  | .array items => room ≠ 0 && allPlain (room - 1) items
  | .object fields => room ≠ 0 && allFieldsPlain (room - 1) fields
  | _ => true

/-- Whether all items can be kept. -/
def allPlain (room : Nat) : List Json → Bool
  | [] => true
  | v :: vs => v.isPlain room && allPlain room vs

/-- Whether the values of all fields can be kept. -/
def allFieldsPlain (room : Nat) : List (String × Json) → Bool
  | [] => true
  | (_, v) :: fs => v.isPlain room && allFieldsPlain room fs

end

end Json

end LiterateSync
