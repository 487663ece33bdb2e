import LiterateSync.Text.Pattern.Basic

namespace LiterateSync.Text

/-- A sequence of bytes, each within a range. -/
abbrev ByteRow := List (Nat × Nat)

namespace ByteRow

/-- The rows of bytes in which the numbers from `low` to `high` are written with one leading
    digit, to which `lead` is added, and a number of digits to the base 64 after it. Each row
    stands for numbers that differ in a digit only where all digits after it are free. -/
def digits (lead : Nat) : Nat → Nat → Nat → List ByteRow
  | 0, low, high => [[(lead + low, lead + high)]]
  | n + 1, low, high =>
    let unit := Nat.pow 64 (n + 1)
    let below := fun digit low high =>
      (digits 0x80 n low high).map ((lead + digit, lead + digit) :: ·)
    if low / unit = high / unit then below (low / unit) (low % unit) (high % unit)
    else
      let head := if low % unit = 0 then [] else below (low / unit) (low % unit) (unit - 1)
      let tail := if high % unit = unit - 1 then [] else below (high / unit) 0 (high % unit)
      let first := (low + unit - 1) / unit
      let stop := (high + 1) / unit
      let middle := if first < stop then
          [(lead + first, lead + stop - 1) :: List.replicate (n + 1) (0x80, 0xBF)]
        else []
      head ++ middle ++ tail

/-- The rows of bytes that spell the code points of a range in UTF-8. -/
def spell (low high : Nat) : List ByteRow :=
  [(0, 0x7F, 0, 0), (0x80, 0x7FF, 0xC0, 1), (0x800, 0xD7FF, 0xE0, 2), (0xE000, 0xFFFF, 0xE0, 2),
    (0x10000, 0x10FFFF, 0xF0, 3)].flatMap fun (first, last, lead, n) =>
    if max low first ≤ min high last then digits lead n (max low first) (min high last) else []

/-- The ranges with which rows begin. -/
def heads (rows : List ByteRow) : List (Nat × Nat) :=
  (rows.filterMap List.head?).eraseDups

/-- What is left of rows behind each of their beginnings, up to `n` bytes. -/
def rests : Nat → List ByteRow → List (List ByteRow)
  | 0, _ => []
  | n + 1, rows =>
    rows :: (heads rows).flatMap fun head =>
      rests n (rows.filterMap fun row => if row.head? = some head then some row.tail else none)

end ByteRow

namespace CharClass

/-- The size of a class for an automaton that reads it: its states are byte ranges in a row if
    it holds one character, one branching state if it is within ASCII, and otherwise what
    `spread` needs for the rows of bytes that spell it. -/
def size (spread : List ByteRow → Nat) (k : CharClass) : Nat :=
  match k.ranges with
  | [] => 32
  | ranges =>
    let rows := ranges.flatMap fun (low, high) => ByteRow.spell low high
    match ranges with
    | [(low, high)] =>
      if low = high then 32 * total (rows.map List.length)
      else if high < 0x80 then 72 else spread rows
    | _ => if ranges.all (·.2 < 0x80) then 64 + 8 * ranges.length else spread rows

/-- The size of a class for the automaton that reads forwards. What is the same behind
    different beginnings is one state. -/
def forwardSize : CharClass → Nat :=
  size fun rows =>
    let states := (ByteRow.rests 4 rows).eraseDups.filter (· ≠ [[]])
    32 + total (states.map fun rows => 32 + 8 * (ByteRow.heads rows).length)

/-- The size of a class for the automaton that reads backwards. What is the same before
    different ends is one state. -/
def backwardSize : CharClass → Nat :=
  size fun rows =>
    let starts := rows.flatMap fun row => (List.range row.length).map fun n => row.take (n + 1)
    64 + 4 * rows.length + 32 * starts.eraseDups.length

end CharClass

namespace PatternPart

/-- Whether a part never takes a character. -/
def idle : PatternPart → Bool
  | .one _ => false
  | .times part _ most _ => most = some 0 || part.idle

/-- The bounds of a repetition. What never takes a character is not repeated. -/
def bounds (part : PatternPart) (least : Nat) (most : Option Nat) : Nat × Option Nat :=
  if part.idle then (min least 1, some (min (most.getD 1) 1)) else (least, most)

/-- Whether a part comes to nothing, so that no state is needed for it. -/
def isEmpty : PatternPart → Bool
  | .one _ => false
  | .times part least most _ =>
    match part.bounds least most with
    | (0, some 0) => true
    | (1, some 1) => part.isEmpty
    | _ => false

/-- The size of a part for an automaton in which a class has a given size. A repetition is written
    out as far as it is bounded. -/
def size (chars : CharClass → Nat) : PatternPart → Nat
  | .one k => chars k
  | .times part least most _ =>
    let once := part.size chars
    match part.bounds least most with
    | (0, some 0) => 32
    | (1, some 1) => once
    | (0, some 1) => 72 + once
    | (0, none) => if part.nullable then 112 + once else 40 + once
    | (least, none) => 40 + least * once
    | (least, some most) =>
      if least = most then least * once
      else (if least = 0 then 32 else least * once) + 32 + (most - least) * (40 + once)

end PatternPart

namespace Pattern

/-- The size of a pattern for an automaton in which a class has a given size. -/
def size (chars : CharClass → Nat) (p : Pattern) : Nat :=
  if p.all (·.isEmpty) then 32
  else total ((p.filter (!·.isEmpty)).map (·.size chars))

/-- The greatest size of an automaton. -/
def maxSize : Nat := 10 * Nat.pow 2 20

/-- Whether a pattern between literals of `around` bytes can be run: neither the automaton that reads
    forwards nor the one that reads backwards is too large. -/
def fits (around : Nat) (p : Pattern) : Bool :=
  224 + 32 * around + p.size CharClass.forwardSize ≤ maxSize &&
    176 + 32 * around + p.size CharClass.backwardSize ≤ maxSize

end Pattern

end LiterateSync.Text
