import LiterateSync.Text.Basic
import LiterateSync.Text.WordTable

namespace LiterateSync.Text

/-- The first characters of the runs of ten decimal digits beyond ASCII. -/
def digitZeros : List UInt32 :=
  [0x660, 0x6F0, 0x7C0, 0x966, 0x9E6, 0xA66, 0xAE6, 0xB66, 0xBE6, 0xC66, 0xCE6, 0xD66, 0xDE6,
   0xE50, 0xED0, 0xF20, 0x1040, 0x1090, 0x17E0, 0x1810, 0x1946, 0x19D0, 0x1A80, 0x1A90, 0x1B50,
   0x1BB0, 0x1C40, 0x1C50, 0xA620, 0xA8D0, 0xA900, 0xA9D0, 0xA9F0, 0xAA50, 0xABF0, 0xFF10,
   0x104A0, 0x10D30, 0x10D40, 0x11066, 0x110F0, 0x11136, 0x111D0, 0x112F0, 0x11450, 0x114D0,
   0x11650, 0x116C0, 0x116D0, 0x116DA, 0x11730, 0x118E0, 0x11950, 0x11BF0, 0x11C50, 0x11D50,
   0x11DA0, 0x11F50, 0x16130, 0x16A60, 0x16AC0, 0x16B50, 0x16D70, 0x1CCF0, 0x1D7CE, 0x1D7D8,
   0x1D7E2, 0x1D7EC, 0x1D7F6, 0x1E140, 0x1E2F0, 0x1E4F0, 0x1E5F1, 0x1E950, 0x1FBF0]

/-- A decimal digit of any script. -/
def isDecimalDigit (c : Char) : Bool :=
  c.isDigit || digitZeros.any fun zero => zero ≤ c.val && c.val < zero + 10

/-- One member of a character class. -/
inductive ClassItem where
  /-- The characters from `low` to `high`. -/
  | range (low high : Char)
  /-- White space, or all but white space. -/
  | white (inside : Bool)
  /-- Word characters, or all others. -/
  | word (inside : Bool)
  /-- Decimal digits, or all others. -/
  | digit (inside : Bool)
  deriving DecidableEq, Repr

/-- Whether an item stands for a character. -/
def ClassItem.contains (c : Char) : ClassItem → Bool
  | .range low high => low ≤ c && c ≤ high
  | .white inside => isWhite c == inside
  | .word inside => isWordChar c == inside
  | .digit inside => isDecimalDigit c == inside

/-- A set of characters: those that some item stands for, or the others. -/
structure CharClass where
  negated : Bool
  items : List ClassItem
  deriving DecidableEq, Repr

/-- Whether a class holds a character. -/
def CharClass.contains (k : CharClass) (c : Char) : Bool :=
  k.items.any (·.contains c) != k.negated

/-- Stretches of code points, each from its first to its last. -/
abbrev CodeRanges := List (Nat × Nat)

namespace CodeRanges

/-- Joins ranges in ascending order of their starts, if they overlap or touch, to the range
    from `low` to `high` and to each other. -/
def joinTo (low high : Nat) : CodeRanges → CodeRanges
  | [] => [(low, high)]
  | (first, last) :: ranges =>
    if first ≤ high + 1 then joinTo low (max high last) ranges
    else (low, high) :: joinTo first last ranges

/-- The same code points in separate ranges in ascending order. -/
def normal (ranges : CodeRanges) : CodeRanges :=
  match ranges.mergeSort fun a b => a.1 ≤ b.1 with
  | [] => []
  | (first, last) :: ranges => joinTo first last ranges

/-- The code points from `start` on that are in none of the ranges, which are separate and
    in ascending order. -/
def gaps (start : Nat) : CodeRanges → CodeRanges
  | [] => if start ≤ 0x10FFFF then [(start, 0x10FFFF)] else []
  | (first, last) :: ranges =>
    if start < first then (start, first - 1) :: gaps (last + 1) ranges
    else gaps (last + 1) ranges

/-- The code points of the ranges, or all others. -/
def select (inside : Bool) (ranges : CodeRanges) : CodeRanges :=
  if inside then normal ranges else gaps 0 (normal ranges)

end CodeRanges

/-- The code points that an item stands for. -/
def ClassItem.ranges : ClassItem → CodeRanges
  | .range low high => [(low.toNat, high.toNat)]
  | .white inside =>
    .select inside [(0x9, 0xD), (0x20, 0x20), (0x85, 0x85), (0xA0, 0xA0), (0x1680, 0x1680),
      (0x2000, 0x200A), (0x2028, 0x2029), (0x202F, 0x202F), (0x205F, 0x205F), (0x3000, 0x3000)]
  | .word inside =>
    .select inside ([(0x30, 0x39), (0x41, 0x5A), (0x5F, 0x5F), (0x61, 0x7A)] ++
      wordRanges.map fun (low, high) => (low.toNat, high.toNat))
  | .digit inside =>
    .select inside ((0x30, 0x39) :: digitZeros.map fun zero => (zero.toNat, zero.toNat + 9))

/-- The code points of a class in separate ranges in ascending order. -/
def CharClass.ranges (k : CharClass) : CodeRanges :=
  .select (!k.negated) (k.items.flatMap ClassItem.ranges)

end LiterateSync.Text
