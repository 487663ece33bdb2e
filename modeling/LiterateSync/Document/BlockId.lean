import LiterateSync.Text.Basic
import LiterateSync.Text.Checksum

namespace LiterateSync

/-- The name of a document, from its path: the checksum of the path as a file address. -/
def documentId (path : String) : String :=
  let scheme := "file://"
  let address :=
    if (Text.afterPrefix? scheme.toList path.toList).isSome then path else scheme ++ path
  Text.hexText (Text.crc32 address.toUTF8.toList).toNat

/-- The lasting name of a block of a document. -/
structure BlockId where
  text : String
  deriving DecidableEq, Repr

/-- A source of block names: a seed and the number of the last name given out. -/
structure IdSource where
  seed : Option String
  count : Nat
  deriving DecidableEq, Repr

namespace IdSource

/-- The greatest number that a name can carry. -/
def maxNumber : Nat := Nat.pow 2 64 - 1

/-- A source without a seed. -/
def unseeded : IdSource := ⟨none, 0⟩

/-- A source with a seed. -/
def seeded (seed : String) : IdSource := ⟨some seed, 0⟩

/-- The source whose seed is the name of the document with a path. -/
def ofPath (path : String) : IdSource :=
  seeded (documentId path)

/-- What stands before the number in the names of a source. -/
def stem (g : IdSource) : String :=
  match g.seed with
  | some seed => seed ++ "-b"
  | none => "b"

/-- The name with the number `n`. -/
def name (g : IdSource) (n : Nat) : BlockId :=
  ⟨g.stem ++ toString n⟩

/-- The next name, and the source after it. -/
def fresh (g : IdSource) : BlockId × IdSource :=
  let n := g.count + 1
  (g.name n, { g with count := n })

/-- The next name and the source after it, if there is a number left for the name. -/
def next? (g : IdSource) : Option (BlockId × IdSource) :=
  if g.count < maxNumber then some g.fresh else none

/-- The number that a text spells in decimal digits, which a plus sign and zeros may
    precede, if it is not too great. -/
def number? (s : List Char) : Option Nat :=
  let digits := Text.dropPrefix ['+'] s
  if digits ≠ [] && digits.all Char.isDigit && Text.decimal digits ≤ maxNumber then
    some (Text.decimal digits)
  else none

/-- The number in a name that has the form of the source's names. -/
def numberOf? (g : IdSource) (id : BlockId) : Option Nat :=
  (Text.afterPrefix? g.stem.toList id.text.toList).bind number?

/-- The source after a name that came from elsewhere. Names with its number and those
    before it will not be given out. -/
def observe (g : IdSource) (id : BlockId) : IdSource :=
  match g.numberOf? id with
  | some n => { g with count := max g.count n }
  | none => g

end IdSource

end LiterateSync
