import LiterateSync.Regex
import LiterateSync.Text.Pattern.Reader
import LiterateSync.Text.Pattern.Size

namespace LiterateSync.Text

namespace PatternReader

/-- Whether a character has a meaning in an expression, so that a literal spells it with a
    backslash. -/
def isMark (c : Char) : Bool :=
  "\\.+*?()|[]\x7b\x7d^$#&-~".toList.contains c

/-- The spelling of a literal text. -/
def spelled (text : List Char) : List Char :=
  text.flatMap fun c => if isMark c then ['\\', c] else [c]

/-- The literal text at the start of an expression, and what follows it. -/
def literal : List Char → List Char × List Char
  | [] => ([], [])
  | '\\' :: mark :: s =>
    if isMark mark then (mark :: (literal s).1, (literal s).2) else ([], '\\' :: mark :: s)
  | c :: s => if isMark c then ([], c :: s) else (c :: (literal s).1, (literal s).2)

/-- An anchored expression: a literal, the parts of a group with their depths, and another
    literal. -/
def framed? (s : List Char) : Option (List Char × List (Nat × PatternPart) × List Char) := do
  let s ← afterPrefix? ['^'] s
  let (before, s) := literal s
  let s ← afterPrefix? ['('] s
  let (parts, s) ← parts? s.length s
  let s ← afterPrefix? [')'] s
  let (after, s) := literal s
  if s = [] then some (before, parts, after) else none

/-- The greatest depth of a part in a group: there are three levels at most outside it. -/
def maxDepth (count : Nat) : Nat :=
  if 1 < count then 247 else 248

end PatternReader

/-- The expression that finds a pattern between two literals at the start of a text. -/
def Pattern.between (before : List Char) (p : Pattern) (after : List Char) : Regex where
  captures? s := do
    let r ← afterPrefix? before s
    let (taken, _) ← p.matchBefore? after r
    some ⟨before.length + taken.length + after.length, some taken⟩

/-- The compiled form of an anchored expression with one group, if that is neither too deep nor
    too large. Groups within it, alternatives and assertions are refused. -/
def compile? (text : String) : Option Regex := do
  let (before, parts, after) ← PatternReader.framed? text.toList
  let around := (String.ofList before).utf8ByteSize + (String.ofList after).utf8ByteSize
  if parts.all (·.1 ≤ PatternReader.maxDepth parts.length) &&
      Pattern.fits around (parts.map (·.2)) then
    some (Pattern.between before (parts.map (·.2.simplify)) after)
  else none

/-- Expressions made of literals, classes and repetitions alone. -/
instance : RegexLibrary where
  escape text := String.ofList (PatternReader.spelled text.toList)
  compile? := compile?

end LiterateSync.Text
