import LiterateSync.Proofs.Text.Pattern
import LiterateSync.Regex
import LiterateSync.Text.Pattern.Reader

namespace LiterateSync

open Text (Pattern)

/-- Whether an expression finds, behind a text at the start, what a pattern takes in front of
    another text, with that as its first group. -/
def Regex.Finds (opener : Regex) (before : List Char) (p : Pattern) (after : List Char) : Prop :=
  ∀ s, opener.captures? (before ++ s) = (p.matchBefore? after s).map fun (taken, _) =>
    ⟨before.length + taken.length + after.length, some taken⟩

/-- A library of regular expressions that does right by a group of literals, classes and
    repetitions between two literal texts: of all its matches it finds the preferred one. -/
class LawfulRegexLibrary [RegexLibrary] : Prop where
  finds : ∀ {before group after : String} {p : Pattern} {opener : Regex},
    Pattern.ofText? group = some p →
    RegexLibrary.compile? ("^" ++ RegexLibrary.escape before ++ "(" ++ group ++ ")" ++
      RegexLibrary.escape after) = some opener →
    opener.Finds before.toList p after.toList

end LiterateSync
