namespace LiterateSync

/-- Where a regular expression matches. -/
structure Regex.Captures where
  /-- The number of characters up to the end of the match. -/
  stop : Nat
  /-- The text of the first group, if the match goes through it. -/
  group : Option (List Char)
  deriving DecidableEq, Repr

/-- A compiled regular expression, as the function that finds its first match in a text. -/
structure Regex where
  captures? : List Char → Option Regex.Captures

/-- A library of regular expressions. Nothing is known of what an expression means: the laws
    of `LawfulRegexLibrary` speak of the simplest ones. -/
class RegexLibrary where
  /-- The expression of a literal text. -/
  escape : String → String
  /-- The compiled form of an expression, if it is well formed and not too large. -/
  compile? : String → Option Regex

end LiterateSync
