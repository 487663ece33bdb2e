import LiterateSync.Regex
import LiterateSync.Text.Basic

namespace LiterateSync

/-- The opening and the closing delimiter of a block comment. -/
structure BlockComment where
  opening : String
  closing : String
  deriving DecidableEq, Repr

/-- One kind of string literal of a language. -/
structure StringSyntax where
  /-- The opening delimiter. -/
  delimiter : String
  /-- The closing delimiter, where it differs from the opening one. -/
  closing : Option String := none
  /-- The character that takes the meaning from the one after it. -/
  escape : Option Char := none
  /-- Whether the literal may hold a line feed that is not escaped. -/
  multiline : Bool := false
  /-- Whether a dollar sign and an opening brace begin a stretch of code. -/
  template : Bool := false
  deriving DecidableEq, Repr

namespace StringSyntax

/-- A literal on one line, with escapes by a backslash. -/
def escaped (delimiter : String) : StringSyntax :=
  { delimiter, escape := some '\\' }

/-- A literal that may span lines, with escapes by a backslash. -/
def spanning (delimiter : String) : StringSyntax :=
  { delimiter, escape := some '\\', multiline := true }

/-- A literal that may span lines, without escapes. -/
def raw (opening closing : String) : StringSyntax :=
  { delimiter := opening, closing := some closing, multiline := true }

/-- A literal that may span lines and hold code, with escapes by a backslash. -/
def interpolated (delimiter : String) : StringSyntax :=
  { delimiter, escape := some '\\', multiline := true, template := true }

/-- A literal on one line, without escapes. -/
def plain (delimiter : String) : StringSyntax :=
  { delimiter }

/-- The delimiter that closes the literal. -/
def close (s : StringSyntax) : String :=
  s.closing.getD s.delimiter

end StringSyntax

/-- A string literal whose end is chosen by its writer: it opens with a prefix, an
    identifier and a suffix, and closes with the same identifier between two
    texts of its own. -/
structure Heredoc where
  startPrefix : String
  identPattern : String
  startSuffix : String
  stopPrefix : String
  stopSuffix : String := ""
  deriving DecidableEq, Repr

/-- The expression that finds the opening of the literal, with the identifier as its first
    group. The pattern of the identifier may be any text that makes it one. -/
def Heredoc.opener? [RegexLibrary] (h : Heredoc) : Option Regex :=
  RegexLibrary.compile? ("^" ++ RegexLibrary.escape h.startPrefix ++ "(" ++ h.identPattern ++
    ")" ++ RegexLibrary.escape h.startSuffix)

/-- The text that closes the literal opened with an identifier. -/
def Heredoc.terminator (h : Heredoc) (ident : List Char) : List Char :=
  h.stopPrefix.toList ++ ident ++ h.stopSuffix.toList

/-- The comment and string delimiters of a language. -/
structure Profile where
  /-- The name by which the language is looked up. -/
  id : String
  /-- The extensions of the language's files. -/
  extensions : List String := []
  lineComments : List String := []
  blockComments : List BlockComment := []
  strings : List StringSyntax := []
  heredocs : List Heredoc := []
  /-- The mark at a line's end that continues a line comment on the next line. -/
  lineContinuation : Option String := none
  deriving DecidableEq, Repr

/-- Why a profile cannot tell comments from strings. -/
inductive ProfileFault where
  | noStrings
  | noComments
  | emptyDelimiter
  | badHeredoc
  deriving DecidableEq, Repr

/-- A fault in words. -/
def ProfileFault.message : ProfileFault → String
  | .noStrings => "no string-literal recognizer configured"
  | .noComments => "no comment delimiters configured"
  | .emptyDelimiter => "empty delimiter"
  | .badHeredoc => "invalid heredoc delimiter"

namespace Profile

/-- Whether some delimiter of the profile is empty. -/
def hasEmptyDelimiter (p : Profile) : Bool :=
  p.lineComments.any (·.isEmpty) ||
    p.blockComments.any (fun b => b.opening.isEmpty || b.closing.isEmpty) ||
    p.strings.any (fun s => s.delimiter.isEmpty || s.close.isEmpty)

/-- The first fault of a profile, if it has one. A profile without a fault has
    strings and comments, and all its delimiters are usable. -/
def fault? [RegexLibrary] (p : Profile) : Option ProfileFault :=
  if p.strings.isEmpty then some .noStrings
  else if p.lineComments.isEmpty && p.blockComments.isEmpty then some .noComments
  else if p.hasEmptyDelimiter then some .emptyDelimiter
  else if p.heredocs.any (fun h => h.startPrefix.isEmpty || h.opener?.isNone) then
    some .badHeredoc
  else none

/-- Whether a delimiter is one of the profile's line comments. -/
def isLineComment (p : Profile) (delimiter : String) : Bool :=
  p.lineComments.contains delimiter

/-- The closing delimiter of the first block comment with a given opening one. -/
def closingFor? (p : Profile) (opening : String) : Option String :=
  (p.blockComments.find? (·.opening = opening)).map (·.closing)

/-- An extension without the dots before it. -/
def bareExtension (extension : String) : String :=
  String.ofList (extension.toList.dropWhile (· = '.'))

/-- Whether the profile claims an extension. Dots in front do not count, and ASCII
    letters are compared without regard to case. -/
def claims (p : Profile) (extension : String) : Bool :=
  p.extensions.any fun e =>
    (bareExtension e).toList.map Char.toLower = (bareExtension extension).toList.map Char.toLower

/-- The line-comment delimiters, longest first. -/
def lineCommentsLongestFirst (p : Profile) : List String :=
  Text.longestFirst (·.utf8ByteSize) p.lineComments

/-- The block comments, longest opening delimiter first. -/
def blockCommentsLongestFirst (p : Profile) : List BlockComment :=
  Text.longestFirst (·.opening.utf8ByteSize) p.blockComments

/-- The kinds of string literal, longest opening delimiter first. -/
def stringsLongestFirst (p : Profile) : List StringSyntax :=
  Text.longestFirst (·.delimiter.utf8ByteSize) p.strings

end Profile

end LiterateSync
