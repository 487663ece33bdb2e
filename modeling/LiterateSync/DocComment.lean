import LiterateSync.Language.Profile

namespace LiterateSync

/-- The prose of a comment with the markup around it. -/
structure DocComment where
  /-- The blanks before the delimiter. -/
  indent : String
  /-- The line-comment delimiter, or the opening delimiter of a block comment. -/
  delimiter : String
  /-- The prose, without delimiters and the spaces that set it off. -/
  contents : String
  deriving DecidableEq, Repr

namespace DocComment

/-- A line of a line comment without its markup; what of it is missing is not missed. -/
def proseOfLine (indent delimiter line : List Char) : List Char :=
  Text.dropPrefix [' '] (Text.dropPrefix delimiter (Text.dropPrefix indent line))

/-- The lines after the first without the indent that they share. -/
def dropIndents (indent : List Char) : List (List Char) → List (List Char)
  | [] => []
  | l :: ls => l :: ls.map (Text.dropPrefix indent)

/-- The text without one space at its end. -/
def dropLastSpace (s : List Char) : List Char :=
  (Text.beforeSuffix? [' '] s).getD s

/-- The prose between the delimiters of a block comment, where `tail` is the text after
    the closing one. A line feed in the tail becomes the end of the prose. -/
def proseOfBlock (indent inner tail : List Char) : List Char :=
  let inner := dropLastSpace (Text.dropPrefix [' '] inner)
  let prose := (['\n'].intercalate (dropIndents indent (Text.fields '\n' inner)))
  if tail.contains '\n' then prose ++ ['\n'] else prose

/-- The comment that a text spells in a language. There is none if no delimiter of the
    language stands behind the blanks at the start, or if a block comment is not closed. -/
def parse? (p : Profile) (raw : String) : Option DocComment :=
  let s := raw.toList
  let indent := s.takeWhile Text.isBlank
  let rest := s.dropWhile Text.isBlank
  let delimiter? := p.lineCommentsLongestFirst.find? fun d =>
    (Text.afterPrefix? d.toList rest).isSome
  match delimiter? with
  | some d =>
    let prose := (Text.lines s).flatMap (proseOfLine indent d.toList)
    some ⟨String.ofList indent, d, String.ofList prose⟩
  | none => do
    let comment ← p.blockCommentsLongestFirst.find? fun b =>
      (Text.afterPrefix? b.opening.toList rest).isSome
    let body := rest.drop comment.opening.length
    let (inner, tail) ← Text.splitLast? comment.closing.toList body
    some ⟨String.ofList indent, comment.opening, String.ofList (proseOfBlock indent inner tail)⟩

/-- A line of prose as a line of a line comment. A space stands between the delimiter
    and prose that is not empty. -/
def sourceOfLine (indent delimiter line : List Char) : List Char :=
  let gap := if (Text.trimEnd (fun c => c = '\r' || c = '\n') line).isEmpty then [] else [' ']
  indent ++ delimiter ++ gap ++ line

/-- The prose of a block comment with its lines after the first indented, the empty
    ones apart. -/
def indentLines (indent : List Char) : List (List Char) → List (List Char)
  | [] => []
  | l :: ls => l :: ls.map fun line => if line.isEmpty then line else indent ++ line

/-- The source text of prose between the delimiters of a block comment. A line feed at
    the end of the prose goes behind the closing one. -/
def sourceOfBlock (indent opening closing prose : List Char) : List Char :=
  let body? := Text.beforeSuffix? ['\n'] prose
  let body := body?.getD prose
  let inner := ['\n'].intercalate (indentLines indent (Text.fields '\n' body))
  indent ++ opening ++ [' '] ++ inner ++ (if body.isEmpty then [] else [' ']) ++ closing ++
    (if body?.isSome then ['\n'] else [])

/-- The source text of a comment in a language, if the language has the delimiter. -/
def toSource? (p : Profile) (c : DocComment) : Option String :=
  let indent := c.indent.toList
  let delimiter := c.delimiter.toList
  if p.isLineComment c.delimiter then
    if c.contents.isEmpty then some (String.ofList (indent ++ delimiter))
    else
      some (String.ofList ((Text.lines c.contents.toList).flatMap (sourceOfLine indent delimiter)))
  else
    (p.closingFor? c.delimiter).map fun closing =>
      String.ofList (sourceOfBlock indent delimiter closing.toList c.contents.toList)

end DocComment

end LiterateSync
