import LiterateSync.Command.Basic
import LiterateSync.Segment.Split
import LiterateSync.Wire.Document

namespace LiterateSync

/-- The first line of a text, without its line ending. -/
def firstLine (s : List Char) : List Char :=
  match (Text.lines s).head? with
  | none => []
  | some line =>
    match Text.beforeSuffix? ['\n'] line with
    | none => line
    | some body => (Text.beforeSuffix? ['\r'] body).getD body

/-- The first line of a text without the white space at its end, cut to `width` characters.
    An ellipsis takes the place of what is cut off. -/
def preview (text : String) (width : Nat) : String :=
  let line := Text.trimEnd Text.isWhite (firstLine text.toList)
  if width < line.length then String.ofList (line.take (width - 1) ++ ['…'])
  else String.ofList line

/-- A text with spaces before it, up to a width. -/
def padStart (width : Nat) (text : String) : String :=
  String.ofList (List.replicate (width - text.length) ' ') ++ text

/-- A text with spaces after it, up to a width. -/
def padEnd (width : Nat) (text : String) : String :=
  text ++ String.ofList (List.replicate (width - text.length) ' ')

namespace Segment

/-- The name of a kind in a column of a listing. -/
def kindColumn : BlockKind → String
  | .doc => "doc "
  | .code => "code"

/-- How many characters of a segment a listing shows. -/
def previewWidth : Nat := 60

/-- The line for one segment in a listing, under its number. -/
def listingLine (number : Nat) (s : Segment) : String :=
  let place := padStart 6 (toString s.range.start) ++ ".." ++ padEnd 6 (toString s.range.stop)
  s!"  {padStart 3 (toString number)} {kindColumn s.kind} {place} {preview s.text previewWidth}\n"

/-- The lines for segments, numbered from `number` on. -/
def listingLines (number : Nat) : List Segment → List String
  | [] => []
  | s :: ss => s.listingLine number :: listingLines (number + 1) ss

end Segment

/-- The command that lists the segments of a file, or writes them as data. -/
def listSegments [RegexLibrary] (fs : Files) (path : String) (asData : Bool) : Outcome :=
  match SourceFile.load fs path with
  | .error e => .failed e
  | .ok file =>
    match segment file.profile file.text with
    | .error e => .failed (.segment e)
    | .ok segments =>
      let output :=
        if asData then (Json.ofList Segment.toJson segments).renderPretty ++ "\n"
        else
          let heading := s!"Segments {path} ({file.profile.id})\n"
          heading ++ String.join (Segment.listingLines 1 segments)
      { result := .ok (), output }

end LiterateSync
