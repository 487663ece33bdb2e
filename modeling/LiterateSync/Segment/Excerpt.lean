import LiterateSync.Text.Basic
import LiterateSync.Text.WidthTable

namespace LiterateSync.Excerpt

/-- The characters that end a line of a source. -/
def isTerminator (c : Char) : Bool :=
  c = '\r' || c = '\n' || c = '\x0b' || c = '\x0c' || c.val = 0x85 || c.val = 0x2028 ||
    c.val = 0x2029

/-- The lines of a source, each with the characters that end it. A carriage return and
    a line feed end a line together. -/
def sourceLines : List Char → List (List Char)
  | [] => []
  | '\r' :: '\n' :: s => ['\r', '\n'] :: sourceLines s
  | c :: s =>
    if isTerminator c then [c] :: sourceLines s
    else
      match sourceLines s with
      | [] => [[c]]
      | l :: ls => (c :: l) :: ls

/-- A line of a source: its number, counted from one, the number of characters before
    it, and its own characters with those that end it. -/
structure Line where
  number : Nat
  start : Nat
  text : List Char
  deriving DecidableEq, Repr

/-- The number of characters up to the end of a line. -/
def Line.stop (l : Line) : Nat :=
  l.start + l.text.length

/-- Lines with their places, when the first has a given number and start. -/
def numberFrom (number start : Nat) : List (List Char) → List Line
  | [] => []
  | l :: ls => ⟨number, start, l⟩ :: numberFrom (number + 1) (start + l.length) ls

/-- The lines of a source with their places. A source without text is one empty line. -/
def lines : List Char → List Line
  | [] => [⟨1, 0, []⟩]
  | source => numberFrom 1 0 (sourceLines source)

/-- The line that holds the character with a given index. The index behind the last
    character lies on the last line. -/
def lineAt? (index : Nat) : List Line → Option Line
  | [] => none
  | [l] => if index ≤ l.stop then some l else none
  | l :: ls => if index < l.stop then some l else lineAt? index ls

/-- A character of a line as it is shown: a tab as the spaces that fill four characters, other
    white space as one space, and the rest as it is. -/
def shown (index : Nat) (c : Char) : List Char :=
  if c = '\t' then List.replicate (4 - index % 4) ' '
  else if Text.isWhite c then [' ']
  else [c]

/-- The number of columns in which a character of a line is shown. -/
def width (index : Nat) (c : Char) : Nat :=
  if Text.isWhite c then (shown index c).length else Text.columns c

namespace Line

/-- The characters of a line that are shown: white space at its end is not. -/
def visible (l : Line) : List Char :=
  Text.trimEnd Text.isWhite l.text

/-- A line as it is shown. -/
def shown (l : Line) : List Char :=
  (l.visible.mapIdx Excerpt.shown).flatten

/-- The row below the first `count` characters of a line. Below each of them stands the first
    character that `draw` gives, and the second fills the columns that are left. What lies
    behind the line is one column wide. -/
def under (l : Line) (count : Nat) (draw : Nat → Char × Char) : List Char :=
  let widths := (l.visible.mapIdx width ++ List.replicate count 1).take count
  (widths.mapIdx fun index columns =>
    ((draw index).1 :: List.replicate (columns - 1) (draw index).2).take columns).flatten

end Line

/-- The margin of a row: a number or nothing, in the columns of the longest number, and a bar. -/
def margin (digits : Nat) (number : String) (bar : Char) : List Char :=
  ' ' :: List.replicate (digits - number.length) ' ' ++ number.toList ++ [' ', bar, ' ']

/-- The rows for characters within one line: the line, a row that underlines them, and one that
    leads from the middle of them to the label. Characters that end behind the line cannot
    be underlined. -/
def underline (digits : Nat) (l : Line) (start stop : Nat) (label : String) : List (List Char) :=
  let blank := margin digits "" '│'
  if l.stop < stop then [blank]
  else
    let first := start - l.start
    let last := stop - l.start
    let middle := (first + last) / 2
    let mark := fun index =>
      if index = middle then if first < last then ('┬', '─') else ('│', ' ')
      else if first ≤ index && index < last then ('─', '─')
      else (' ', ' ')
    let lead := fun index =>
      if index = middle then ('╰', '─') else if middle < index then ('─', '─') else (' ', ' ')
    [margin digits (toString l.number) '│' ++ l.shown,
      blank ++ l.under (last + 2) mark,
      blank ++ l.under (last + 2) lead ++ ' ' :: label.toList]

/-- The rows for characters that begin in one line and end in one of the `others` after it: a
    bracket around the lines, which leads to the label. The lines between the first and the
    last are left out, and so is a last line that ends before the characters do. -/
def bracket (digits : Nat) (first : Line) (others : List Line) (stop : Nat) (label : String) :
    List (List Char) :=
  let blank := margin digits "" '│'
  let (ending, between) := others.partition fun l => stop - 1 < l.stop
  let gap := if between.isEmpty then [] else [margin digits "" '┆' ++ "┆   ".toList]
  let close := fun l : Line =>
    [margin digits (toString l.number) '│' ++ "├─▶ ".toList ++ l.shown,
      blank ++ "│   ".toList ++ l.under (l.text.length + 2) fun _ => (' ', ' '),
      blank ++ "╰───".toList ++ l.under (l.text.length + 2) (fun _ => ('─', '─')) ++
        ' ' :: label.toList]
  (margin digits (toString first.number) '│' ++ "╭─▶ ".toList ++ first.shown) ::
    gap ++ ending.flatMap close

/-- The rows of a frame around the lines that hold the characters from `start` up to and without
    `stop`, in which these characters are labelled. There is none unless the source holds
    the place where they start, and their last. -/
def frame? (filename label : String) (start stop : Nat) (source : List Char) :
    Option (List (List Char)) := do
  let all := lines source
  let first ← lineAt? start all
  let last ← lineAt? (max start (stop - 1)) all
  let digits := (toString last.number).length
  let place := s!"{filename}:{first.number}:{start - first.start + 1}"
  let others := all.filter fun l => first.number < l.number && l.number ≤ last.number
  let corner := List.replicate (digits + 2) ' '
  some <|
    (corner ++ "╭─[".toList ++ place.toList ++ [']']) ::
    (corner ++ ['│']) ::
    (if others.isEmpty then underline digits first start stop label
      else bracket digits first others stop label) ++
    [List.replicate (digits + 2) '─' ++ ['╯']]

end LiterateSync.Excerpt
