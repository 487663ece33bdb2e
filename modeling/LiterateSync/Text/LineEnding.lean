import LiterateSync.Text.Basic

namespace LiterateSync

/-- How the lines of a text end. -/
inductive LineEnding where
  /-- A line feed. -/
  | lf
  /-- A carriage return and a line feed. -/
  | crlf
  deriving DecidableEq, Repr

namespace LineEnding

/-- The characters of one line ending. -/
def chars : LineEnding → List Char
  | .lf => ['\n']
  | .crlf => ['\r', '\n']

/-- Every carriage return that is followed by a line feed is removed. -/
def toLf : List Char → List Char
  | '\r' :: '\n' :: s => '\n' :: toLf s
  | c :: s => c :: toLf s
  | [] => []

/-- The text with every line ending written as `e`. A carriage return that no
    line feed follows is no line ending and stays. -/
def convertChars (e : LineEnding) (s : List Char) : List Char :=
  match e with
  | .lf => toLf s
  | .crlf => (toLf s).flatMap fun c => if c = '\n' then crlf.chars else [c]

/-- The style of a text is that of its first line ending; a text without one has
    plain line feeds. -/
def ofChars : List Char → LineEnding
  | '\r' :: '\n' :: _ => .crlf
  | '\n' :: _ => .lf
  | _ :: s => ofChars s
  | [] => .lf

/-- The line-ending style of a text, which is that of its first line ending. -/
def detect (text : String) : LineEnding :=
  ofChars text.toList

/-- The text with every line ending written as `e`. -/
def convert (e : LineEnding) (text : String) : String :=
  String.ofList (convertChars e text.toList)

/-- The line ending as a text. -/
def text (e : LineEnding) : String :=
  String.ofList e.chars

/-- The name of a style in written data. -/
def name : LineEnding → String
  | .lf => "lf"
  | .crlf => "crlf"

/-- The name of a style in a report for people. -/
def label : LineEnding → String
  | .lf => "Lf"
  | .crlf => "Crlf"

end LineEnding

end LiterateSync
