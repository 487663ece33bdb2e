import LiterateSync.Language.Profile

namespace LiterateSync

/-- What a stretch of a source text holds. -/
inductive BlockKind where
  | code
  | doc
  deriving DecidableEq, Repr

/-- The name of a kind in written data. -/
def BlockKind.name : BlockKind → String
  | .code => "code"
  | .doc => "doc"

/-- The bytes of a text from `start` up to and without `stop`. -/
structure ByteRange where
  start : Nat
  stop : Nat
  deriving DecidableEq, Repr

/-- A stretch of a source text of one kind, with its place in the text. -/
structure Segment where
  kind : BlockKind
  text : String
  range : ByteRange
  deriving DecidableEq, Repr

/-- Why a text cannot be split into segments. -/
inductive SegmentError where
  /-- There is no usable profile for the language. -/
  | unsupported (language : String)
  /-- A block comment opens at a byte of the text and is not closed. -/
  | malformed (offset : Nat) (comment : BlockComment)
  /-- The scan comes to a byte of the text and never beyond it: what begins there takes no
      character. -/
  | stalled (offset : Nat)
  deriving DecidableEq, Repr

namespace SegmentError

/-- The error of a profile with a fault. -/
def ofFault (p : Profile) (fault : ProfileFault) : SegmentError :=
  .unsupported s!"{p.id} ({fault.message})"

/-- The error in full. -/
def message : SegmentError → String
  | .unsupported language => s!"Unsupported language: {language}"
  | .malformed offset comment =>
    let place := s!"Malformed comment at byte {offset}"
    s!"{place}: '{comment.opening}' is never closed by '{comment.closing}'"
  | .stalled offset => s!"Endless scan at byte {offset}"

/-- The error in the few words that an author is shown. -/
def userMessage : SegmentError → String
  | .unsupported _ => "cannot open this file type"
  | .malformed .. | .stalled _ => "this file is malformed"

/-- The bytes that the error is about, if it is about some. -/
def span? : SegmentError → Option ByteRange
  | .unsupported _ => none
  | .malformed offset comment => some ⟨offset, offset + comment.opening.utf8ByteSize⟩
  | .stalled offset => some ⟨offset, offset⟩

end SegmentError

end LiterateSync
