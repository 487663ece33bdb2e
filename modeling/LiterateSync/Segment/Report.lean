import LiterateSync.Segment.Excerpt
import LiterateSync.Segment.Split
import LiterateSync.Text.Colour

namespace LiterateSync.SegmentError

/-- What the text that an error is about is labelled with. -/
def label : SegmentError → String
  | .unsupported _ => "no language profile for this file"
  | .malformed _ comment =>
    s!"comment opened here, expected '{comment.closing}' before end of file"
  | .stalled _ => "what begins here takes no text"

/-- The report on an error in a source: the error, and the lines that it is about with
    the place marked. The offset of the error counts bytes, and the report takes it
    as a number of characters. A place that ends behind the source is not shown, and an
    error about no bytes in particular is shown at the first. What the report says is plain
    text, without sequences that switch colours, but the lines are shown as they are. -/
def report (e : SegmentError) (source filename : String) : String :=
  let plain := fun text : String => Text.uncoloured text.toList
  let headline := plain s!"Error: {e.userMessage}: {e.message}"
  let span := e.span?.getD ⟨0, min source.utf8ByteSize 1⟩
  let rows := (Excerpt.frame? (String.ofList (plain filename)) (String.ofList (plain e.label))
    span.start span.stop source.toList).getD []
  String.ofList ((headline :: rows).flatMap (· ++ ['\n']))

end LiterateSync.SegmentError
