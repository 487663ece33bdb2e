import LiterateSync.Command.Basic
import LiterateSync.Document.Basic
import LiterateSync.Segment.Report
import LiterateSync.Text.LineEnding

namespace LiterateSync

/-- The offset of the first byte in which two texts differ, or the length of the shorter one
    if it is the start of the other. -/
def firstDifference : List UInt8 → List UInt8 → Nat
  | x :: xs, y :: ys => if x = y then firstDifference xs ys + 1 else 0
  | _, _ => 0

/-- What the check of a file says about its document. -/
def Document.summary (d : Document) (path text : String) : String :=
  let docs := (d.blocks.filter fun b => b.kind = .doc).length
  let count := d.blocks.length
  String.join
    [s!"✓ {path}\n",
     s!"   Language:    {d.profile.id}\n",
     s!"   Line ending: {(LineEnding.detect text).label}\n",
     s!"   Blocks:      {count} ({docs} doc, {count - docs} code)\n",
     s!"   Bytes:       {text.utf8ByteSize}\n"]

/-- The command that checks that the text of a file can be opened as a document, and that
    the document gives the text back. -/
def checkFile [RegexLibrary] (fs : Files) (path : String) : Outcome :=
  match SourceFile.load fs path with
  | .error e => .failed e
  | .ok file =>
    match Document.ofText file.profile file.text with
    | .error e =>
      { result := .error (.rejected e), errors := e.report file.text path ++ "\n" }
    | .ok d =>
      if d.text = file.text then { result := .ok (), output := d.summary path file.text }
      else
        let offset := firstDifference file.text.toUTF8.toList d.text.toUTF8.toList
        .failed (.lossy path offset)

end LiterateSync
