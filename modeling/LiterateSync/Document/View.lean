import LiterateSync.Document.Basic
import LiterateSync.Text.LineEnding

namespace LiterateSync

/-- A block as a view shows it: prose without its markup, or code as it is. -/
structure ViewBlock where
  kind : BlockKind
  /-- The name of the language, by which a view picks its highlighting. -/
  language : String
  content : String
  deriving DecidableEq, Repr

namespace Document

/-- The text of a block that a view shows, with plain line feeds. -/
def shownText (p : Profile) (b : Block) : String :=
  LineEnding.lf.convert (((b.comment? p).map (·.contents)).getD b.content)

/-- The blocks of a document as a view shows them. -/
def rendered (d : Document) : List ViewBlock :=
  d.blocks.map fun b => ⟨b.kind, d.profile.id, shownText d.profile b⟩

/-- The line-ending style of a document's text. -/
def lineEnding (d : Document) : LineEnding :=
  LineEnding.detect d.text

/-- A text with a line feed at its end, which the last text of a view does not need. -/
def terminated (isLast : Bool) (text : String) : String :=
  if isLast || text.toList.getLast? = some '\n' then text else text ++ "\n"

/-- The delimiter of comments that are new in a language. -/
def newDelimiter (p : Profile) : String :=
  match p.lineComments, p.blockComments with
  | d :: _, _ => d
  | [], b :: _ => b.opening
  | [], [] => ""

/-- The source of prose in the markup of a comment, or the prose itself if the language
    cannot mark it up. -/
def markUp (p : Profile) (indent delimiter prose : String) : String :=
  ((DocComment.toSource? p ⟨indent, delimiter, prose⟩)).getD prose

/-- The source of prose that a view gives back, where `shown` is the doc block in its
    place. Prose that is unchanged has the source of that block. Other prose is marked
    up in the way of that block, or in the way of the language if there is none. -/
def docSource (d : Document) (shown : Option Block) (isLast : Bool) (prose : String) : String :=
  let p := d.profile
  let markedUp := fun indent delimiter =>
    d.lineEnding.convert (markUp p indent delimiter (terminated isLast prose))
  match shown.bind fun b => (b.comment? p).map (b, ·) with
  | some (b, comment) =>
    if LineEnding.lf.convert comment.contents = prose then b.content
    else markedUp comment.indent comment.delimiter
  | none => markedUp "" (newDelimiter p)

/-- The source of one view block, with the block of the document at its place. -/
def viewSource (d : Document) (shown : Option Block) (isLast : Bool) (v : ViewBlock) : String :=
  match v.kind with
  | .code => d.lineEnding.convert (terminated isLast v.content)
  | .doc => d.docSource (shown.filter (·.kind = .doc)) isLast v.content

/-- The sources of view blocks, with the blocks of the document at their places. -/
def viewSources (d : Document) : List Block → List ViewBlock → List String
  | _, [] => []
  | blocks, v :: vs =>
    d.viewSource blocks.head? vs.isEmpty v :: viewSources d blocks.tail vs

/-- The text that the blocks of a view make up. -/
def viewText (d : Document) (view : List ViewBlock) : String :=
  String.join (d.viewSources d.blocks view)

/-- The document that the blocks of a view make up, at the revision of the one that was
    shown. Its blocks are those of a text opened anew, under names of their own. -/
def ofView [RegexLibrary] (d : Document) (view : List ViewBlock) : Except SegmentError Document :=
  (openWith d.profile (.seeded "view") (d.viewText view)).map fun candidate =>
    { candidate with revision := d.revision }

end Document

end LiterateSync
