import LiterateSync.Document.BlockId
import LiterateSync.DocComment
import LiterateSync.Segment.Split

namespace LiterateSync

/-- A block of a document: a stretch of its text under a lasting name. -/
structure Block where
  id : BlockId
  kind : BlockKind
  content : String
  deriving DecidableEq, Repr

/-- The comment that a doc block spells, if it spells one. A code block has none. -/
def Block.comment? (p : Profile) (b : Block) : Option DocComment :=
  match b.kind with
  | .code => none
  | .doc => DocComment.parse? p b.content

/-- The blocks of a text in order, at one of its revisions. -/
structure Document where
  blocks : List Block
  revision : Nat
  profile : Profile
  /-- The source of the names of blocks that are yet to come. -/
  ids : IdSource
  deriving DecidableEq, Repr

namespace Document

/-- The segments as blocks under fresh names, and the source of names behind them. -/
def nameSegments : IdSource → List Segment → List Block × IdSource
  | g, [] => ([], g)
  | g, s :: ss =>
    let (id, next) := g.fresh
    let (blocks, last) := nameSegments next ss
    (⟨id, s.kind, s.text⟩ :: blocks, last)

/-- The first revision of a document with the given segments. -/
def build (p : Profile) (ids : IdSource) (segments : List Segment) : Document :=
  let (blocks, ids) := nameSegments ids segments
  { blocks, revision := 0, profile := p, ids }

/-- The first revision of the document of a text. -/
def openWith [RegexLibrary] (p : Profile) (ids : IdSource) (text : String) :
    Except SegmentError Document :=
  (segment p text).map (build p ids)

/-- The first revision of the document of a text, with names that have no seed. -/
def ofText [RegexLibrary] (p : Profile) (text : String) : Except SegmentError Document :=
  openWith p .unseeded text

/-- The text of a document, which is that of its blocks in a row. -/
def text (d : Document) : String :=
  String.join (d.blocks.map (·.content))

/-- The block with a name, if there is one. -/
def find? (d : Document) (id : BlockId) : Option Block :=
  d.blocks.find? (·.id = id)

/-- The index of the block with a name, if there is one. -/
def position? (d : Document) (id : BlockId) : Option Nat :=
  d.blocks.findIdx? (·.id = id)

/-- The kinds and contents of the blocks, without their names. -/
def outline (d : Document) : List (BlockKind × String) :=
  d.blocks.map fun b => (b.kind, b.content)

theorem content_nameSegments (ids : IdSource) (segments : List Segment) :
    (nameSegments ids segments).1.map (·.content) = segments.map (·.text) := by
  induction segments generalizing ids with
  | nil => rfl
  | cons s ss ih => simp [nameSegments, ih]

/-- A document holds the text that it was opened with. -/
theorem text_of_openWith [RegexLibrary] {p : Profile} {ids : IdSource} {source : String}
    {d : Document} (h : openWith p ids source = .ok d) : d.text = source := by
  unfold openWith at h
  cases hsegments : segment p source with
  | error e => simp [hsegments, Except.map] at h
  | ok segments =>
    simp only [hsegments, Except.map, Except.ok.injEq] at h
    subst h
    rw [text, build, content_nameSegments, join_of_segment hsegments]

end Document

end LiterateSync
