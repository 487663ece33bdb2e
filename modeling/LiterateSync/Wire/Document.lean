import LiterateSync.Document.Patch
import LiterateSync.Document.View
import LiterateSync.Wire.Language

namespace LiterateSync

namespace BlockId

/-- The name of a block as data. -/
def toJson (id : BlockId) : Json :=
  .string id.text

/-- The name of a block that data holds. -/
def ofJson? (v : Json) : Option BlockId :=
  v.string?.map BlockId.mk

end BlockId

namespace Block

/-- A block as data. -/
def toJson (b : Block) : Json :=
  .object [("id", b.id.toJson), ("kind", b.kind.toJson), ("content", .string b.content)]

/-- The block that data holds, which may have been `kept` until its type was known. -/
def ofJson? (kept : Bool) (v : Json) : Option Block := do
  let r ← v.record? ["id", "kind", "content"]
  let id ← r.required "id" BlockId.ofJson?
  let kind ← r.required "kind" (BlockKind.ofJson? kept)
  let content ← r.required "content" Json.string?
  some { id, kind, content }

end Block

namespace ViewBlock

/-- A view block as data. -/
def toJson (b : ViewBlock) : Json :=
  .object
    [("kind", b.kind.toJson), ("language", .string b.language), ("content", .string b.content)]

/-- The view block that data holds. -/
def ofJson? (v : Json) : Option ViewBlock := do
  let r ← v.record? ["kind", "language", "content"]
  let kind ← r.required "kind" (BlockKind.ofJson? false)
  let language ← r.required "language" Json.string?
  let content ← r.required "content" Json.string?
  some { kind, language, content }

end ViewBlock

namespace PatchOp

/-- The kinds of change. -/
inductive Kind where
  | insert
  | delete
  | replace
  | move
  deriving DecidableEq, Repr

/-- The name of a kind of change in written data. -/
def Kind.name : Kind → String
  | .insert => "insertBlock"
  | .delete => "deleteBlock"
  | .replace => "replaceBlockContent"
  | .move => "moveBlock"

/-- The kinds of change in the order in which they are numbered. -/
def Kind.all : List Kind :=
  [.insert, .delete, .replace, .move]

/-- The kind of a change. -/
def kind : PatchOp → Kind
  | .insert .. => .insert
  | .delete _ => .delete
  | .replace .. => .replace
  | .move .. => .move

/-- A change as data, with its kind in the first field. -/
def toJson (op : PatchOp) : Json :=
  let tag := ("op", Json.string op.kind.name)
  match op with
  | .insert block after =>
    .object [tag, ("block", block.toJson), ("after", .ofOption BlockId.toJson after)]
  | .delete id => .object [tag, ("id", id.toJson)]
  | .replace id content => .object [tag, ("id", id.toJson), ("content", .string content)]
  | .move id after => .object [tag, ("id", id.toJson), ("after", .ofOption BlockId.toJson after)]

/-- The kind of change that data names. Where data was `kept` until its type was known, the
    number in the list of kinds is a name too. -/
def Kind.ofJson? (kept : Bool) : Json → Option Kind
  | .string s => Kind.all.find? (·.name = s)
  | .nat n => if kept then Kind.all[n]? else none
  | _ => none

/-- The change of a kind whose other fields data holds. They were kept until the kind was
    known. -/
def ofFields? (kind : Kind) (v : Json) : Option PatchOp := do
  match kind with
  | .insert =>
    let r ← v.record? ["block", "after"]
    let block ← r.required "block" (Block.ofJson? true)
    let after ← r.optional "after" BlockId.ofJson?
    some (.insert block after)
  | .delete =>
    let r ← v.record? ["id"]
    let id ← r.required "id" BlockId.ofJson?
    some (.delete id)
  | .replace =>
    let r ← v.record? ["id", "content"]
    let id ← r.required "id" BlockId.ofJson?
    let content ← r.required "content" Json.string?
    some (.replace id content)
  | .move =>
    let r ← v.record? ["id", "after"]
    let id ← r.required "id" BlockId.ofJson?
    let after ← r.optional "after" BlockId.ofJson?
    some (.move id after)

/-- The change that data holds: an object with a field for the kind, or an array that the
    kind begins. The kind may come last, so the other fields have to be readable and at
    most `room` levels deep. -/
def ofJson? (kept : Bool) (room : Nat) (v : Json) : Option PatchOp :=
  if v.isPlain room then
    match v with
    | .object fields =>
      match fields.filter (·.1 = "op") with
      | [(_, tag)] => (Kind.ofJson? kept tag).bind fun kind => ofFields? kind v
      | _ => none
    | .array (tag :: items) =>
      (Kind.ofJson? kept tag).bind fun kind => ofFields? kind (.array items)
    | _ => none
  else none

end PatchOp

namespace Patch

/-- A patch as data. -/
def toJson (p : Patch) : Json :=
  .object [("baseRevision", .nat p.base), ("ops", .ofList PatchOp.toJson p.ops)]

/-- The number of levels that data may have below its top. -/
def maxDepth : Nat := 127

/-- The patch that data holds, which may have been `kept` until its type was known. -/
def ofJson? (kept : Bool) (v : Json) : Option Patch := do
  let r ← v.record? ["baseRevision", "ops"]
  let base ← r.required "baseRevision" Json.nat64?
  let ops ← r.required "ops" (Json.list? (PatchOp.ofJson? kept (maxDepth - 2)))
  some { base, ops }

end Patch

end LiterateSync
