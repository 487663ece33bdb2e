import LiterateSync.DocComment
import LiterateSync.Segment.Basic
import LiterateSync.Wire.Record

namespace LiterateSync

namespace BlockComment

/-- A block comment as data. -/
def toJson (b : BlockComment) : Json :=
  .object [("opening", .string b.opening), ("closing", .string b.closing)]

/-- The block comment that data holds. -/
def ofJson? (v : Json) : Option BlockComment := do
  let r ← v.record? ["opening", "closing"]
  let opening ← r.required "opening" Json.string?
  let closing ← r.required "closing" Json.string?
  some { opening, closing }

end BlockComment

namespace StringSyntax

/-- A kind of string literal as data. What is missing is left out. -/
def toJson (s : StringSyntax) : Json :=
  .object
    ([("delimiter", .string s.delimiter)] ++
      s.closing.toList.map (fun c => ("closing", .string c)) ++
      s.escape.toList.map (fun c => ("escape", .string (String.singleton c))) ++
      [("multiline", .bool s.multiline), ("template", .bool s.template)])

/-- The kind of string literal that data holds. -/
def ofJson? (v : Json) : Option StringSyntax := do
  let r ← v.record? ["delimiter", "closing", "escape", "multiline", "template"]
  let delimiter ← r.required "delimiter" Json.string?
  let closing ← r.orDefault "closing" (Json.orNull? Json.string?) none
  let escape ← r.orDefault "escape" (Json.orNull? Json.char?) none
  let multiline ← r.orDefault "multiline" Json.bool? false
  let template ← r.orDefault "template" Json.bool? false
  some { delimiter, closing, escape, multiline, template }

end StringSyntax

namespace Heredoc

/-- A heredoc as data. -/
def toJson (h : Heredoc) : Json :=
  .object
    [("startPrefix", .string h.startPrefix), ("identPattern", .string h.identPattern),
     ("startSuffix", .string h.startSuffix), ("stopPrefix", .string h.stopPrefix),
     ("stopSuffix", .string h.stopSuffix)]

/-- The heredoc that data holds. -/
def ofJson? (v : Json) : Option Heredoc := do
  let r ← v.record? ["startPrefix", "identPattern", "startSuffix", "stopPrefix", "stopSuffix"]
  let startPrefix ← r.required "startPrefix" Json.string?
  let identPattern ← r.required "identPattern" Json.string?
  let startSuffix ← r.required "startSuffix" Json.string?
  let stopPrefix ← r.required "stopPrefix" Json.string?
  let stopSuffix ← r.orDefault "stopSuffix" Json.string? ""
  some { startPrefix, identPattern, startSuffix, stopPrefix, stopSuffix }

end Heredoc

namespace Profile

/-- A profile as data. Heredocs are left out if there are none, and so is the
    continuation mark. -/
def toJson (p : Profile) : Json :=
  .object
    ([("id", .string p.id), ("extensions", .ofList .string p.extensions),
      ("lineComments", .ofList .string p.lineComments),
      ("blockComments", .ofList BlockComment.toJson p.blockComments),
      ("strings", .ofList StringSyntax.toJson p.strings)] ++
      (if p.heredocs.isEmpty then [] else [("heredocs", .ofList Heredoc.toJson p.heredocs)]) ++
      p.lineContinuation.toList.map (fun m => ("lineContinuation", .string m)))

/-- The profile that data holds. Only the name has to be there. -/
def ofJson? (v : Json) : Option Profile := do
  let r ← v.record?
    ["id", "extensions", "lineComments", "blockComments", "strings", "heredocs",
     "lineContinuation"]
  let id ← r.required "id" Json.string?
  let extensions ← r.orDefault "extensions" (Json.list? Json.string?) []
  let lineComments ← r.orDefault "lineComments" (Json.list? Json.string?) []
  let blockComments ← r.orDefault "blockComments" (Json.list? BlockComment.ofJson?) []
  let strings ← r.orDefault "strings" (Json.list? StringSyntax.ofJson?) []
  let heredocs ← r.orDefault "heredocs" (Json.list? Heredoc.ofJson?) []
  let lineContinuation ← r.orDefault "lineContinuation" (Json.orNull? Json.string?) none
  some { id, extensions, lineComments, blockComments, strings, heredocs, lineContinuation }

end Profile

namespace BlockKind

/-- A kind as data. -/
def toJson (k : BlockKind) : Json :=
  .string k.name

/-- The kind that data holds, which may have been `kept` until its type was known. -/
def ofJson? (kept : Bool) (v : Json) : Option BlockKind := do
  match ← v.tag? kept with
  | "code" => some .code
  | "doc" => some .doc
  | _ => none

end BlockKind

namespace ByteRange

/-- A range as data. -/
def toJson (r : ByteRange) : Json :=
  .object [("start", .nat r.start), ("end", .nat r.stop)]

/-- The range that data holds. Names other than those of its two ends are refused. -/
def ofJson? (v : Json) : Option ByteRange := do
  match v with
  | .object fields => if fields.any (fun f => f.1 ≠ "start" && f.1 ≠ "end") then none
  | _ => some ()
  let r ← v.record? ["start", "end"]
  let start ← r.required "start" Json.nat64?
  let stop ← r.required "end" Json.nat64?
  some { start, stop }

end ByteRange

namespace Segment

/-- A segment as data. -/
def toJson (s : Segment) : Json :=
  .object [("kind", s.kind.toJson), ("text", .string s.text), ("range", s.range.toJson)]

/-- The segment that data holds. -/
def ofJson? (v : Json) : Option Segment := do
  let r ← v.record? ["kind", "text", "range"]
  let kind ← r.required "kind" (BlockKind.ofJson? false)
  let text ← r.required "text" Json.string?
  let range ← r.required "range" ByteRange.ofJson?
  some { kind, text, range }

end Segment

namespace DocComment

/-- A comment as data. -/
def toJson (c : DocComment) : Json :=
  .object
    [("indent", .string c.indent), ("delimiter", .string c.delimiter),
     ("contents", .string c.contents)]

/-- The comment that data holds. -/
def ofJson? (v : Json) : Option DocComment := do
  let r ← v.record? ["indent", "delimiter", "contents"]
  let indent ← r.required "indent" Json.string?
  let delimiter ← r.required "delimiter" Json.string?
  let contents ← r.required "contents" Json.string?
  some { indent, delimiter, contents }

end DocComment

end LiterateSync
