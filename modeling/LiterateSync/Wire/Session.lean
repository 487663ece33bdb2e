import LiterateSync.Session.Basic
import LiterateSync.Wire.Document
import LiterateSync.Wire.Reader

namespace LiterateSync

namespace ConflictPolicy

/-- The name of a policy in written data. -/
def name : ConflictPolicy → String
  | .laterWins => "laterWins"
  | .earlierWins => "earlierWins"

/-- A policy as data. -/
def toJson (p : ConflictPolicy) : Json :=
  .string p.name

/-- The policy that data holds. -/
def ofJson? (v : Json) : Option ConflictPolicy := do
  match ← v.tag? false with
  | "laterWins" => some .laterWins
  | "earlierWins" => some .earlierWins
  | _ => none

end ConflictPolicy

namespace SyncConfig

/-- A configuration as data. -/
def toJson (c : SyncConfig) : Json :=
  .object
    [("ackTimeoutMs", .nat c.ackTimeoutMs), ("maxRetries", .nat c.maxRetries.toNat),
     ("conflictPolicy", c.conflictPolicy.toJson), ("historyDepth", .nat c.historyDepth)]

/-- The configuration that data holds. What is missing is as usual. -/
def ofJson? (v : Json) : Option SyncConfig := do
  let usual : SyncConfig := {}
  let r ← v.record? ["ackTimeoutMs", "maxRetries", "conflictPolicy", "historyDepth"]
  let ackTimeoutMs ← r.orDefault "ackTimeoutMs" Json.nat64? usual.ackTimeoutMs
  let maxRetries ← r.orDefault "maxRetries" Json.uint32? usual.maxRetries
  let conflictPolicy ← r.orDefault "conflictPolicy" ConflictPolicy.ofJson? usual.conflictPolicy
  let historyDepth ← r.orDefault "historyDepth" Json.nat64? usual.historyDepth
  some { ackTimeoutMs, maxRetries, conflictPolicy, historyDepth }

end SyncConfig

namespace SupersedeReason

/-- The reasons that a notice can give. -/
def all : List SupersedeReason :=
  [.conflict, .revisionMismatch, .unknownBlock, .peerTimeout]

/-- A reason as data. -/
def toJson (r : SupersedeReason) : Json :=
  .string r.name

/-- The reason that data holds, which was kept until its type was known. -/
def ofJson? (v : Json) : Option SupersedeReason :=
  (v.tag? true).bind fun s => all.find? (·.name = s)

end SupersedeReason

namespace Snapshot

/-- A snapshot as data. -/
def toJson (s : Snapshot) : Json :=
  .object
    [("revision", .nat s.revision), ("language", .string s.language), ("text", .string s.text),
     ("blocks", .ofList Block.toJson s.blocks)]

/-- The snapshot that data holds, which may have been `kept` until its type was known. -/
def ofJson? (kept : Bool) (v : Json) : Option Snapshot := do
  let r ← v.record? ["revision", "language", "text", "blocks"]
  let revision ← r.required "revision" Json.nat64?
  let language ← r.required "language" Json.string?
  let text ← r.required "text" Json.string?
  let blocks ← r.required "blocks" (Json.list? (Block.ofJson? kept))
  some { revision, language, text, blocks }

end Snapshot

namespace MessageBody

/-- The content of a message as data. -/
def payload : MessageBody → Json
  | .patch p => p.toJson
  | .ack revision => .object [("revision", .nat revision)]
  | .superseded revision reason =>
    .object [("revision", .nat revision), ("reason", reason.toJson)]
  | .fullDocument snapshot => .ofOption Snapshot.toJson snapshot

/-- The content of a message of a given kind. Only a wish for a document can go without. -/
def ofPayload? (kind : String) (payload : Option Json) : Option MessageBody := do
  match kind with
  | "patch" => (Patch.ofJson? true (← payload)).map .patch
  | "ack" =>
    let r ← (← payload).objectRecord? ["revision"]
    let revision ← r.required "revision" Json.nat64?
    some (.ack revision)
  | "superseded" =>
    let r ← (← payload).objectRecord? ["revision", "reason"]
    let revision ← r.required "revision" Json.nat64?
    let reason ← r.required "reason" SupersedeReason.ofJson?
    some (.superseded revision reason)
  | "fullDocument" => ((payload.getD .null).orNull? (Snapshot.ofJson? true)).map .fullDocument
  | _ => none

end MessageBody

namespace Message

/-- A message as data. -/
def toJson (m : Message) : Json :=
  .object
    [("sessionId", .string m.session.text), ("type", .string m.body.kind),
     ("payload", m.body.payload)]

/-- The message that data holds. The kind of a message may come after its content, so all of
    it has to be readable and not too deep. -/
def ofJson? (v : Json) : Option Message :=
  if v.isPlain Patch.maxDepth then do
    let r ← v.objectRecord? ["sessionId", "type", "payload"]
    let session ← r.required "sessionId" Json.string?
    let kind ← r.required "type" (Json.tag? true)
    let body ← MessageBody.ofPayload? kind (r.get? "payload")
    some ⟨⟨session⟩, body⟩
  else none

/-- The message that a line of text holds. -/
def parse? (line : String) : Option Message :=
  (Json.parse? line).bind ofJson?

/-- A message as a line of text. -/
def render (m : Message) : String :=
  m.toJson.render

end Message

end LiterateSync
