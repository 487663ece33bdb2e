import LiterateSync.Document.Patch

namespace LiterateSync

/-- The name of a session. -/
structure SessionId where
  text : String
  deriving DecidableEq, Repr

/-- The name of a peer of a session. -/
structure PeerId where
  text : String
  deriving DecidableEq, Repr

/-- The peer that keeps the backing file. -/
def PeerId.fileSystem : PeerId := ⟨"fs"⟩

/-- The peer that edits through the session's own interface. -/
def PeerId.local : PeerId := ⟨"local"⟩

/-- Why a peer's patch, or its copy of the document, no longer counts. -/
inductive SupersedeReason where
  | conflict
  | revisionMismatch
  | unknownBlock
  | peerTimeout
  deriving DecidableEq, Repr

/-- The name of a reason in written data. -/
def SupersedeReason.name : SupersedeReason → String
  | .conflict => "conflict"
  | .revisionMismatch => "revisionMismatch"
  | .unknownBlock => "unknownBlock"
  | .peerTimeout => "peerTimeout"

/-- The reason that a peer is given for an error in its patch. -/
def PatchError.reason : PatchError → SupersedeReason
  | .revisionMismatch .. => .revisionMismatch
  | .unknownBlock _ | .duplicateBlock _ => .unknownBlock

/-- A whole document at one revision, as a peer is sent it. -/
structure Snapshot where
  revision : Nat
  language : String
  text : String
  blocks : List Block
  deriving DecidableEq, Repr

/-- The snapshot of a document. -/
def Document.snapshot (d : Document) : Snapshot :=
  ⟨d.revision, d.profile.id, d.text, d.blocks⟩

/-- What a session and a peer tell each other. -/
inductive MessageBody where
  /-- Changes to the revision that both have. -/
  | patch (patch : Patch)
  /-- The sender has a revision. -/
  | ack (revision : Nat)
  /-- Something of the receiver's no longer counts. -/
  | superseded (revision : Nat) (reason : SupersedeReason)
  /-- A whole document, or the wish for one. -/
  | fullDocument (snapshot : Option Snapshot)
  deriving DecidableEq, Repr

/-- The name of a kind of message. -/
def MessageBody.kind : MessageBody → String
  | .patch _ => "patch"
  | .ack _ => "ack"
  | .superseded .. => "superseded"
  | .fullDocument _ => "fullDocument"

/-- A message that belongs to a session. -/
structure Message where
  session : SessionId
  body : MessageBody
  deriving DecidableEq, Repr

end LiterateSync
