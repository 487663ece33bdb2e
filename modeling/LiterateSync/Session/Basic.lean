import LiterateSync.Session.Config
import LiterateSync.Session.Message

namespace LiterateSync

/-- The stages of a session's life. -/
inductive Phase where
  /-- There is no document yet. -/
  | idle
  /-- A document is being made. -/
  | loading
  /-- Nothing is outstanding. -/
  | synced
  /-- A local edit has not been acknowledged. -/
  | pendingAck
  /-- In addition, a patch from before the edit is waiting. -/
  | conflict
  /-- The session is over. -/
  | closed
  deriving DecidableEq, Repr

/-- The name of a phase in written data. -/
def Phase.name : Phase → String
  | .idle => "idle"
  | .loading => "loading"
  | .synced => "synced"
  | .pendingAck => "pendingAck"
  | .conflict => "conflict"
  | .closed => "closed"

/-- The name of a phase in an error. -/
def Phase.label : Phase → String
  | .idle => "Idle"
  | .loading => "Loading"
  | .synced => "Synced"
  | .pendingAck => "PendingAck"
  | .conflict => "Conflict"
  | .closed => "Closed"

/-- What a session wants done. -/
inductive Event where
  | send (peer : PeerId) (message : Message)
  /-- The text of a revision is to be written to the backing file. -/
  | writeFile (revision : Nat) (text : String)
  deriving DecidableEq, Repr

/-- A local edit that has not been acknowledged. -/
structure Pending where
  revision : Nat
  origin : PeerId
  /-- The peer whose acknowledgement is awaited. -/
  awaiting : PeerId
  /-- When the edit was made, in milliseconds. -/
  sentAt : Nat
  deriving DecidableEq, Repr

/-- A patch that waits to be processed. -/
structure Submission where
  origin : PeerId
  patch : Patch
  /-- Whether the origin's blocks will differ from those that the patch leads to. -/
  resync : Bool
  deriving DecidableEq, Repr

/-- A patch that was applied, with the document that it was applied to. -/
structure Applied where
  origin : PeerId
  before : Document
  patch : Patch
  deriving DecidableEq, Repr

/-- How many patches of each peer have been refused in a row, as numbers of 32 bits. Peers that
    are not listed have had none refused. -/
abbrev Rejections := List (PeerId × UInt32)

namespace Rejections

/-- The number for a peer. -/
def count (r : Rejections) (peer : PeerId) : UInt32 :=
  ((r.find? (·.1 = peer)).map (·.2)).getD 0

/-- The numbers with that of a peer back at zero. -/
def clear (r : Rejections) (peer : PeerId) : Rejections :=
  r.filter (·.1 ≠ peer)

/-- The numbers with another one for a peer. -/
def set (r : Rejections) (peer : PeerId) (n : UInt32) : Rejections :=
  (peer, n) :: r.clear peer

end Rejections

/-- The state of a session, which owns the document of one file and decides about all
    changes to it. -/
structure Session where
  id : SessionId
  config : SyncConfig
  phase : Phase := .idle
  document : Option Document := none
  /-- The peers that are sent messages, in ascending order. -/
  subscribers : List PeerId := []
  /-- The patches that wait for an acknowledgement, in the order of their arrival. -/
  queue : List Submission := []
  /-- The patches that were applied last, oldest first. -/
  history : List Applied := []
  pending : Option Pending := none
  rejections : Rejections := []
  /-- The texts that were last handed out to be written, oldest first. -/
  recentWrites : List String := []
  /-- What is to be done, in order. -/
  events : List Event := []
  deriving DecidableEq, Repr

/-- Why a session refuses what it is asked for. -/
inductive SessionError where
  | segment (error : SegmentError)
  | patch (error : PatchError)
  | notOpen
  | closed
  | invalidPhase (phase : Phase)
  deriving DecidableEq, Repr

namespace SessionError

/-- An error in words. -/
def message : SessionError → String
  | .segment e => "Segmentation failed: " ++ e.message
  | .patch e => "Reconcile error: " ++ e.message
  | .notOpen => "No document is open"
  | .closed => "Session is closed"
  | .invalidPhase phase => "Operation not allowed while " ++ phase.label

/-- Whether the session can go on being used in the same way. -/
def isRecoverable : SessionError → Bool
  | .patch _ | .invalidPhase _ => true
  | _ => false

end SessionError

namespace Session

/-- A session before its document is opened. -/
def new (id : SessionId) (config : SyncConfig) : Session :=
  { id, config }

/-- The revision of the document, if there is one. -/
def revision? (s : Session) : Option Nat :=
  s.document.map (·.revision)

/-- The document, or the reason why there is none to work on. -/
def openDocument (s : Session) : Except SessionError Document :=
  match s.phase, s.document with
  | .closed, _ => .error .closed
  | .idle, _ | .loading, _ | _, none => .error .notOpen
  | _, some d => .ok d

/-- The session with one more thing to do. -/
def emit (s : Session) (e : Event) : Session :=
  { s with events := s.events ++ [e] }

/-- A message is put out for a peer that subscribes, and dropped for any other. -/
def send (s : Session) (peer : PeerId) (body : MessageBody) : Session :=
  if s.subscribers.contains peer then s.emit (.send peer ⟨s.id, body⟩) else s

/-- The document is put out for a peer, if there is one. -/
def sendDocument (s : Session) (peer : PeerId) : Session :=
  match s.document with
  | some d => s.send peer (.fullDocument (some d.snapshot))
  | none => s

/-- A message is put out for several peers in turn. -/
def sendAll (s : Session) (peers : List PeerId) (body : MessageBody) : Session :=
  peers.foldl (fun s peer => s.send peer body) s

/-- The session without the things to do, and these. -/
def takeEvents (s : Session) : List Event × Session :=
  (s.events, { s with events := [] })

end Session

end LiterateSync
