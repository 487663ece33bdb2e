import LiterateSync.Document.View
import LiterateSync.Session.Reconcile

namespace LiterateSync.Session

/-- The session while its document is being made. -/
def beginOpen (s : Session) : Except SessionError Session :=
  match s.phase with
  | .idle => .ok { s with phase := .loading }
  | .closed => .error .closed
  | phase => .error (.invalidPhase phase)

/-- The session after its document has been made. The peers are sent the document. A failure
    leaves the session as it was before. -/
def finishOpen (s : Session) (result : Except SegmentError Document) :
    Session × Except SessionError Unit :=
  match s.phase with
  | .loading =>
    match result with
    | .ok d =>
      let s := { s with document := some d, phase := .synced }
      (s.sendAll s.subscribers (.fullDocument (some d.snapshot)), .ok ())
    | .error e => ({ s with phase := .idle }, .error (.segment e))
  | .closed => (s, .error .closed)
  | phase => (s, .error (.invalidPhase phase))

/-- The session after the attempt to make a text its document. -/
def openText [RegexLibrary] (s : Session) (p : Profile) (text : String) :
    Session × Except SessionError Unit :=
  match s.beginOpen with
  | .error e => (s, .error e)
  | .ok s => s.finishOpen (Document.ofText p text)

/-- The session at its end. It keeps its peers and what is still to be done. -/
def close (s : Session) : Session :=
  { s with
    phase := .closed, document := none, queue := [], history := [], pending := none,
    rejections := [], recentWrites := [] }

/-- Peers in ascending order with one more. -/
def insertPeer (peer : PeerId) : List PeerId → List PeerId
  | [] => [peer]
  | p :: peers => if peer.text < p.text then peer :: p :: peers else p :: insertPeer peer peers

/-- The session with one more peer, which is sent the document. -/
def subscribe (s : Session) (peer : PeerId) : Session :=
  if s.subscribers.contains peer then s
  else { s with subscribers := insertPeer peer s.subscribers }.sendDocument peer

/-- The session without a peer. -/
def unsubscribe (s : Session) (peer : PeerId) : Session :=
  { s with
    subscribers := s.subscribers.filter (· ≠ peer), rejections := s.rejections.clear peer }

/-- The session with the document sent to a peer. -/
def resync (s : Session) (peer : PeerId) : Except SessionError Session :=
  s.openDocument.map fun _ => s.sendDocument peer

/-- The session with a patch at the end of its queue, and with what can be settled settled. -/
def enqueue (s : Session) (sub : Submission) : Except SessionError Session := do
  let d ← s.openDocument
  let stale := s.pending.isSome && sub.patch.base < d.revision
  let s := if stale then { s with phase := .conflict } else s
  .ok { s with queue := s.queue ++ [sub] }.drain

/-- The session with a patch from a peer. -/
def submit (s : Session) (origin : PeerId) (patch : Patch) : Except SessionError Session :=
  s.enqueue ⟨origin, patch, false⟩

/-- The session with a patch applied at once, which then waits for the file to be written,
    and the revision after the patch. -/
def localEdit (s : Session) (now : Nat) (patch : Patch) : Except SessionError (Session × Nat) := do
  let current ← s.openDocument
  if s.phase ≠ .synced then .error (.invalidPhase s.phase)
  else
    match current.apply patch with
    | .error e => .error (.patch e)
    | .ok next =>
      let pending : Pending := ⟨next.revision, .local, .fileSystem, now⟩
      let s := { s.commit .local patch next with pending := some pending, phase := .pendingAck }
      .ok (s, next.revision)

/-- The session after a peer has confirmed that it has a revision. -/
def ack (s : Session) (peer : PeerId) (revision : Nat) : Except SessionError Session :=
  if s.phase = .closed then .error .closed
  else
    match s.pending with
    | some p =>
      if p.awaiting = peer ∧ p.revision ≤ revision then .ok { s with pending := none }.drain
      else .ok s
    | none => .ok s

/-- The session at a later time, and whether an acknowledgement was then overdue. An overdue
    one is given up. -/
def tick (s : Session) (now : Nat) : Session × Bool :=
  match s.pending with
  | some p =>
    if s.config.ackTimeoutMs ≤ now - p.sentAt then
      let revision := s.revision?.getD p.revision
      let s := { s with pending := none }.send p.origin (.superseded revision .peerTimeout)
      (s.drain, true)
    else (s, false)
  | none => (s, false)

/-- The session after its file was found to hold a text. A text that the session itself has
    written not long ago is not taken for a change. -/
def fileChanged [RegexLibrary] (s : Session) (text : String) : Except SessionError Session := do
  let current ← s.openDocument
  if s.recentWrites.contains text && current.text ≠ text then .ok s
  else
    match Document.openWith current.profile (.seeded "fs") text with
    | .error e => .error (.segment e)
    | .ok candidate =>
      let patch := current.diff candidate
      if patch.ops.isEmpty then .ok s else s.submit .fileSystem patch

/-- The document as it was at a revision, if it is still known. -/
def documentAt? (s : Session) (revision : Nat) : Option Document :=
  match s.document with
  | none => none
  | some current =>
    if current.revision = revision then some current
    else (s.history.map (·.before)).find? (·.revision = revision)

/-- Whether a document has other kinds of blocks in a row than a view. -/
def isReshaped (d : Document) (view : List ViewBlock) : Bool :=
  d.blocks.map (·.kind) ≠ view.map (·.kind)

/-- The session after a peer has edited its view of a revision. The peer is sent the document
    if the blocks of the edited text are not those of its view. -/
def viewEdit [RegexLibrary] (s : Session) (origin : PeerId) (base : Nat) (view : List ViewBlock) :
    Except SessionError Session := do
  let _ ← s.openDocument
  match s.documentAt? base with
  | none => .ok (s.reject origin .revisionMismatch)
  | some shown =>
    match shown.ofView view with
    | .error e => .error (.segment e)
    | .ok candidate =>
      let reshaped := isReshaped candidate view
      let patch := shown.diff candidate
      if patch.ops.isEmpty then .ok (if reshaped then s.sendDocument origin else s)
      else s.enqueue ⟨origin, patch, reshaped⟩

/-- The session with a message from a peer. Messages for other sessions, and notices that
    something no longer counts, have no effect. -/
def handle (s : Session) (sender : PeerId) (m : Message) : Except SessionError Session :=
  if m.session ≠ s.id then .ok s
  else
    match m.body with
    | .patch patch => s.submit sender patch
    | .ack revision => s.ack sender revision
    | .fullDocument _ => s.resync sender
    | .superseded .. => .ok s

/-- What a session can be asked to do. -/
inductive Command where
  | beginOpen
  | finishOpen (result : Except SegmentError Document)
  | openText (profile : Profile) (text : String)
  | close
  | subscribe (peer : PeerId)
  | unsubscribe (peer : PeerId)
  | resync (peer : PeerId)
  | message (sender : PeerId) (message : Message)
  | submit (origin : PeerId) (patch : Patch)
  | localEdit (now : Nat) (patch : Patch)
  | ack (peer : PeerId) (revision : Nat)
  | tick (now : Nat)
  | fileChanged (text : String)
  | viewEdit (origin : PeerId) (base : Nat) (view : List ViewBlock)

/-- What a session answers to a command that it carries out. -/
inductive Answer where
  | done
  /-- The revision after a local edit. -/
  | revision (n : Nat)
  /-- Whether an acknowledgement was overdue. -/
  | expired (b : Bool)
  deriving DecidableEq, Repr

/-- The outcome of an operation that leaves the session as it was when it fails. -/
def settle (s : Session) (result : Except SessionError Session) :
    Session × Except SessionError Answer :=
  match result with
  | .ok next => (next, .ok .done)
  | .error e => (s, .error e)

/-- The session after a command, and its answer. -/
def step [RegexLibrary] (s : Session) : Command → Session × Except SessionError Answer
  | .beginOpen => s.settle s.beginOpen
  | .finishOpen result =>
    let (next, outcome) := s.finishOpen result
    (next, outcome.map fun _ => .done)
  | .openText p text =>
    let (next, outcome) := s.openText p text
    (next, outcome.map fun _ => .done)
  | .close => (s.close, .ok .done)
  | .subscribe peer => (s.subscribe peer, .ok .done)
  | .unsubscribe peer => (s.unsubscribe peer, .ok .done)
  | .resync peer => s.settle (s.resync peer)
  | .message sender m => s.settle (s.handle sender m)
  | .submit origin patch => s.settle (s.submit origin patch)
  | .localEdit now patch =>
    match s.localEdit now patch with
    | .ok (next, revision) => (next, .ok (.revision revision))
    | .error e => (s, .error e)
  | .ack peer revision => s.settle (s.ack peer revision)
  | .tick now =>
    let (next, expired) := s.tick now
    (next, .ok (.expired expired))
  | .fileChanged text => s.settle (s.fileChanged text)
  | .viewEdit origin base view => s.settle (s.viewEdit origin base view)

/-- The session after some commands in order. -/
def run [RegexLibrary] (s : Session) (commands : List Command) : Session :=
  commands.foldl (fun s c => (s.step c).1) s

end LiterateSync.Session
