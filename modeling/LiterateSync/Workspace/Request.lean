import LiterateSync.Workspace.Task

namespace LiterateSync

/-- What a task can be asked for. -/
inductive Request where
  /-- A peer wants its messages in an outbox, and in no other one. -/
  | subscribe (peer : PeerId) (outbox : OutboxId)
  | unsubscribe (peer : PeerId)
  | message (sender : PeerId) (message : Message)
  | viewEdit (sender : PeerId) (base : Nat) (view : List ViewBlock)
  | localEdit (patch : Patch)
  | fileChanged (text : String)
  | snapshot
  | phase
  | close

/-- What a task answers to a request. -/
inductive Reply where
  | done
  /-- The revision after a local edit. -/
  | revision (n : Nat)
  | snapshot (snapshot : Option Snapshot)
  | phase (phase : Phase)
  /-- The session refuses the request. -/
  | refused (error : SessionError)
  deriving DecidableEq, Repr

namespace Task

/-- The task and the host after a peer has got a new outbox. A peer that is subscribed
    already is sent nothing. -/
def subscribe (t : Task) (h : Host) (peer : PeerId) (outbox : OutboxId) : Task × Host :=
  let (t, h) := t.dropOutbox h peer
  ({ t with outboxes := t.outboxes ++ [(peer, outbox)], session := t.session.subscribe peer }, h)

/-- The task at its end. -/
def close (t : Task) (h : Host) : Task × Host :=
  { t with session := t.session.close }.dropOutboxes h

/-- The task after a command to its session. All that the session then wants is done before
    there is an answer. -/
def command [RegexLibrary] (t : Task) (h : Host) (c : Session.Command) : Task × Host × Reply :=
  let (session, outcome) := t.session.step c
  let (t, h) := { t with session }.flush h
  let reply :=
    match outcome with
    | .ok (.revision n) => .revision n
    | .ok _ => .done
    | .error e => .refused e
  (t, h, reply)

/-- The task after a request at a time, and the answer. -/
def handle [RegexLibrary] (now : Nat) (t : Task) (h : Host) : Request → Task × Host × Reply
  | .subscribe peer outbox =>
    let (t, h) := t.subscribe h peer outbox
    let (t, h) := t.flush h
    (t, h, .done)
  | .unsubscribe peer =>
    let (t, h) := t.dropOutbox h peer
    ({ t with session := t.session.unsubscribe peer }, h, .done)
  | .message sender m => t.command h (.message sender m)
  | .viewEdit sender base view => t.command h (.viewEdit sender base view)
  | .localEdit patch => t.command h (.localEdit now patch)
  | .fileChanged text => t.command h (.fileChanged text)
  | .snapshot => (t, h, .snapshot (t.session.document.map (·.snapshot)))
  | .phase => (t, h, .phase t.session.phase)
  | .close =>
    let (t, h) := t.close h
    (t, h, .done)

/-- The task at a later time. An overdue acknowledgement is given up. -/
def tick (t : Task) (h : Host) (now : Nat) : Task × Host :=
  let (session, expired) := t.session.tick now
  if expired then { t with session }.flush h else (t, h)

end Task

end LiterateSync
