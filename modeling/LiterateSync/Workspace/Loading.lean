import LiterateSync.Workspace.Request

namespace LiterateSync

/-- What a task starts from. -/
structure SessionSpec where
  id : SessionId
  text : String
  profile : Profile
  config : SyncConfig
  /-- The path of the backing file, if there is one. -/
  backing : Option String := none
  deriving DecidableEq, Repr

/-- A task whose document is being made. -/
structure Loading where
  task : Task
  /-- The requests that wait for the document, in the order of their arrival. -/
  deferred : List Request := []

namespace Loading

/-- The task for a session, before its document is made. -/
def ofSpec (spec : SessionSpec) : Loading where
  task :=
    { session := { Session.new spec.id spec.config with phase := .loading },
      backing := spec.backing }

theorem beginOpen_new (spec : SessionSpec) :
    (Session.new spec.id spec.config).beginOpen = .ok (ofSpec spec).task.session := rfl

/-- The task after a request that arrives while the document is being made. A peer is
    subscribed at once, and an end comes at once; all else waits. -/
def receive (l : Loading) (h : Host) (request : Request) : Loading × Host :=
  if l.task.isRunning then
    match request with
    | .subscribe peer outbox =>
      let (task, h) := l.task.subscribe h peer outbox
      ({ l with task }, h)
    | .close =>
      let (task, h) := l.task.close h
      ({ l with task }, h)
    | request => ({ l with deferred := l.deferred ++ [request] }, h)
  else (l, h)

/-- The task after several requests in order. -/
def receiveAll (l : Loading) (h : Host) (requests : List Request) : Loading × Host :=
  requests.foldl (fun (l, h) request => l.receive h request) (l, h)

end Loading

namespace Task

/-- The task after several requests in order, and the answers. None is given to a request
    that arrives after the end of the task. -/
def handleAll [RegexLibrary] (now : Nat) (t : Task) (h : Host) :
    List Request → Task × Host × List (Option Reply)
  | [] => (t, h, [])
  | request :: requests =>
    if t.isRunning then
      let (t, h, reply) := t.handle now h request
      let (t, h, replies) := t.handleAll now h requests
      (t, h, some reply :: replies)
    else
      let (t, h, replies) := t.handleAll now h requests
      (t, h, none :: replies)

end Task

namespace Loading

/-- The task once its document is made, whether it could be made, and the answers to the
    requests that waited. -/
def finish [RegexLibrary] (now : Nat) (l : Loading) (h : Host)
    (result : Except SegmentError Document) :
    Task × Host × Except SessionError Unit × List (Option Reply) :=
  let (session, outcome) := l.task.session.finishOpen result
  let t := { l.task with session }
  match outcome with
  | .error e =>
    let (t, h) := t.dropOutboxes h
    (t, h, .error e, l.deferred.map fun _ => none)
  | .ok () =>
    let (t, h) := t.flush h
    let (t, h, replies) := t.handleAll now h l.deferred
    (t, h, .ok (), replies)

/-- The task for a session, to which some requests come before its document is made. -/
def run [RegexLibrary] (now : Nat) (h : Host) (spec : SessionSpec) (early : List Request) :
    Task × Host × Except SessionError Unit × List (Option Reply) :=
  let (l, h) := (ofSpec spec).receiveAll h early
  l.finish now h (Document.ofText spec.profile spec.text)

end Loading

end LiterateSync
