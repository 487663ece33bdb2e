import LiterateSync.Language.Registry
import LiterateSync.Workspace.Loading

namespace LiterateSync

/-- The number of a task, in the order in which tasks were started. -/
abbrev TaskId := Nat

/-- The means to reach a session's task. -/
structure Handle where
  session : SessionId
  task : TaskId
  deriving DecidableEq, Repr

/-- The watch over a file, whose changes are passed on to a task. -/
structure Watch where
  handle : Handle
  path : String
  place : Place
  /-- How many of the changes to files were looked at. -/
  seen : Nat
  deriving DecidableEq, Repr

/-- Why a workspace cannot do what it is asked for. -/
inductive WorkspaceError where
  | session (error : SessionError)
  | segment (error : SegmentError)
  /-- A path that ends in no name cannot be watched. -/
  | notAFile (path : String)
  /-- The directory of a file cannot be watched. -/
  | unwatchable (path : String)
  | file (path : String) (error : FileError)
  | sessionNotFound (id : SessionId)
  /-- The task of the session has ended. -/
  | sessionGone (id : SessionId)
  deriving DecidableEq, Repr

/-- An error in words. -/
def WorkspaceError.message : WorkspaceError → String
  | .session e => s!"Session error: {e.message}"
  | .segment e => s!"Segmentation failed: {e.message}"
  | .notAFile path => s!"Watcher error: Watch error: not a file path: {path}"
  | .unwatchable path => s!"Watcher error: Failed to create watcher: {path}"
  | .file path e => s!"I/O error on {path}: {e.message}"
  | .sessionNotFound id => s!"Session not found: {id.text}"
  | .sessionGone id => s!"Session {id.text} has shut down"

/-- The open sessions over some files, and what they have in common. -/
structure Workspace where
  languages : Registry := .builtin
  config : SyncConfig := {}
  host : Host := {}
  tasks : List Task := []
  /-- The sessions that can be found by their names, at most one under each. -/
  roster : List Handle := []
  watches : List Watch := []
  /-- The time that has passed, in milliseconds. -/
  now : Nat := 0
  deriving DecidableEq, Repr

namespace Workspace

/-- The session under a name. -/
def find? (w : Workspace) (id : SessionId) : Option Handle :=
  w.roster.find? (·.session = id)

/-- The task of a handle. -/
def task? (w : Workspace) (handle : Handle) : Option Task :=
  w.tasks[handle.task]?

/-- Whether the task of a handle still serves requests. -/
def isRunning (w : Workspace) (handle : Handle) : Bool :=
  (w.task? handle).any (·.isRunning)

/-- The names of the open sessions, in ascending order. -/
def ids (w : Workspace) : List SessionId :=
  (w.roster.map (·.session)).mergeSort fun a b => a.text ≤ b.text

/-- What comes of a request that no task serves. An outbox in it is let go. -/
def refuse (h : Host) : Request → Host
  | .subscribe _ outbox => h.drop outbox
  | _ => h

/-- The workspace after a request to a task, and the answer. -/
def request [RegexLibrary] (w : Workspace) (handle : Handle) (r : Request) :
    Workspace × Except WorkspaceError Reply :=
  match (w.task? handle).filter (·.isRunning) with
  | none => ({ w with host := refuse w.host r }, .error (.sessionGone handle.session))
  | some t =>
    let (t, host, reply) := t.handle w.now w.host r
    let w := { w with host, tasks := w.tasks.set handle.task t }
    match reply with
    | .refused e => (w, .error (.session e))
    | reply => (w, .ok reply)

/-- What comes of the start of a task. -/
structure Started where
  workspace : Workspace
  handle : Handle
  /-- Whether the document could be made. -/
  outcome : Except SessionError Unit
  /-- The answers to the requests that came before the document was made. -/
  replies : List (Option Reply)

/-- The workspace with one more task, to which some requests come at once. -/
def start [RegexLibrary] (w : Workspace) (spec : SessionSpec) (early : List Request) : Started :=
  let (t, host, outcome, replies) := Loading.run w.now w.host spec early
  { workspace := { w with host, tasks := w.tasks ++ [t] }
    handle := ⟨spec.id, w.tasks.length⟩
    outcome
    replies }

/-- All tasks at a later time, one after the other. -/
def tickAll (now : Nat) (h : Host) : List Task → List Task × Host
  | [] => ([], h)
  | t :: ts =>
    let (t, h) := t.tick h now
    let (ts, h) := tickAll now h ts
    (t :: ts, h)

/-- The workspace after some time. -/
def wait (w : Workspace) (milliseconds : Nat) : Workspace :=
  let now := w.now + milliseconds
  let (tasks, host) := tickAll now w.host w.tasks
  { w with now, tasks, host }

end Workspace

end LiterateSync
