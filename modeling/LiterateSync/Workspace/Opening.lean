import LiterateSync.Workspace.Basic

namespace LiterateSync

/-- What a session can be opened on. -/
inductive Source where
  | text (id : SessionId) (content : String) (language : String)
  | file (path : String)
  deriving DecidableEq, Repr

namespace Source

/-- The name of the session for a file. -/
def idOfPath (path : String) : SessionId :=
  ⟨documentId path⟩

/-- The name of the session for a source. -/
def id : Source → SessionId
  | .text id _ _ => id
  | .file path => idOfPath path

/-- What the task for a source starts from. -/
def spec (w : Workspace) : Source → Except WorkspaceError SessionSpec
  | .text id content language =>
    match w.languages.get language with
    | .error e => .error (.segment e)
    | .ok profile => .ok { id, text := content, profile, config := w.config }
  | .file path =>
    match w.host.files.read path with
    | .error e => .error (.file path e)
    | .ok content =>
      match w.languages.detect (some path) content with
      | .error e => .error (.segment e)
      | .ok profile =>
        .ok
          { id := idOfPath path, text := content, profile, config := w.config,
            backing := some path }

end Source

/-- How far a call has come that opens or closes a session. Other calls can take their steps
    between any two steps of a call. -/
inductive Call where
  /-- A session is looked for under the name of a source. -/
  | find (source : Source)
  /-- None was found, and one is started. -/
  | start (source : Source)
  /-- A session has been started for the call. -/
  | register (own : Handle)
  /-- The session under a name is to be forgotten. -/
  | remove (id : SessionId)
  /-- A session that nobody can find any more is to be ended. -/
  | stop (handle : Handle) (result : Handle)
  | returned (result : Except WorkspaceError Handle)
  deriving Repr

namespace Call

/-- The next step of a call. A call that finds another session under its name at the end
    takes that one and gives up its own. -/
def step [RegexLibrary] (w : Workspace) : Call → Workspace × Call
  | .find source =>
    match w.find? source.id with
    | some handle => (w, .returned (.ok handle))
    | none => (w, .start source)
  | .start source =>
    match source.spec w with
    | .error e => (w, .returned (.error e))
    | .ok spec =>
      let started := w.start spec []
      match started.outcome with
      | .error e => (started.workspace, .returned (.error (.session e)))
      | .ok () => (started.workspace, .register started.handle)
  | .register own =>
    match w.find? own.session with
    | some existing => (w, .stop own existing)
    | none => ({ w with roster := w.roster ++ [own] }, .returned (.ok own))
  | .remove id =>
    match w.find? id with
    | some handle =>
      ({ w with roster := w.roster.filter (·.session ≠ id) }, .stop handle handle)
    | none => (w, .returned (.error (.sessionNotFound id)))
  | .stop handle result => ((w.request handle .close).1, .returned (.ok result))
  | .returned result => (w, .returned result)

/-- The most steps that a call has yet to take. -/
def stepsLeft : Call → Nat
  | .find _ => 4
  | .start _ => 3
  | .register _ | .remove _ => 2
  | .stop .. => 1
  | .returned _ => 0

theorem stepsLeft_step_lt [RegexLibrary] (w : Workspace) (c : Call) (h : c.stepsLeft ≠ 0) :
    (c.step w).2.stepsLeft < c.stepsLeft := by
  cases c with
  | find source => rw [step]; split <;> simp [stepsLeft]
  | start source =>
    rw [step]
    split
    · simp [stepsLeft]
    · simp only
      split <;> simp [stepsLeft]
  | register own => rw [step]; split <;> simp [stepsLeft]
  | remove id => rw [step]; split <;> simp [stepsLeft]
  | stop handle result => simp [step, stepsLeft]
  | returned result => exact absurd rfl h

/-- The workspace after a call that nothing comes between, and the result. -/
def run [RegexLibrary] (w : Workspace) (c : Call) : Workspace × Except WorkspaceError Handle :=
  match _hc : c with
  | .returned result => (w, result)
  | .find _ | .start _ | .register _ | .remove _ | .stop .. =>
    let next := c.step w
    run next.1 next.2
termination_by c.stepsLeft
decreasing_by
  all_goals
    subst _hc
    exact stepsLeft_step_lt w _ (by simp [stepsLeft])

end Call

namespace Workspace

/-- A session in memory, or the one that is already open under its name. -/
def openText [RegexLibrary] (w : Workspace) (id : SessionId) (text language : String) :
    Workspace × Except WorkspaceError Handle :=
  (Call.find (.text id text language)).run w

/-- A session for a file, or the one that is already open under its name. -/
def openFile [RegexLibrary] (w : Workspace) (path : String) :
    Workspace × Except WorkspaceError Handle :=
  (Call.find (.file path)).run w

/-- The session under a name is forgotten and ended. -/
def close [RegexLibrary] (w : Workspace) (id : SessionId) :
    Workspace × Except WorkspaceError Handle :=
  (Call.remove id).run w

/-- All sessions that can be found are forgotten and ended. -/
def closeAll [RegexLibrary] (w : Workspace) : Workspace :=
  w.roster.foldl (fun w handle => (w.request handle .close).1) { w with roster := [] }

end Workspace

end LiterateSync
