import LiterateSync.Workspace.Basic

namespace LiterateSync

namespace Watch

/-- Whether the watched file was written or removed since the last look at it. -/
def isDue (v : Watch) (fs : Files) : Bool :=
  fs.changedSince v.seen v.place

end Watch

namespace Workspace

/-- The workspace with a watch over the file to which a path leads. What is watched is the
    directory of the file, which has to be there; the file does not. -/
def watch (w : Workspace) (handle : Handle) (path : String) :
    Except WorkspaceError Workspace :=
  match FileName.base? path with
  | none => .error (.notAFile path)
  | some name =>
    let fs := w.host.files
    match fs.locateDirectory path with
    | .error _ => .error (.unwatchable path)
    | .ok directory =>
      if (fs.node? directory).isNone then .error (.unwatchable path)
      else
        let place := directory ++ [name]
        let watch : Watch := { handle, path, place, seen := fs.journal.length }
        .ok { w with watches := w.watches ++ [watch] }

/-- The workspace without watches. -/
def unwatch (w : Workspace) : Workspace :=
  { w with watches := [] }

/-- A watched file that has changed is read again, and its task is told what it holds. A file
    that cannot be read is passed over. -/
def look [RegexLibrary] (w : Workspace) (v : Watch) : Workspace × Watch :=
  if v.isDue w.host.files then
    let seen := w.host.files.journal.length
    match w.host.files.read v.path with
    | .ok text => ((w.request v.handle (.fileChanged text)).1, { v with seen })
    | .error _ => (w, { v with seen })
  else (w, v)

/-- The workspace after a look at all watched files, one after the other. -/
def lookAll [RegexLibrary] (w : Workspace) : List Watch → Workspace × List Watch
  | [] => (w, [])
  | v :: vs =>
    let (w, v) := w.look v
    let (w, vs) := w.lookAll vs
    (w, v :: vs)

/-- The workspace after the changes to watched files have been noticed. -/
def noticeChanges [RegexLibrary] (w : Workspace) : Workspace :=
  let (next, watches) := w.lookAll w.watches
  { next with watches }

end Workspace

end LiterateSync
