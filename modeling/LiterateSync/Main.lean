import LiterateSync.Command.Check
import LiterateSync.Command.Line
import LiterateSync.Command.Listing
import LiterateSync.Text.Pattern.Library
import LiterateSync.Workspace.Opening
import LiterateSync.Workspace.Relay
import LiterateSync.Workspace.Watch

namespace LiterateSync.Main

/-- The place to which a path leads when no directory on the way is missing. -/
def placeOf (fs : Files) (path : String) : Place :=
  (FileName.components path).foldl
    (fun place name => if name = ".." then place.dropLast else place ++ [name]) (fs.start path)

/-- What a path leads to on the disk, if anything. -/
def readNode (path : String) : IO (Option FileNode) := do
  try
    let bytes ← IO.FS.readBinFile path
    match String.fromUTF8? bytes with
    | some content => return some (.text content)
    | none => return some (.bytes bytes.toList)
  catch e =>
    match e with
    | .noFileOrDirectory .. => return none
    | _ => return some .directory

/-- The files with what a path leads to on the disk. -/
def readInto (fs : Files) (path : String) : IO Files := do
  match ← readNode path with
  | some node => return (fs.withDirectories (placeOf fs path)).put (placeOf fs path) node
  | none => return fs

/-- The settings file and the file to which a path leads, as they are on the disk. -/
def readFiles (path : String) : IO Files := do
  let current ← IO.currentDir
  let fs ← readInto { home := FileName.components current.toString } Settings.path
  readInto fs path

/-- The end of the program with an error. -/
def fail (message : String) : IO UInt32 := do
  (← IO.getStderr).putStr s!"\nError: {message}\n\n"
  return 1

/-- The end of the program with the outcome of a command. -/
def finish (outcome : Outcome) : IO UInt32 := do
  IO.print outcome.output
  (← IO.getStderr).putStr outcome.errors
  match outcome.result with
  | .ok () => return 0
  | .error e => fail e.message

/-- A file that a session has written is written on the disk, through a file beside it. -/
def writeBack (path : String) (before after : Files) : IO Unit := do
  if after.changedSince before.journal.length (placeOf after path) then
    match after.read path with
    | .ok content =>
      let spare := FileName.spare path
      IO.FS.writeFile spare content
      IO.FS.rename spare path
    | .error _ => return

/-- The messages that wait are written, one on each line. -/
def writeMessages (r : Relay) : IO Relay := do
  let output ← IO.getStdout
  output.putStr (Relay.text r.waiting)
  output.flush
  return { r.write r.waiting.length with output := [] }

/-- The session is told what its file holds on the disk, if that is not what it has written
    or read there last. -/
def noticeChange (path : String) (r : Relay) : IO Relay := do
  match ← readNode path, r.host.files.read path with
  | some (.text content), .ok known =>
    if content = known then return r
    else
      let files := r.host.files.put (placeOf r.host.files path) (.text content)
      let (task, host, _) := r.task.handle 0 { r.host with files } (.fileChanged content)
      return { r with task, host }
  | _, _ => return r

/-- The lines of the standard input are passed on to a session until they end. -/
partial def relayLines (path : String) (watched : Bool) (r : Relay) : IO UInt32 := do
  let r ← writeMessages r
  let line ← (← IO.getStdin).getLine
  if line.isEmpty then return 0
  let r ← if watched then noticeChange path r else pure r
  let next := { r with input := Relay.lines line }.readLine
  writeBack path r.host.files next.host.files
  match next.failure with
  | some e => fail (WorkspaceError.session e).message
  | none => relayLines path watched next

/-- The command that opens a session for a file and speaks with a peer in lines. -/
def serve (path peer : String) (watched : Bool) : IO UInt32 := do
  let files ← readFiles path
  match Settings.load files with
  | .error e => fail e.message
  | .ok settings =>
    match settings.registry with
    | .error e => fail e.message
    | .ok languages =>
      let w : Workspace := { languages, config := settings.sync, host := { files } }
      match w.openFile path with
      | (_, .error e) => fail e.message
      | (w, .ok handle) =>
        let (outbox, host) := w.host.openOutbox Relay.capacity
        let peer : PeerId := ⟨peer⟩
        let (w, _) := { w with host }.request handle (.subscribe peer outbox)
        match w.task? handle with
        | none => fail (WorkspaceError.sessionGone handle.session).message
        | some task =>
          relayLines path watched { peer, outbox, task, host := w.host, input := [] }

end LiterateSync.Main

/-- The program. -/
def main (arguments : List String) : IO UInt32 := do
  match LiterateSync.CommandLine.ofArguments? arguments with
  | some (.segment path asData) =>
    LiterateSync.Main.finish
      (LiterateSync.listSegments (← LiterateSync.Main.readFiles path) path asData)
  | some (.check path) =>
    LiterateSync.Main.finish (LiterateSync.checkFile (← LiterateSync.Main.readFiles path) path)
  | some (.serve path peer watched) => LiterateSync.Main.serve path peer watched
  | none =>
    (← IO.getStderr).putStr LiterateSync.CommandLine.usage
    return 2
