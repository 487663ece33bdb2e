import LiterateSync.Wire.Session
import LiterateSync.Workspace.Request

namespace LiterateSync

/-- A peer that speaks to a session in lines of text, one message in each. Its lines are read
    from an input, and the messages for it are written to an output. -/
structure Relay where
  peer : PeerId
  outbox : OutboxId
  task : Task
  host : Host
  /-- The lines that have not been read. -/
  input : List String
  /-- The messages that have been written, oldest first. -/
  output : List Message := []
  /-- Whether nothing more is waited for, as one of the two sides has ended. -/
  ended : Bool := false
  /-- The error that ended the relay, if one did. -/
  failure : Option SessionError := none
  deriving DecidableEq, Repr

namespace Relay

/-- The lines of a text, without their line endings. -/
def lines (text : String) : List String :=
  (Text.lines text.toList).map fun line =>
    match Text.beforeSuffix? ['\n'] line with
    | none => String.ofList line
    | some body => String.ofList ((Text.beforeSuffix? ['\r'] body).getD body)

/-- Whether a line has nothing in it. -/
def isBlank (line : String) : Bool :=
  line.toList.all Text.isWhite

/-- The message in a line that is meant for a session. -/
def messageFor? (id : SessionId) (line : String) : Option Message :=
  bif isBlank line then none else (Message.parse? line).filter (·.session = id)

/-- The relay after a line was passed on to the session. A line without a message for the
    session has no effect, and an error from which the session recovers is passed over. -/
def forward [RegexLibrary] (r : Relay) (line : String) : Relay :=
  match messageFor? r.task.session.id line with
  | none => r
  | some m =>
    let (task, host, reply) := r.task.handle 0 r.host (.message r.peer m)
    let r := { r with task, host }
    match reply with
    | .refused e => if e.isRecoverable then r else { r with failure := some e }
    | _ => r

/-- The relay after the next line was read, or the end of the input was found. -/
def readLine [RegexLibrary] (r : Relay) : Relay :=
  match r.input with
  | [] => { r with ended := true }
  | line :: rest => { r with input := rest }.forward line

/-- The messages that wait to be written. -/
def waiting (r : Relay) : List Message :=
  (((r.host.outboxes[r.outbox]?).map (·.waiting)).getD [])

/-- The relay after some of the messages that wait were written, the oldest first. -/
def write (r : Relay) (count : Nat) : Relay :=
  let messages := r.waiting.take count
  { r with
    output := r.output ++ messages
    host := r.host.update r.outbox fun b => { b with taken := b.taken + messages.length } }

/-- The relay after the next message was written. There is none to come if none waits and the
    session has let go of the outbox. -/
def writeNext (r : Relay) : Relay :=
  if r.waiting.isEmpty then
    if r.host.isDropped r.outbox then { r with ended := true } else r
  else r.write 1

/-- What a relay can do next. Where it could do either, which comes first is left to chance. -/
inductive Turn where
  | readLine
  | writeNext
  deriving DecidableEq, Repr

/-- The relay after one turn. When it has ended or failed, there are no more. -/
def turn [RegexLibrary] (r : Relay) (t : Turn) : Relay :=
  if r.ended || r.failure.isSome then r
  else
    match t with
    | .readLine => r.readLine
    | .writeNext => r.writeNext

/-- The relay after what waits at its end was written. After an error nothing is. -/
def finish (r : Relay) : Relay :=
  if r.ended then r.write r.waiting.length else r

/-- The relay after several turns. -/
def run [RegexLibrary] (r : Relay) (turns : List Turn) : Relay :=
  (turns.foldl turn r).finish

/-- How many messages can wait for a peer that speaks in lines. -/
def capacity : Nat := 256

/-- The turns in which all that waits is written before the next line is read, up to the end of
    the input. -/
def prompt (r : Relay) : List Turn :=
  (r.input.flatMap fun _ => List.replicate capacity .writeNext ++ [.readLine]) ++ [.readLine]

/-- Messages as they are written, each on a line. -/
def text (messages : List Message) : String :=
  String.join (messages.map fun m => m.render ++ "\n")

end Relay

end LiterateSync
