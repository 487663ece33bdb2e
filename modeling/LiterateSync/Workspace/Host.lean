import LiterateSync.Files.Basic
import LiterateSync.Workspace.Outbox

namespace LiterateSync

/-- What sessions act on: the files, and the outboxes of the peers. -/
structure Host where
  files : Files := {}
  outboxes : List Outbox := []
  deriving DecidableEq, Repr

namespace Host

/-- The host with one more outbox, and its number. -/
def openOutbox (h : Host) (capacity : Nat) : OutboxId × Host :=
  (h.outboxes.length, { h with outboxes := h.outboxes ++ [{ capacity }] })

/-- The host with one outbox changed. -/
def update (h : Host) (id : OutboxId) (change : Outbox → Outbox) : Host :=
  { h with outboxes := h.outboxes.modify id change }

/-- The host with a message put into an outbox, if the outbox accepts it. -/
def offer? (h : Host) (id : OutboxId) (m : Message) : Option Host :=
  match h.outboxes[id]? with
  | some b => if b.accepts then some (h.update id (·.push m)) else none
  | none => none

/-- The host after a session has let go of an outbox. -/
def drop (h : Host) (id : OutboxId) : Host :=
  h.update id fun b => { b with dropped := true }

/-- The host after a session has let go of some outboxes. -/
def dropAll (h : Host) (ids : List OutboxId) : Host :=
  ids.foldl drop h

/-- The host after a peer has let go of an outbox. -/
def abandon (h : Host) (id : OutboxId) : Host :=
  h.update id fun b => { b with abandoned := true }

/-- The host after a peer has taken all messages out of an outbox, and these. -/
def collect (h : Host) (id : OutboxId) : List Message × Host :=
  (((h.outboxes[id]?).map (·.waiting)).getD [], h.update id (·.emptied))

/-- Whether a session has let go of an outbox. -/
def isDropped (h : Host) (id : OutboxId) : Bool :=
  ((h.outboxes[id]?).map (·.dropped)).getD true

end Host

end LiterateSync
