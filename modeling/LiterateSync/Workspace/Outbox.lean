import LiterateSync.Session.Message

namespace LiterateSync

/-- The number of an outbox, in the order in which outboxes were made. -/
abbrev OutboxId := Nat

/-- Messages on their way from a session to a peer. The session puts them in and the peer
    takes them out, and each can let go of the outbox on its own. -/
structure Outbox where
  /-- How many messages can wait. -/
  capacity : Nat
  /-- All messages that were put in, oldest first. -/
  sent : List Message := []
  /-- How many of them were taken out. -/
  taken : Nat := 0
  /-- Whether the peer has let go. -/
  abandoned : Bool := false
  /-- Whether the session has let go. -/
  dropped : Bool := false
  deriving DecidableEq, Repr

namespace Outbox

/-- The messages that wait to be taken out. -/
def waiting (b : Outbox) : List Message :=
  b.sent.drop b.taken

/-- Whether a message can be put in. -/
def accepts (b : Outbox) : Bool :=
  !b.abandoned && b.waiting.length < b.capacity

/-- The outbox with one more message. -/
def push (b : Outbox) (m : Message) : Outbox :=
  { b with sent := b.sent ++ [m] }

/-- The outbox with all messages taken out. -/
def emptied (b : Outbox) : Outbox :=
  { b with taken := b.sent.length }

end Outbox

end LiterateSync
