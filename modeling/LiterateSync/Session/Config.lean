import LiterateSync.Document.Rebase

namespace LiterateSync

/-- How a session deals with its peers. -/
structure SyncConfig where
  /-- How long an acknowledgement may take, in milliseconds. -/
  ackTimeoutMs : Nat := 15000
  /-- How many patches of a peer are refused in a row before it is sent the document. -/
  maxRetries : UInt32 := 3
  conflictPolicy : ConflictPolicy := .laterWins
  /-- How many revisions back a patch may start. -/
  historyDepth : Nat := 32
  deriving DecidableEq, Repr

end LiterateSync
