import LiterateSync.Document.Diff
import LiterateSync.Session.Basic

namespace LiterateSync.Session

/-- The last `n` items. -/
def keepLast {α : Type} (n : Nat) (items : List α) : List α :=
  items.drop (items.length - n)

/-- A patch that can be applied to the current document, with the peers whose edits lose
    against it. -/
structure Carried where
  patch : Patch
  losers : List PeerId
  deriving DecidableEq, Repr

/-- The peer that loses when a patch is in conflict with one that was applied, if a peer
    does. A patch that wins over one of the same peer takes nothing from that peer. -/
def loser? (policy : ConflictPolicy) (origin earlier : PeerId) : Option PeerId :=
  match policy with
  | .laterWins => if earlier = origin then none else some earlier
  | .earlierWins => some origin

/-- The losers with one more, who is listed once. -/
def addLoser (losers : List PeerId) : Option PeerId → List PeerId
  | none => losers
  | some peer => if losers.contains peer then losers else losers ++ [peer]

/-- A patch carried over the patches that were applied since its base, one after the other.
    The document after each is the one before the next, and `current` after the last. -/
def carryOver (policy : ConflictPolicy) (origin : PeerId) (current : Document) :
    Carried → List Applied → Except PatchError Carried
  | c, [] => .ok c
  | c, applied :: later =>
    let after := (later.head?.map (·.before)).getD current
    match c.patch.rebase applied.patch applied.before after policy with
    | .error e => .error e
    | .ok rebased =>
      let losers :=
        if rebased.conflicts.isEmpty then c.losers
        else addLoser c.losers (loser? policy origin applied.origin)
      carryOver policy origin current ⟨rebased.patch, losers⟩ later

/-- The part of a history from the patch that was applied to a revision on. -/
def historyFrom (base : Nat) (history : List Applied) : List Applied :=
  history.dropWhile fun applied => applied.before.revision ≠ base

/-- A patch made over for the current document. One that starts from an earlier revision
    needs that revision to be in the history. -/
def carryToCurrent (s : Session) (current : Document) (origin : PeerId) (patch : Patch) :
    Except PatchError Carried :=
  if patch.base < current.revision then
    match historyFrom patch.base s.history with
    | [] => .error (.revisionMismatch current.revision patch.base)
    | since => carryOver s.config.conflictPolicy origin current ⟨patch, []⟩ since
  else .ok ⟨patch, []⟩

/-- The patch that is applied for a submitted one, the document after it, and the peers
    whose edits lose against it. -/
def reconcile (s : Session) (current : Document) (origin : PeerId) (patch : Patch) :
    Except PatchError (Carried × Document) :=
  match s.carryToCurrent current origin patch with
  | .error e => .error e
  | .ok carried =>
    match current.apply carried.patch with
    | .error e => .error e
    | .ok next => .ok (carried, next)

/-- The session with a patch applied that leads to the document `next`. Its origin is told
    that the session has it, and the other peers get it. The text is written to the file
    unless it came from there. -/
def commit (s : Session) (origin : PeerId) (patch : Patch) (next : Document) : Session :=
  let history :=
    match s.document with
    | some before => keepLast s.config.historyDepth (s.history ++ [⟨origin, before, patch⟩])
    | none => s.history
  let s := { s with document := some next, history, rejections := s.rejections.clear origin }
  let s := s.send origin (.ack next.revision)
  let s := s.sendAll (s.subscribers.filter (· ≠ origin)) (.patch patch)
  if origin = .fileSystem then s
  else
    let writes := keepLast (max s.config.historyDepth 1) (s.recentWrites ++ [next.text])
    { s with recentWrites := writes }.emit (.writeFile next.revision next.text)

/-- The session with a patch of a peer refused. The peer is told the reason, and after too
    many patches in a row it is sent the document instead. -/
def reject (s : Session) (origin : PeerId) (reason : SupersedeReason) : Session :=
  -- The number of refusals wraps, so that it never exceeds the largest possible bound.
  let count := s.rejections.count origin + 1
  if s.config.maxRetries < count then
    { s with rejections := s.rejections.clear origin }.sendDocument origin
  else
    { s with rejections := s.rejections.set origin count }.send origin
      (.superseded (s.revision?.getD 0) reason)

/-- The session with one submission settled, by a commit or by a rejection. -/
def process (s : Session) (sub : Submission) : Session :=
  match s.document with
  | none => s
  | some current =>
    match s.reconcile current sub.origin sub.patch with
    | .error e => s.reject sub.origin e.reason
    | .ok (carried, next) =>
      let s := s.commit sub.origin carried.patch next
      let s := carried.losers.foldl
        (fun s loser => s.send loser (.superseded next.revision .conflict)) s
      if sub.resync then s.sendDocument sub.origin else s

/-- The session with all submissions settled in order, unless an acknowledgement is
    outstanding. -/
def drain (s : Session) : Session :=
  if s.pending.isSome then s
  else
    let settled := s.queue.foldl process { s with queue := [] }
    if settled.document.isSome then { settled with phase := .synced } else settled

end LiterateSync.Session
