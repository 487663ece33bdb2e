import LiterateSync.Session.Pending
import LiterateSync.Workspace.Host

namespace LiterateSync

/-- A running session with what it needs to do its work. It serves one request at a time,
    in the order of their arrival. -/
structure Task where
  session : Session
  /-- The path of the backing file, if there is one. -/
  backing : Option String := none
  /-- The outboxes of the peers, at most one for each. -/
  outboxes : List (PeerId × OutboxId) := []
  deriving DecidableEq, Repr

namespace Task

/-- Whether the task still serves requests. It ends with its session, and when its document
    cannot be made. -/
def isRunning (t : Task) : Bool :=
  t.session.phase ≠ .idle && t.session.phase ≠ .closed

/-- The outbox of a peer. -/
def outbox? (t : Task) (peer : PeerId) : Option OutboxId :=
  (t.outboxes.find? (·.1 = peer)).map (·.2)

/-- The task without the outbox of a peer. -/
def release (t : Task) (peer : PeerId) : Task :=
  { t with outboxes := t.outboxes.filter (·.1 ≠ peer) }

/-- The task and the host after the outbox of a peer is let go, if it has one. -/
def dropOutbox (t : Task) (h : Host) (peer : PeerId) : Task × Host :=
  (t.release peer, ((t.outbox? peer).map h.drop).getD h)

/-- The task and the host after all outboxes are let go. -/
def dropOutboxes (t : Task) (h : Host) : Task × Host :=
  ({ t with outboxes := [] }, h.dropAll (t.outboxes.map (·.2)))

/-- A message is put into the outbox of a peer. A peer whose outbox does not accept it is
    dropped, so that the task never waits for a peer. -/
def deliver (t : Task) (h : Host) (peer : PeerId) (m : Message) : Task × Host :=
  match t.outbox? peer with
  | none => (t, h)
  | some id =>
    match h.offer? id m with
    | some h => (t, h)
    | none => ({ t.release peer with session := t.session.unsubscribe peer }, h.drop id)

/-- A text is written to the backing file, and whether it was. Without a backing file there
    is nothing to write to, which counts as written. -/
def writeThrough (t : Task) (h : Host) (text : String) : Host × Bool :=
  match t.backing with
  | none => (h, true)
  | some path =>
    let (files, outcome) := h.files.replace path text
    ({ h with files }, outcome matches .ok _)

/-- The session after its file has a revision. -/
def acknowledged (s : Session) (revision : Nat) : Session :=
  match s.ack .fileSystem revision with
  | .ok next => next
  | .error _ => s

/-- What the session wants is done. A write that fails is not acknowledged. -/
def carryOut (t : Task) (h : Host) : Event → Task × Host
  | .send peer m => t.deliver h peer m
  | .writeFile revision text =>
    match t.writeThrough h text with
    | (h, true) => ({ t with session := acknowledged t.session revision }, h)
    | (h, false) => (t, h)

/-- How much a task has to do: whether an acknowledgement is outstanding, whose arrival can
    add events, and how many events there are. -/
def workload (t : Task) : Nat × Nat :=
  (if t.session.pending.isSome then 1 else 0, t.session.events.length)

/-- The task with other events to carry out. -/
def withEvents (t : Task) (events : List Event) : Task :=
  { t with session := { t.session with events } }

theorem session_deliver (t : Task) (h : Host) (peer : PeerId) (m : Message) :
    (t.deliver h peer m).1.session.pending = t.session.pending ∧
      (t.deliver h peer m).1.session.events = t.session.events := by
  rw [deliver]
  split
  · exact ⟨rfl, rfl⟩
  · split <;> exact ⟨rfl, rfl⟩

theorem acknowledged_eq_self_or_awaited (s : Session) (revision : Nat) :
    acknowledged s revision = s ∨
      s.pending.isSome ∧ (acknowledged s revision).pending = none := by
  rw [acknowledged]
  split
  · rename_i next hack
    exact Session.ack_eq_self_or_awaited hack
  · exact .inl rfl

/-- To carry out an event is to have less to do. -/
theorem workload_carryOut_lt (t : Task) (h : Host) (e : Event) (rest : List Event)
    (hevents : t.session.events = e :: rest) :
    Prod.Lex (· < ·) (· < ·) ((t.withEvents rest).carryOut h e).1.workload t.workload := by
  have hless : rest.length < t.session.events.length := by simp [hevents]
  cases e with
  | send peer m =>
    obtain ⟨hpending, hrest⟩ := session_deliver (t.withEvents rest) h peer m
    rw [workload, workload, carryOut, hpending, hrest]
    exact .right _ hless
  | writeFile revision text =>
    rw [carryOut]
    split
    · rename_i host heq
      rw [workload, workload]
      rcases acknowledged_eq_self_or_awaited (t.withEvents rest).session revision with
        hself | ⟨hsome, hnone⟩
      · rw [hself]
        exact .right _ hless
      · have hsome' : t.session.pending.isSome := hsome
        rw [hnone, hsome']
        exact .left _ _ (by simp)
    · exact .right _ hless

/-- All that the session wants is done, also what it comes to want meanwhile. -/
def flush (t : Task) (h : Host) : Task × Host :=
  match _hevents : t.session.events with
  | [] => (t, h)
  | e :: rest =>
    let next := (t.withEvents rest).carryOut h e
    flush next.1 next.2
termination_by t.workload
decreasing_by exact workload_carryOut_lt t h e rest ‹_›

end Task

end LiterateSync
