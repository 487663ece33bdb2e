import LiterateSync.Proofs.Session.Moves

namespace LiterateSync

/-- Of some events, those that concern the file. -/
def writesIn (events : List Event) : List Event :=
  events.filter fun
    | .writeFile .. => true
    | .send .. => false

namespace Session

/-- A session without its peers: nobody subscribes, and nobody is to be told anything. The time of
    a local edit is left out too. -/
def muted (s : Session) : Session :=
  { s with
    subscribers := [], events := writesIn s.events,
    pending := s.pending.map ({ · with sentAt := 0 }) }

/-- A command without the time at which it comes. -/
def Command.timeless : Command → Command
  | .localEdit _ patch => .localEdit 0 patch
  | c => c

variable {s : Session}

@[simp] theorem writesIn_append (xs ys : List Event) :
    writesIn (xs ++ ys) = writesIn xs ++ writesIn ys :=
  List.filter_append ..

@[simp] theorem writesIn_addressed (s : Session) (peer : PeerId) (body : MessageBody) :
    writesIn (s.addressed peer body) = [] := by
  rw [addressed]
  split <;> rfl

@[simp] theorem writesIn_flatMap_addressed (s : Session) (peers : List PeerId)
    (body : MessageBody) :
    writesIn (peers.flatMap fun peer => s.addressed peer body) = [] := by
  induction peers with
  | nil => rfl
  | cons peer peers ih => rw [List.flatMap_cons, writesIn_append, writesIn_addressed, ih]; rfl

@[simp] theorem writesIn_snapshotFor (s : Session) (peer : PeerId) :
    writesIn (s.snapshotFor peer) = [] := by
  rw [snapshotFor]
  split
  · exact writesIn_addressed ..
  · rfl

@[simp] theorem addressed_muted (s : Session) (peer : PeerId) (body : MessageBody) :
    s.muted.addressed peer body = [] := rfl

@[simp] theorem snapshotFor_muted (s : Session) (peer : PeerId) :
    s.muted.snapshotFor peer = [] := by
  rw [snapshotFor]
  split <;> rfl

theorem muted_emitAll {events : List Event} (h : writesIn events = []) :
    (s.emitAll events).muted = s.muted := by
  simp [muted, emitAll, h]

theorem muted_sendAll (s : Session) (peers : List PeerId) (body : MessageBody) :
    (s.sendAll peers body).muted = s.muted := by
  rw [sendAll_eq, muted_emitAll (writesIn_flatMap_addressed ..)]

theorem writesIn_rejectEvents (s : Session) (origin : PeerId) (reason : SupersedeReason) :
    writesIn (s.rejectEvents origin reason) = s.muted.rejectEvents origin reason := by
  rw [rejectEvents, rejectEvents]
  split <;> split <;> simp

theorem writesIn_commitEvents (s : Session) (origin : PeerId) (patch : Patch) (next : Document) :
    writesIn (s.commitEvents origin patch next) = s.muted.commitEvents origin patch next := by
  have hwrite : writesIn (if origin = .fileSystem then [] else
      [.writeFile next.revision next.text]) = if origin = .fileSystem then [] else
      [.writeFile next.revision next.text] := by
    split <;> rfl
  have hnobody : (s.muted.subscribers.filter (· ≠ origin)).flatMap
      (fun peer => s.muted.addressed peer (.patch patch)) = [] := rfl
  rw [commitEvents, commitEvents, hnobody, addressed_muted, writesIn_append, writesIn_append,
    writesIn_addressed, writesIn_flatMap_addressed, hwrite]

theorem writesIn_acceptEvents (s : Session) (sub : Submission) (carried : Carried)
    (next : Document) :
    writesIn (s.acceptEvents sub carried next) = s.muted.acceptEvents sub carried next := by
  have hresync : writesIn (if sub.resync then
      s.addressed sub.origin (.fullDocument (some next.snapshot)) else []) = [] := by
    split
    · exact writesIn_addressed ..
    · rfl
  have hlosers : carried.losers.flatMap (fun peer =>
      s.muted.addressed peer (.superseded next.revision .conflict)) = [] :=
    List.flatMap_eq_nil_iff.2 fun _ _ => rfl
  rw [acceptEvents, acceptEvents, writesIn_append, writesIn_append, writesIn_commitEvents,
    writesIn_flatMap_addressed, hresync, hlosers, addressed_muted, ite_self]

theorem muted_commit {current : Document} (hdoc : s.document = some current) (origin : PeerId)
    (patch : Patch) (next : Document) :
    (s.commit origin patch next).muted = s.muted.commit origin patch next := by
  rw [commit_eq hdoc, commit_eq (s := s.muted) hdoc, ← writesIn_commitEvents]
  simp only [muted, writesIn_append]
  rfl

theorem muted_reject (s : Session) (origin : PeerId) (reason : SupersedeReason) :
    (s.reject origin reason).muted = s.muted.reject origin reason := by
  rw [reject_eq, reject_eq, ← writesIn_rejectEvents]
  simp only [muted, writesIn_append]
  rfl

/-- What the peers are told has no part in the settling of a submission. -/
theorem muted_process (s : Session) (sub : Submission) :
    (s.process sub).muted = s.muted.process sub := by
  obtain hdoc | ⟨current, hdoc⟩ := Option.eq_none_or_eq_some s.document
  · rw [process_of_document_none hdoc, process_of_document_none (s := s.muted) hdoc]
  · cases hreconcile : s.reconcile current sub.origin sub.patch with
    | error e =>
      rw [process_of_error hdoc hreconcile,
        process_of_error (s := s.muted) hdoc hreconcile, muted_reject]
    | ok result =>
      obtain ⟨carried, next⟩ := result
      rw [process_of_ok hdoc hreconcile, process_of_ok (s := s.muted) hdoc hreconcile,
        ← writesIn_acceptEvents]
      simp only [muted, writesIn_append]
      rfl

theorem muted_foldl_process (subs : List Submission) (s : Session) :
    (subs.foldl process s).muted = subs.foldl process s.muted := by
  induction subs generalizing s with
  | nil => rfl
  | cons sub subs ih => rw [List.foldl_cons, List.foldl_cons, ih, muted_process]

theorem isSome_pending_muted (s : Session) : s.muted.pending.isSome = s.pending.isSome :=
  Option.isSome_map

theorem muted_drain (s : Session) : s.drain.muted = s.muted.drain := by
  have hsettled : s.muted.queue.foldl process { s.muted with queue := [] } =
      (s.queue.foldl process { s with queue := [] }).muted :=
    (muted_foldl_process s.queue { s with queue := [] }).symm
  rw [drain, drain, isSome_pending_muted, hsettled]
  split
  · rfl
  · generalize s.queue.foldl process { s with queue := [] } = settled
    rw [apply_ite muted]
    rfl

theorem muted_enqueue (s : Session) (sub : Submission) :
    (s.enqueue sub).map muted = s.muted.enqueue sub := by
  have hopen : s.muted.openDocument = s.openDocument := rfl
  rw [enqueue, enqueue, hopen, isSome_pending_muted]
  cases s.openDocument with
  | error e => rfl
  | ok d =>
    refine congrArg Except.ok ((muted_drain _).trans (congrArg drain ?_))
    split <;> rfl

theorem muted_ack (s : Session) (peer : PeerId) (revision : Nat) :
    (s.ack peer revision).map muted = s.muted.ack peer revision := by
  have hphase : s.muted.phase = s.phase := rfl
  rw [ack, ack, hphase]
  split
  · rfl
  · obtain hpending | ⟨p, hpending⟩ := Option.eq_none_or_eq_some s.pending
    · have hmuted : s.muted.pending = none := congrArg (Option.map _) hpending
      simp only [hpending, hmuted]
      rfl
    · have hmuted : s.muted.pending = some { p with sentAt := 0 } :=
        congrArg (Option.map _) hpending
      simp only [hpending, hmuted]
      split
      · exact congrArg Except.ok (muted_drain { s with pending := none })
      · rfl

theorem muted_sendDocument (s : Session) (peer : PeerId) :
    (s.sendDocument peer).muted = s.muted.sendDocument peer := by
  rw [sendDocument_eq, sendDocument_eq, snapshotFor_muted, emitAll_nil,
    muted_emitAll (writesIn_snapshotFor s peer)]

theorem muted_resync (s : Session) (peer : PeerId) :
    (s.resync peer).map muted = s.muted.resync peer := by
  have hopen : s.muted.openDocument = s.openDocument := rfl
  rw [resync, resync, hopen]
  cases s.openDocument with
  | error e => rfl
  | ok d => exact congrArg Except.ok (muted_sendDocument s peer)

theorem muted_handle (s : Session) (sender : PeerId) (m : Message) :
    (s.handle sender m).map muted = s.muted.handle sender m := by
  have hid : s.muted.id = s.id := rfl
  rw [handle, handle, hid]
  split
  · rfl
  · split
    · exact muted_enqueue s _
    · exact muted_ack s ..
    · exact muted_resync s sender
    · rfl

theorem muted_fileChanged [RegexLibrary] (s : Session) (text : String) :
    (s.fileChanged text).map muted = s.muted.fileChanged text := by
  have hopen : s.muted.openDocument = s.openDocument := rfl
  have hwrites : s.muted.recentWrites = s.recentWrites := rfl
  rw [fileChanged, fileChanged, hopen, hwrites]
  cases s.openDocument with
  | error e => rfl
  | ok current =>
    simp only [bind, Except.bind]
    split
    · rfl
    · split
      · rfl
      · split
        · rfl
        · exact muted_enqueue s _

theorem muted_viewEdit [RegexLibrary] (s : Session) (origin : PeerId) (base : Nat)
    (view : List ViewBlock) :
    (s.viewEdit origin base view).map muted = s.muted.viewEdit origin base view := by
  have hopen : s.muted.openDocument = s.openDocument := rfl
  have hshown : s.muted.documentAt? base = s.documentAt? base := rfl
  rw [viewEdit, viewEdit, hopen, hshown]
  cases s.openDocument with
  | error e => rfl
  | ok current =>
    simp only [bind, Except.bind]
    split
    · exact congrArg Except.ok (muted_reject s origin _)
    · split
      · rfl
      · split
        · refine congrArg Except.ok ?_
          split
          · exact muted_sendDocument s origin
          · rfl
        · exact muted_enqueue s _

theorem muted_beginOpen (s : Session) : s.beginOpen.map muted = s.muted.beginOpen := by
  have hphase : s.muted.phase = s.phase := rfl
  rw [beginOpen.eq_def, beginOpen.eq_def, hphase]
  split <;> rfl

theorem muted_finishOpen (s : Session) (result : Except SegmentError Document) :
    ((s.finishOpen result).1.muted, (s.finishOpen result).2) = s.muted.finishOpen result := by
  have hphase : s.muted.phase = s.phase := rfl
  rw [finishOpen.eq_def, finishOpen.eq_def, hphase]
  split
  · cases result with
    | ok d => exact congrArg (·, Except.ok ()) (muted_sendAll ..)
    | error e => rfl
  · rfl
  · rfl

theorem muted_openText [RegexLibrary] (s : Session) (p : Profile) (text : String) :
    ((s.openText p text).1.muted, (s.openText p text).2) = s.muted.openText p text := by
  rw [openText, openText, ← muted_beginOpen]
  cases s.beginOpen with
  | error e => rfl
  | ok t => exact muted_finishOpen t _

theorem muted_settle (s : Session) (result : Except SessionError Session) :
    ((s.settle result).1.muted, (s.settle result).2) = s.muted.settle (result.map muted) := by
  cases result <;> rfl

theorem muted_localEdit (s : Session) (now : Nat) (patch : Patch) :
    (s.localEdit now patch).map (fun (t, revision) => (t.muted, revision)) =
      s.muted.localEdit 0 patch := by
  have hopen : s.muted.openDocument = s.openDocument := rfl
  have hphase : s.muted.phase = s.phase := rfl
  rw [localEdit, localEdit, hopen, hphase]
  cases hcurrent : s.openDocument with
  | error e => rfl
  | ok current =>
    have hdoc := (openDocument_eq_ok_iff.1 hcurrent).1
    simp only [bind, Except.bind]
    split
    · rfl
    · split
      · rfl
      · rw [← muted_commit hdoc]
        rfl

/-- Who subscribes, and what the peers are told, has no part in anything else that a command does
    to a session, nor in its answer. Only an overdue acknowledgement depends on the time. -/
theorem muted_step [RegexLibrary] (s : Session) {c : Command} (hpeers : ∀ peer, c ≠ .subscribe peer)
    (htime : ∀ now, c ≠ .tick now) :
    ((s.step c).1.muted, (s.step c).2) = s.muted.step c.timeless := by
  cases c with
  | beginOpen => exact (muted_settle s _).trans (by rw [muted_beginOpen]; rfl)
  | finishOpen result =>
    exact congrArg (fun r => (r.1, r.2.map fun _ => Answer.done)) (muted_finishOpen s result)
  | openText p text =>
    exact congrArg (fun r => (r.1, r.2.map fun _ => Answer.done)) (muted_openText s p text)
  | close => rfl
  | subscribe peer => exact absurd rfl (hpeers peer)
  | unsubscribe peer => rfl
  | resync peer => exact (muted_settle s _).trans (by rw [muted_resync]; rfl)
  | message sender m => exact (muted_settle s _).trans (by rw [muted_handle]; rfl)
  | submit origin patch => exact (muted_settle s _).trans (by rw [submit, muted_enqueue]; rfl)
  | localEdit now patch =>
    rw [Command.timeless, step, step, ← muted_localEdit s now patch]
    cases s.localEdit now patch <;> rfl
  | ack peer revision => exact (muted_settle s _).trans (by rw [muted_ack]; rfl)
  | tick now => exact absurd rfl (htime now)
  | fileChanged text => exact (muted_settle s _).trans (by rw [muted_fileChanged]; rfl)
  | viewEdit origin base view => exact (muted_settle s _).trans (by rw [muted_viewEdit]; rfl)

/-- A peer that comes changes nothing but what the peers are told. -/
theorem muted_subscribe (s : Session) (peer : PeerId) : (s.subscribe peer).muted = s.muted := by
  rw [subscribe]
  split
  · rfl
  · rw [sendDocument_eq]
    exact muted_emitAll (writesIn_snapshotFor ..)

end Session

end LiterateSync
