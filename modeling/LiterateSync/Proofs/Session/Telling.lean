import LiterateSync.Proofs.Session.Receiving

namespace LiterateSync

/-- What a peer is told by some events, in order. -/
def messagesTo (peer : PeerId) (events : List Event) : List MessageBody :=
  events.filterMap fun
    | .send p m => if p = peer then some m.body else none
    | .writeFile .. => none

namespace Session

variable {v : PeerId} {s : Session}

@[simp] theorem messagesTo_append (v : PeerId) (xs ys : List Event) :
    messagesTo v (xs ++ ys) = messagesTo v xs ++ messagesTo v ys :=
  List.filterMap_append

theorem messagesTo_addressed (v peer : PeerId) (body : MessageBody) :
    messagesTo v (s.addressed peer body) =
      if v ∈ s.subscribers ∧ peer = v then [body] else [] := by
  rw [addressed]
  by_cases hpeer : peer = v
  · subst hpeer
    by_cases hmem : peer ∈ s.subscribers <;> simp [messagesTo, hmem]
  · split <;> simp [messagesTo, hpeer]

/-- Of what is sent to several peers, a peer that subscribes is told as much as it is listed. -/
theorem messagesTo_flatMap (v : PeerId) (peers : List PeerId) (body : MessageBody) :
    messagesTo v (peers.flatMap fun peer => s.addressed peer body) =
      if v ∈ s.subscribers then List.replicate (peers.count v) body else [] := by
  induction peers with
  | nil => simp [messagesTo]
  | cons peer peers ih =>
    rw [List.flatMap_cons, messagesTo_append, ih, messagesTo_addressed, List.count_cons]
    by_cases hmem : v ∈ s.subscribers
    · by_cases hpeer : peer = v
      · simp [hmem, hpeer, List.replicate_succ]
      · simp [hmem, hpeer]
    · simp [hmem]

theorem messagesTo_snapshotFor (v peer : PeerId) {d : Document} (hdoc : s.document = some d) :
    messagesTo v (s.snapshotFor peer) =
      if v ∈ s.subscribers ∧ peer = v then [.fullDocument (some d.snapshot)] else [] := by
  rw [snapshotFor, hdoc]
  exact messagesTo_addressed v peer _

theorem messagesTo_snapshotFor_of_ne {v peer : PeerId} (s : Session) (hne : peer ≠ v) :
    messagesTo v (s.snapshotFor peer) = [] := by
  obtain hdoc | ⟨d, hdoc⟩ := Option.eq_none_or_eq_some s.document
  · rw [snapshotFor, hdoc]
    rfl
  · rw [messagesTo_snapshotFor v peer hdoc, if_neg fun h => hne h.2]

theorem perm_insertPeer (peer : PeerId) (peers : List PeerId) :
    (insertPeer peer peers).Perm (peer :: peers) := by
  induction peers with
  | nil => exact .refl _
  | cons p peers ih =>
    rw [insertPeer]
    split
    · exact .refl _
    · exact (ih.cons p).trans (.swap peer p peers)

/-- Whether a submission is committed when it is settled. -/
def isCommitted (s : Session) (sub : Submission) : Bool :=
  match s.document with
  | none => false
  | some current => (s.reconcile current sub.origin sub.patch).isOk

/-- Whether a peer is not the origin of a submission that is committed while it subscribes. -/
def Observes (v : PeerId) (s : Session) (sub : Submission) : Prop :=
  v ∈ s.subscribers → s.isCommitted sub = true → sub.origin ≠ v

instance (v : PeerId) (s : Session) (sub : Submission) : Decidable (Observes v s sub) :=
  inferInstanceAs (Decidable (_ → _ → _))

theorem messagesTo_write (v origin : PeerId) (d : Document) :
    messagesTo v (if origin = .fileSystem then [] else [.writeFile d.revision d.text]) = [] := by
  split <;> rfl

/-- What a peer that subscribes is told about a patch of another peer that is committed: the
    patch, and perhaps that patches of its own have lost. -/
theorem messagesTo_acceptEvents {sub : Submission} (carried : Carried) (next : Document)
    (hnodup : s.subscribers.Nodup) (hv : v ∈ s.subscribers) (horigin : sub.origin ≠ v) :
    ∃ rest, messagesTo v (s.acceptEvents sub carried next) = .patch carried.patch :: rest ∧
      ∀ body ∈ rest, ∃ revision reason, body = .superseded revision reason := by
  have hcount : (s.subscribers.filter (· ≠ sub.origin)).count v = 1 := by
    refine List.count_eq_one_of_mem (hnodup.filter _) (List.mem_filter.2 ⟨hv, ?_⟩)
    simpa using Ne.symm horigin
  have hresync : messagesTo v (if sub.resync then
      s.addressed sub.origin (.fullDocument (some next.snapshot)) else []) = [] := by
    split
    · rw [messagesTo_addressed, if_neg (fun h => horigin h.2)]
    · rfl
  refine ⟨List.replicate (carried.losers.count v) (.superseded next.revision .conflict), ?_,
    fun body hbody => ⟨_, _, List.eq_of_mem_replicate hbody⟩⟩
  rw [acceptEvents, commitEvents, messagesTo_append, messagesTo_append, messagesTo_append,
    messagesTo_append, messagesTo_addressed, if_neg (fun h => horigin h.2), messagesTo_flatMap,
    messagesTo_flatMap, if_pos hv, if_pos hv, hcount, messagesTo_write, hresync]
  simp

/-- A peer that does not subscribe is told nothing about a commit. -/
theorem messagesTo_acceptEvents_of_not_mem (sub : Submission) (carried : Carried)
    (next : Document) (hv : v ∉ s.subscribers) :
    messagesTo v (s.acceptEvents sub carried next) = [] := by
  have hnone : ∀ peer body, messagesTo v (s.addressed peer body) = [] := by
    intro peer body
    rw [messagesTo_addressed, if_neg fun h => hv h.1]
  have hresync : messagesTo v (if sub.resync then
      s.addressed sub.origin (.fullDocument (some next.snapshot)) else []) = [] := by
    split
    · exact hnone _ _
    · rfl
  simp only [acceptEvents, commitEvents, messagesTo_append, messagesTo_flatMap, hnone, hresync,
    messagesTo_write, if_neg hv, List.append_nil]

/-- What a peer is told about a patch of its own that is committed begins with the
    acknowledgement. -/
theorem messagesTo_acceptEvents_of_origin {v : PeerId} {s : Session} {sub : Submission}
    (carried : Carried) (next : Document) (hv : v ∈ s.subscribers) (horigin : sub.origin = v) :
    ∃ rest, messagesTo v (s.acceptEvents sub carried next) = .ack next.revision :: rest := by
  rw [acceptEvents, commitEvents, messagesTo_append, messagesTo_append, messagesTo_append,
    messagesTo_append, messagesTo_addressed, if_pos ⟨hv, horigin⟩]
  exact ⟨_, rfl⟩

theorem ackFree_addressed (v : PeerId) (s : Session) (peer : PeerId) {body : MessageBody}
    (hbody : body.isAck = false) : AckFree (messagesTo v (s.addressed peer body)) := by
  rw [messagesTo_addressed]
  split <;> simp [AckFree, hbody]

theorem ackFree_snapshotFor (v : PeerId) (s : Session) (peer : PeerId) :
    AckFree (messagesTo v (s.snapshotFor peer)) := by
  obtain hdoc | ⟨d, hdoc⟩ := Option.eq_none_or_eq_some s.document
  · rw [snapshotFor, hdoc]
    exact ackFree_nil
  · rw [snapshotFor, hdoc]
    exact ackFree_addressed v s peer rfl

theorem ackFree_rejectEvents (v : PeerId) (s : Session) (origin : PeerId)
    (reason : SupersedeReason) : AckFree (messagesTo v (s.rejectEvents origin reason)) := by
  rw [rejectEvents]
  split
  · exact ackFree_snapshotFor v s origin
  · exact ackFree_addressed v s origin rfl

/-- What a step tells a peer: `more` are the events that the step adds, and a copy that goes with
    the session before the step can make use of what they tell the peer, and goes with the session
    after it. -/
structure Tells (p : Profile) (g : IdSource) (v : PeerId) (s t : Session) (more : List Event) :
    Prop where
  nodup : t.subscribers.Nodup
  events_eq : t.events = s.events ++ more
  takes : ∀ copy : Replica, copy.Follows v s → copy.Takes p g (messagesTo v more)
  follows : ∀ copy : Replica, copy.Follows v s → AckFree (messagesTo v more) →
    ((messagesTo v more).foldl (Replica.receive p g) copy).Follows v t

namespace Tells

variable {p : Profile} {g : IdSource} {t : Session} {d : Document} {more : List Event}

/-- A step after which the copy shows the document. -/
theorem of_shows (hnodup : t.subscribers.Nodup) (hevents : t.events = s.events ++ more)
    (hdoc : t.document = some d)
    (hmore : ∀ copy : Replica, copy.Follows v s →
      ((messagesTo v more).foldl (Replica.receive p g) copy).Shows d) : Tells p g v s t more :=
  ⟨hnodup, hevents, fun copy hcopy => .of_ne_lost (hmore copy hcopy).ne_lost,
    fun copy hcopy _ => (hmore copy hcopy).follows hdoc⟩

/-- A step in which the peer is told nothing. -/
theorem of_nil (hnodup : t.subscribers.Nodup) (hevents : t.events = s.events ++ more)
    (hmore : messagesTo v more = [])
    (hfollows : ∀ copy : Replica, copy.Follows v s → copy.Follows v t) :
    Tells p g v s t more := by
  refine ⟨hnodup, hevents, fun copy hcopy => ?_, fun copy hcopy _ => ?_⟩
  · rw [hmore]
    trivial
  · rw [hmore]
    exact hfollows copy hcopy

/-- A step that leaves the document as it is, and tells the peer nothing new about it. -/
theorem keep (hnodup : s.subscribers.Nodup) (hevents : t.events = s.events ++ more)
    (hsubscribers : t.subscribers = s.subscribers) (hdocument : t.document = s.document)
    (hmore : messagesTo v more = [] ∨ v ∈ s.subscribers ∧ ∃ d, s.document = some d ∧
      ∀ body ∈ messagesTo v more, (∃ revision reason, body = .superseded revision reason) ∨
        body = .fullDocument (some d.snapshot)) : Tells p g v s t more := by
  obtain hnone | ⟨hv, d, hdoc, hbodies⟩ := hmore
  · refine of_nil (hsubscribers ▸ hnodup) hevents hnone fun copy hcopy => ?_
    rw [Replica.Follows, hsubscribers, hdocument]
    exact hcopy
  · exact of_shows (hsubscribers ▸ hnodup) hevents (hdocument.trans hdoc)
      fun copy hcopy => (hcopy.2 hv d hdoc).foldl hbodies

end Tells

variable (p : Profile) (g : IdSource) (v : PeerId)

theorem tells_addressed (hnodup : s.subscribers.Nodup) (peer : PeerId) (revision : Nat)
    (reason : SupersedeReason) (hdocument : s.document.isSome) :
    Tells p g v s (s.emitAll (s.addressed peer (.superseded revision reason)))
      (s.addressed peer (.superseded revision reason)) := by
  obtain ⟨d, hdoc⟩ := Option.isSome_iff_exists.1 hdocument
  refine .keep hnodup rfl rfl rfl ?_
  rw [messagesTo_addressed]
  split
  · rename_i htold
    exact .inr ⟨htold.1, d, hdoc, by simp⟩
  · exact .inl rfl

theorem tells_snapshotFor (hnodup : s.subscribers.Nodup) (peer : PeerId) :
    Tells p g v s (s.emitAll (s.snapshotFor peer)) (s.snapshotFor peer) := by
  obtain hdoc | ⟨d, hdoc⟩ := Option.eq_none_or_eq_some s.document
  · exact .keep hnodup rfl rfl rfl (.inl (by rw [snapshotFor, hdoc]; rfl))
  · refine .keep hnodup rfl rfl rfl ?_
    rw [messagesTo_snapshotFor v peer hdoc]
    split
    · rename_i htold
      exact .inr ⟨htold.1, d, hdoc, by simp⟩
    · exact .inl rfl

theorem tells_reject (hnodup : s.subscribers.Nodup) (origin : PeerId) (reason : SupersedeReason)
    (hdocument : s.document.isSome) :
    Tells p g v s (s.reject origin reason) (s.rejectEvents origin reason) := by
  have hevents : Tells p g v s (s.emitAll (s.rejectEvents origin reason))
      (s.rejectEvents origin reason) := by
    rw [rejectEvents]
    split
    · exact tells_snapshotFor p g v hnodup origin
    · exact tells_addressed p g v hnodup origin _ reason hdocument
  rw [reject_eq]
  exact ⟨hevents.nodup, hevents.events_eq, hevents.takes, hevents.follows⟩

/-- The patch of another peer is based on the very document that the copy shows. -/
theorem tells_accept {current next : Document} {sub : Submission} {carried : Carried}
    (hnodup : s.subscribers.Nodup) (hdoc : s.document = some current)
    (hreconcile : s.reconcile current sub.origin sub.patch = .ok (carried, next)) :
    Tells p g v s (s.process sub) (s.acceptEvents sub carried next) := by
  rw [process_of_ok hdoc hreconcile]
  by_cases hv : v ∈ s.subscribers
  · by_cases horigin : sub.origin = v
    · obtain ⟨rest, hmessages⟩ := messagesTo_acceptEvents_of_origin carried next hv horigin
      refine ⟨hnodup, rfl, fun copy hcopy => ?_, fun copy hcopy hfree => ?_⟩
      · rw [hmessages]
        exact ⟨((hcopy.2 hv current hdoc).receive_ack _).ne_lost, fun hfree => by cases hfree⟩
      · rw [hmessages] at hfree
        cases (ackFree_cons.1 hfree).1
    · obtain ⟨rest, hmessages, hrest⟩ := messagesTo_acceptEvents carried next hnodup hv horigin
      refine .of_shows hnodup rfl rfl fun copy hcopy => ?_
      rw [hmessages, List.foldl_cons]
      have hpatch := (hcopy.2 hv current hdoc).receive_patch (p := p) (g := g)
        (apply_of_reconcile hreconcile)
      exact hpatch.foldl fun body hbody => .inl (hrest body hbody)
  · exact .of_nil hnodup rfl (messagesTo_acceptEvents_of_not_mem sub carried next hv)
      fun copy hcopy => ⟨hcopy.1, fun hmem => absurd hmem hv⟩

/-- What the settling of a submission tells a peer. There is an acknowledgement in it just when the
    peer does not merely observe: when a patch of its own is committed while it subscribes. -/
theorem tells_process (hnodup : s.subscribers.Nodup) (sub : Submission) :
    ∃ more, Tells p g v s (s.process sub) more ∧
      (AckFree (messagesTo v more) ↔ Observes v s sub) := by
  have hidle : s.isCommitted sub = false → Observes v s sub := fun hidle _ hcommitted => by
    simp [hidle] at hcommitted
  obtain hdoc | ⟨current, hdoc⟩ := Option.eq_none_or_eq_some s.document
  · rw [process_of_document_none hdoc]
    refine ⟨[], .keep hnodup (List.append_nil _).symm rfl rfl (.inl rfl),
      iff_of_true ackFree_nil (hidle ?_)⟩
    simp [isCommitted, hdoc]
  · cases hreconcile : s.reconcile current sub.origin sub.patch with
    | error e =>
      rw [process_of_error hdoc hreconcile]
      refine ⟨_, tells_reject p g v hnodup sub.origin _ (by simp [hdoc]),
        iff_of_true (ackFree_rejectEvents v s _ _) (hidle ?_)⟩
      simp [isCommitted, hdoc, hreconcile, Except.isOk, Except.toBool]
    | ok result =>
      obtain ⟨carried, next⟩ := result
      have hcommitted : s.isCommitted sub = true := by
        simp [isCommitted, hdoc, hreconcile, Except.isOk, Except.toBool]
      refine ⟨_, tells_accept p g v hnodup hdoc hreconcile, ?_⟩
      by_cases hv : v ∈ s.subscribers
      · by_cases horigin : sub.origin = v
        · obtain ⟨rest, hmessages⟩ := messagesTo_acceptEvents_of_origin carried next hv horigin
          rw [hmessages, ackFree_cons]
          exact iff_of_false (fun hfree => by cases hfree.1)
            fun hobserves => hobserves hv hcommitted horigin
        · obtain ⟨rest, hmessages, hrest⟩ := messagesTo_acceptEvents carried next hnodup hv horigin
          rw [hmessages, ackFree_cons]
          refine iff_of_true ⟨rfl, fun body hbody => ?_⟩ fun _ _ => horigin
          obtain ⟨revision, reason, rfl⟩ := hrest body hbody
          rfl
      · rw [messagesTo_acceptEvents_of_not_mem sub carried next hv]
        exact iff_of_true ackFree_nil fun hmem => absurd hmem hv

/-- A peer that is sent the document has it, whatever it had before. -/
theorem tells_welcome (hnodup : s.subscribers.Nodup) (hnew : v ∉ s.subscribers) :
    Tells p g v s ({ s with subscribers := insertPeer v s.subscribers }.sendDocument v)
      (Session.snapshotFor { s with subscribers := insertPeer v s.subscribers } v) := by
  have hperm := perm_insertPeer v s.subscribers
  have hadded : (insertPeer v s.subscribers).Nodup :=
    hperm.nodup_iff.2 (List.nodup_cons.2 ⟨hnew, hnodup⟩)
  rw [sendDocument_eq]
  obtain hdoc | ⟨d, hdoc⟩ := Option.eq_none_or_eq_some s.document
  · refine .of_nil hadded rfl (by rw [snapshotFor, hdoc]; rfl)
      fun copy hcopy => ⟨hcopy.1, fun _ d hd => ?_⟩
    exact absurd (hdoc.symm.trans hd) (by simp)
  · have hmessages := messagesTo_snapshotFor (s := { s with
      subscribers := insertPeer v s.subscribers }) v v hdoc
    rw [if_pos ⟨hperm.mem_iff.2 List.mem_cons_self, rfl⟩] at hmessages
    refine .of_shows hadded rfl hdoc fun copy hcopy => ?_
    rw [hmessages]
    exact Replica.shows_receive_snapshot hcopy.1 d

theorem tells_subscribe (hnodup : s.subscribers.Nodup) (peer : PeerId) :
    ∃ more, Tells p g v s (s.subscribe peer) more ∧ AckFree (messagesTo v more) := by
  rw [subscribe]
  split
  · exact ⟨[], .keep hnodup (List.append_nil _).symm rfl rfl (.inl rfl), ackFree_nil⟩
  · rename_i hnew
    rw [List.contains_iff_mem] at hnew
    refine ⟨_, ?_, ackFree_snapshotFor v { s with subscribers := insertPeer peer s.subscribers }
      peer⟩
    by_cases hpeer : peer = v
    · subst hpeer
      exact tells_welcome p g peer hnodup hnew
    · have hperm := perm_insertPeer peer s.subscribers
      rw [sendDocument_eq]
      refine .of_nil (hperm.nodup_iff.2 (List.nodup_cons.2 ⟨hnew, hnodup⟩)) rfl
        (messagesTo_snapshotFor_of_ne _ hpeer) fun copy hcopy => ⟨hcopy.1, fun hmem => hcopy.2 ?_⟩
      exact (List.mem_cons.1 (hperm.mem_iff.1 hmem)).resolve_left (Ne.symm hpeer)

/-- A document that is opened is sent to each peer that subscribes by then. -/
theorem tells_opening (hnodup : s.subscribers.Nodup) (d : Document) :
    ∃ more, Tells p g v s ({ s with document := some d, phase := .synced }.sendAll s.subscribers
      (.fullDocument (some d.snapshot))) more ∧ AckFree (messagesTo v more) := by
  have hmessages := messagesTo_flatMap (s := { s with document := some d, phase := .synced }) v
    s.subscribers (.fullDocument (some d.snapshot))
  rw [sendAll_eq]
  by_cases hv : v ∈ s.subscribers
  · rw [if_pos hv, List.count_eq_one_of_mem hnodup hv] at hmessages
    refine ⟨_, .of_shows hnodup rfl rfl fun copy hcopy => ?_, ?_⟩
    · rw [hmessages]
      exact Replica.shows_receive_snapshot hcopy.1 d
    · rw [hmessages]
      simp [AckFree, MessageBody.isAck]
  · rw [if_neg hv] at hmessages
    refine ⟨_, .of_nil hnodup rfl hmessages fun copy hcopy => ⟨hcopy.1, fun hmem => ?_⟩, ?_⟩
    · exact absurd hmem hv
    · rw [hmessages]
      exact ackFree_nil

/-- Only the settling of a submission acknowledges something. A property of what a peer was told
    is kept by all commands, when it is kept by that and by each step without an
    acknowledgement. -/
theorem preserves_of_tells {Accepts : Session → Submission → Prop} {Inv : Session → Prop}
    (hnodup : ∀ {s : Session}, Inv s → s.subscribers.Nodup)
    (hprocess : ∀ {s : Session} (sub : Submission), Inv s → Accepts s sub → Inv (s.process sub))
    (hquiet : ∀ {s t : Session}, Inv s →
      (∃ more, Tells p g v s t more ∧ AckFree (messagesTo v more)) → Inv t) :
    Preserves Accepts Inv where
  process _ h haccepts := hprocess _ h haccepts
  reject origin reason hdocument h := hquiet h
    ⟨_, tells_reject p g v (hnodup h) origin reason hdocument,
      ackFree_rejectEvents v _ origin reason⟩
  waits _ _ _ _ h := hquiet h
    ⟨[], .keep (hnodup h) (List.append_nil _).symm rfl rfl (.inl rfl), ackFree_nil⟩
  notice peer revision reason hdocument h := by
    rw [send_eq]
    exact hquiet h ⟨_, tells_addressed p g v (hnodup h) peer revision reason hdocument,
      ackFree_addressed v _ peer rfl⟩
  resync peer h := by
    rw [sendDocument_eq]
    exact hquiet h ⟨_, tells_snapshotFor p g v (hnodup h) peer, ackFree_snapshotFor v _ peer⟩
  subscribe peer h := hquiet h (tells_subscribe p g v (hnodup h) peer)
  unsubscribe _ h := by
    refine hquiet h ⟨[], .of_nil ((hnodup h).filter _) (List.append_nil _).symm rfl
      fun copy hcopy => ⟨hcopy.1, fun hmem => hcopy.2 (List.mem_of_mem_filter hmem)⟩,
      ackFree_nil⟩
  turn _ _ _ h := hquiet h
    ⟨[], .keep (hnodup h) (List.append_nil _).symm rfl rfl (.inl rfl), ackFree_nil⟩
  opening d _ _ _ h := hquiet h (tells_opening p g v (hnodup h) d)
  close h := by
    have hkept := hnodup h
    exact hquiet h ⟨[], .of_nil hkept (List.append_nil _).symm rfl
      fun copy hcopy => ⟨hcopy.1, fun _ d hd => by cases hd⟩, ackFree_nil⟩

end Session

end LiterateSync
