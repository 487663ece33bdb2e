import LiterateSync.Proofs.Session.Always

namespace LiterateSync

/-- The source of names has no part in what becomes of the blocks. -/
theorem Document.exists_applyOps_of_ids {ops : List PatchOp} {blocks result : List Block}
    {g h : IdSource} (k : IdSource) (happly : applyOps ops blocks g = .ok (result, h)) :
    ∃ last, applyOps ops blocks k = .ok (result, last) := by
  induction ops generalizing blocks g k with
  | nil =>
    cases happly
    exact ⟨k, rfl⟩
  | cons op ops ih =>
    obtain ⟨next, hop, hrest⟩ := applyOps_cons_eq_ok_iff.1 happly
    rw [applyOps_cons_of_ok k hop]
    exact ih _ hrest

/-- A peer's own copy of the document. -/
inductive Replica where
  /-- The peer has been told nothing yet. -/
  | blank
  | holding (copy : Document)
  /-- The peer was told something that it could not make use of. -/
  | lost
  deriving DecidableEq, Repr

namespace Replica

/-- The copy after a message. A whole document replaces it, and a patch is applied to it. The peer
    has its own profile and its own source of names. -/
def receive (p : Profile) (g : IdSource) : Replica → MessageBody → Replica
  | .lost, _ => .lost
  | _, .fullDocument (some snapshot) => .holding ⟨snapshot.blocks, snapshot.revision, p, g⟩
  | .blank, _ => .lost
  | .holding copy, .patch patch =>
    match copy.apply patch with
    | .ok next => .holding next
    | .error _ => .lost
  | .holding copy, _ => .holding copy

/-- The copy after all that the peer was told. -/
def after (p : Profile) (g : IdSource) (bodies : List MessageBody) : Replica :=
  bodies.foldl (receive p g) .blank

/-- Whether a copy has the blocks and the revision of a document. -/
def Shows (r : Replica) (d : Document) : Prop :=
  ∃ copy, r = .holding copy ∧ copy.blocks = d.blocks ∧ copy.revision = d.revision

variable {p : Profile} {g : IdSource} {r : Replica} {d next : Document}

theorem after_append (xs ys : List MessageBody) :
    after p g (xs ++ ys) = ys.foldl (receive p g) (after p g xs) :=
  List.foldl_append

theorem foldl_receive_lost (bodies : List MessageBody) :
    bodies.foldl (receive p g) .lost = .lost := by
  induction bodies with
  | nil => rfl
  | cons body bodies ih => exact ih

/-- A copy that is not lost in the end was not lost on the way. -/
theorem ne_lost_of_append {xs ys : List MessageBody} (h : after p g (xs ++ ys) ≠ .lost) :
    after p g xs ≠ .lost := by
  intro hlost
  rw [after_append, hlost, foldl_receive_lost] at h
  exact h rfl

theorem exists_fullDocument_of_ne_lost {body : MessageBody} {bodies : List MessageBody}
    (h : after p g (body :: bodies) ≠ .lost) :
    ∃ snapshot, body = .fullDocument (some snapshot) := by
  have hparts : after p g ([body] ++ bodies) ≠ .lost := h
  have hfirst : receive p g .blank body ≠ .lost := ne_lost_of_append hparts
  cases body with
  | fullDocument snapshot =>
    cases snapshot with
    | none => exact absurd rfl hfirst
    | some snapshot => exact ⟨snapshot, rfl⟩
  | patch patch => exact absurd rfl hfirst
  | ack revision => exact absurd rfl hfirst
  | superseded revision reason => exact absurd rfl hfirst

/-- A patch that leaves a copy could be applied to it. -/
theorem exists_apply_of_receive_ne_lost {patch : Patch} (h : receive p g r (.patch patch) ≠ .lost) :
    ∃ copy next, r = .holding copy ∧ copy.apply patch = .ok next := by
  cases r with
  | blank => exact absurd rfl h
  | lost => exact absurd rfl h
  | holding copy =>
    cases happly : copy.apply patch with
    | ok next => exact ⟨copy, next, rfl, happly⟩
    | error e => simp [receive, happly] at h

theorem exists_apply_of_ne_lost {front back : List MessageBody} {patch : Patch}
    (h : after p g (front ++ .patch patch :: back) ≠ .lost) :
    ∃ copy next, after p g front = .holding copy ∧ copy.apply patch = .ok next := by
  rw [List.append_cons] at h
  have hpatch := ne_lost_of_append h
  rw [after_append, List.foldl_cons, List.foldl_nil] at hpatch
  exact exists_apply_of_receive_ne_lost hpatch

theorem Shows.ne_lost (h : r.Shows d) : r ≠ .lost := by
  obtain ⟨copy, rfl, -⟩ := h
  simp

theorem shows_receive_snapshot (hkept : r ≠ .lost) (d : Document) :
    (receive p g r (.fullDocument (some d.snapshot))).Shows d := by
  cases r with
  | lost => exact absurd rfl hkept
  | blank => exact ⟨_, rfl, rfl, rfl⟩
  | holding copy => exact ⟨_, rfl, rfl, rfl⟩

/-- A patch makes of equal blocks equal blocks, whatever the sources of names are. -/
theorem Shows.receive_patch (h : r.Shows d) {patch : Patch} (happly : d.apply patch = .ok next) :
    (receive p g r (.patch patch)).Shows next := by
  obtain ⟨copy, rfl, hblocks, hrevision⟩ := h
  obtain ⟨hbase, blocks, ids, hops, rfl⟩ := Document.apply_eq_ok_iff.1 happly
  obtain ⟨ids', hops'⟩ := Document.exists_applyOps_of_ids copy.ids hops
  rw [← hblocks] at hops'
  have hcopy : copy.apply patch =
      .ok { copy with blocks, revision := copy.revision + 1, ids := ids' } :=
    Document.apply_eq_ok_iff.2 ⟨hbase.trans hrevision.symm, _, _, hops', rfl⟩
  refine ⟨{ copy with blocks, revision := copy.revision + 1, ids := ids' }, ?_, rfl, ?_⟩
  · simp only [receive, hcopy]
  · exact congrArg (· + 1) hrevision

theorem Shows.receive_superseded (h : r.Shows d) (revision : Nat) (reason : SupersedeReason) :
    (receive p g r (.superseded revision reason)).Shows d := by
  obtain ⟨copy, rfl, hcopy⟩ := h
  exact ⟨copy, rfl, hcopy⟩

/-- Notices and snapshots of the document leave a copy that shows the document as it is. -/
theorem Shows.foldl (h : r.Shows d) {bodies : List MessageBody}
    (hbodies : ∀ body ∈ bodies, (∃ revision reason, body = .superseded revision reason) ∨
      body = .fullDocument (some d.snapshot)) :
    (bodies.foldl (receive p g) r).Shows d := by
  induction bodies generalizing r with
  | nil => exact h
  | cons body bodies ih =>
    have hrest : ∀ other ∈ bodies, _ := fun other hother =>
      hbodies other (List.mem_cons_of_mem body hother)
    obtain ⟨revision, reason, rfl⟩ | rfl := hbodies body List.mem_cons_self
    · exact ih (h.receive_superseded revision reason) hrest
    · exact ih (shows_receive_snapshot h.ne_lost d) hrest

end Replica

/-- Whether a message tells a peer that a patch of its own is in the document. -/
def MessageBody.isAck : MessageBody → Bool
  | .ack _ => true
  | _ => false

/-- Whether none of some messages is an acknowledgement. -/
def AckFree (bodies : List MessageBody) : Prop :=
  ∀ body ∈ bodies, body.isAck = false

instance (bodies : List MessageBody) : Decidable (AckFree bodies) :=
  inferInstanceAs (Decidable (∀ body ∈ bodies, body.isAck = false))

theorem ackFree_nil : AckFree [] := by simp [AckFree]

theorem ackFree_cons {body : MessageBody} {bodies : List MessageBody} :
    AckFree (body :: bodies) ↔ body.isAck = false ∧ AckFree bodies :=
  List.forall_mem_cons

theorem ackFree_append {xs ys : List MessageBody} :
    AckFree (xs ++ ys) ↔ AckFree xs ∧ AckFree ys :=
  List.forall_mem_append

namespace Replica

/-- Whether a copy can make use of some messages in order. A peer whose own patch is acknowledged
    has more than it was told, so that nothing is asked of what comes after. -/
def Takes (p : Profile) (g : IdSource) : Replica → List MessageBody → Prop
  | _, [] => True
  | r, body :: bodies =>
    receive p g r body ≠ .lost ∧ (body.isAck = false → Takes p g (receive p g r body) bodies)

/-- Whether a copy can go with a session: it is not lost, and it is the document as long as the
    peer subscribes. -/
def Follows (r : Replica) (v : PeerId) (s : Session) : Prop :=
  r ≠ .lost ∧ (v ∈ s.subscribers → ∀ d ∈ s.document, r.Shows d)

variable {p : Profile} {g : IdSource} {r : Replica} {v : PeerId} {s t : Session} {d : Document}

theorem takes_append {xs ys : List MessageBody} :
    Takes p g r (xs ++ ys) ↔
      Takes p g r xs ∧ (AckFree xs → Takes p g (xs.foldl (receive p g) r) ys) := by
  induction xs generalizing r with
  | nil => simp [Takes, AckFree]
  | cons body xs ih =>
    simp only [List.cons_append, Takes, List.foldl_cons, ackFree_cons, ih]
    tauto

theorem Takes.of_prefix {xs ys : List MessageBody} (h : Takes p g r ys) (hxs : xs <+: ys) :
    Takes p g r xs := by
  obtain ⟨rest, rfl⟩ := hxs
  exact (takes_append.1 h).1

theorem Takes.of_ne_lost {bodies : List MessageBody}
    (h : bodies.foldl (receive p g) r ≠ .lost) : Takes p g r bodies := by
  induction bodies generalizing r with
  | nil => trivial
  | cons body bodies ih =>
    refine ⟨fun hlost => h ?_, fun _ => ih h⟩
    rw [List.foldl_cons, hlost, foldl_receive_lost]

/-- A peer that was told nothing before is told the document first. -/
theorem Takes.exists_fullDocument {body : MessageBody} {bodies : List MessageBody}
    (h : Takes p g .blank (body :: bodies)) : ∃ snapshot, body = .fullDocument (some snapshot) := by
  have hfirst : after p g [body] ≠ .lost := h.1
  exact exists_fullDocument_of_ne_lost hfirst

theorem Takes.exists_apply {front back : List MessageBody} {patch : Patch}
    (h : Takes p g r (front ++ .patch patch :: back)) (hfree : AckFree front) :
    ∃ copy next, front.foldl (receive p g) r = .holding copy ∧ copy.apply patch = .ok next :=
  exists_apply_of_receive_ne_lost ((takes_append.1 h).2 hfree).1

theorem Shows.receive_ack (h : r.Shows d) (revision : Nat) :
    (receive p g r (.ack revision)).Shows d := by
  obtain ⟨copy, rfl, hcopy⟩ := h
  exact ⟨copy, rfl, hcopy⟩

theorem Shows.follows (h : r.Shows d) (hdoc : t.document = some d) : r.Follows v t := by
  refine ⟨h.ne_lost, fun _ e he => ?_⟩
  rw [hdoc, Option.mem_some] at he
  exact he ▸ h

end Replica

end LiterateSync
