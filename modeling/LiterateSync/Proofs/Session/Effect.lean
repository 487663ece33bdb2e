import LiterateSync.Proofs.Session.Backing
import LiterateSync.Proofs.Session.Invariant

namespace LiterateSync.Session

open Backing (OfPeers Quiet ofPeers_nil quiet_nil quiet_addressed quiet_snapshotFor
  quiet_rejectEvents)

/-- What a command other than a save can do to the document, to the queue and to the file. The
    things that are to be done before it have all been carried out. The patches that it puts in the
    queue are those of peers, unless they are submitted in the name of the file. -/
inductive Effect (asFile : Prop) (s : Session) (t : Session) : Prop where
  /-- Nothing is written, and patches are put in the queue at most. -/
  | quiet (more : List Submission) (hmore : ¬ asFile → OfPeers more)
      (hdoc : t.document = s.document) (hhistory : t.history = s.history)
      (hconfig : t.config = s.config) (hqueue : t.queue = s.queue ++ more) (hquiet : Quiet t.events)
  /-- The queue is settled, with other patches behind it. -/
  | settled (d : Document) (start last : Session) (more : List Submission)
      (hmore : ¬ asFile → OfPeers more) (hdoc : s.document = some d)
      (hsame : start.document = some d) (hhistory : start.history = s.history)
      (hconfig : start.config = s.config) (hempty : start.queue = []) (hquiet : Quiet start.events)
      (hlast : (s.queue ++ more).foldl process start = last)
      (heq : t = { last with phase := .synced })
  /-- A patch is applied and written while nothing waits. -/
  | written (d next : Document) (hdoc : s.document = some d) (happly : t.document = some next)
      (hrevision : next.revision = d.revision + 1) (hqueue : t.queue = []) (before : List Event)
      (hevents : t.events = before ++ [.writeFile next.revision next.text])

variable {s t : Session} {asFile : Prop}

namespace Effect

theorem emitAll (hnil : s.events = []) {events : List Event} (hquiet : Quiet events)
    (hdoc : t.document = s.document) (hhistory : t.history = s.history)
    (hconfig : t.config = s.config) (hqueue : t.queue = s.queue)
    (hevents : t.events = s.events ++ events) : s.Effect asFile t := by
  refine .quiet [] (fun _ => ofPeers_nil) hdoc hhistory hconfig ?_ ?_
  · rw [hqueue, List.append_nil]
  · rw [hevents, hnil]
    exact hquiet

theorem refl (hnil : s.events = []) : s.Effect asFile s :=
  .emitAll hnil quiet_nil rfl rfl rfl rfl (List.append_nil _).symm

theorem enqueue (hnil : s.events = []) {sub : Submission} (heq : s.enqueue sub = .ok t) :
    s.Effect (sub.origin = .fileSystem) t := by
  have hmore : ¬ sub.origin = .fileSystem → OfPeers [sub] := by simp [OfPeers]
  have hquiet : Quiet s.events := hnil ▸ quiet_nil
  obtain ⟨d, hopen, ⟨-, rfl⟩ | ⟨hpending, rfl⟩⟩ := enqueue_eq_ok heq
  · exact .quiet [sub] hmore rfl rfl rfl rfl hquiet
  · have hdoc := (openDocument_eq_ok_iff.1 hopen).1
    have hdrain := drain_of_not_pending (s := { s with queue := s.queue ++ [sub] }) hpending
      (by simp [hdoc])
    exact .settled d { s with queue := [] } _ [sub] hmore hdoc hdoc rfl rfl rfl hquiet
      rfl hdrain

/-- The end of an outstanding acknowledgement, with messages at most put out before. -/
theorem drain (h : s.Consistent) (hnil : s.events = []) (hpending : s.pending.isSome)
    {events : List Event} (hquiet : Quiet events) :
    s.Effect asFile ({ s with pending := none }.emitAll events).drain := by
  obtain ⟨d, hdoc⟩ := Option.isSome_iff_exists.1 (h.isSome_document hpending)
  have hdrain := drain_of_not_pending (s := { s with pending := none }.emitAll events) rfl
    (by simp [Session.emitAll, hdoc])
  refine .settled d { { s with pending := none }.emitAll events with queue := [] } _ []
    (fun _ => ofPeers_nil) hdoc hdoc rfl rfl rfl ?_ (by rw [List.append_nil]; rfl) hdrain
  rw [Session.emitAll, hnil]
  exact hquiet

variable [RegexLibrary]

theorem submit (hnil : s.events = []) (origin : PeerId) (patch : Patch) :
    s.Effect (origin = .fileSystem) (s.step (.submit origin patch)).1 := by
  cases hresult : s.submit origin patch with
  | error e =>
    rw [step, hresult]
    exact .refl hnil
  | ok t =>
    rw [step, hresult]
    exact .enqueue hnil hresult

theorem viewEdit (hnil : s.events = []) (origin : PeerId) (base : Nat) (view : List ViewBlock) :
    s.Effect (origin = .fileSystem) (s.step (.viewEdit origin base view)).1 := by
  cases hresult : s.viewEdit origin base view with
  | error e =>
    rw [step, hresult]
    exact .refl hnil
  | ok t =>
    rw [step, hresult]
    obtain ⟨current, -, ⟨-, rfl⟩ | ⟨shown, candidate, -, -, (rfl | rfl) | henqueue⟩⟩ :=
      viewEdit_eq_ok hresult
    · rw [reject_eq]
      exact .emitAll hnil (quiet_rejectEvents s origin _) rfl rfl rfl rfl rfl
    · exact .refl hnil
    · rw [sendDocument_eq]
      exact .emitAll hnil (quiet_snapshotFor s origin) rfl rfl rfl rfl rfl
    · exact .enqueue hnil henqueue

theorem localEdit (h : s.Consistent) (hnil : s.events = []) (now : Nat) (patch : Patch) :
    s.Effect asFile (s.step (.localEdit now patch)).1 := by
  cases hresult : s.localEdit now patch with
  | error e =>
    rw [step, hresult]
    exact .refl hnil
  | ok result =>
    obtain ⟨t, revision⟩ := result
    rw [step, hresult]
    obtain ⟨current, next, hopen, hphase, happly, -, rfl⟩ := localEdit_eq_ok hresult
    have hdoc := (openDocument_eq_ok_iff.1 hopen).1
    have hidle := h.pending_eq_none hphase
    obtain ⟨before, hbefore, hevents⟩ := Backing.commitEvents_parts s .local patch next
    rw [if_neg (by decide)] at hevents
    rw [commit_eq hdoc, hevents]
    exact .written current next hdoc rfl (revision_of_apply happly).2 (h.queue_nil hidle)
      (s.events ++ before) (List.append_assoc _ _ _).symm

theorem ack (h : s.Consistent) (hnil : s.events = []) (peer : PeerId) (revision : Nat) :
    s.Effect asFile (s.step (.ack peer revision)).1 := by
  cases hresult : s.ack peer revision with
  | error e =>
    rw [step, hresult]
    exact .refl hnil
  | ok t =>
    rw [step, hresult]
    obtain rfl | ⟨p, hpending, -, -, rfl⟩ := ack_eq_ok hresult
    · exact .refl hnil
    · have heffect : s.Effect asFile ({ s with pending := none }.emitAll []).drain :=
        .drain h hnil (by simp [hpending]) quiet_nil
      rw [emitAll_nil] at heffect
      exact heffect

theorem tick (h : s.Consistent) (hnil : s.events = []) (now : Nat) :
    s.Effect asFile (s.step (.tick now)).1 := by
  change s.Effect asFile (s.tick now).1
  obtain heq | ⟨p, hpending, heq⟩ := tick_cases s now
  · rw [heq]
    exact .refl hnil
  · rw [heq, send_eq]
    exact .drain h hnil (by simp [hpending]) (quiet_addressed _ _ _)

end Effect

end LiterateSync.Session
