import LiterateSync.Proofs.Session.Commands
import LiterateSync.Proofs.Session.History
import LiterateSync.Proofs.Session.Outgoing
import LiterateSync.Session.Pending

namespace LiterateSync.Session

/-- The history of a session replays up to its document, and is not longer than it may be. -/
structure Recorded (s : Session) : Prop where
  replays : ∀ d ∈ s.document, Replays s.history d
  length_le : s.history.length ≤ s.config.historyDepth
  nil_of_none : s.document = none → s.history = []

/-- A patch that is added to the history leads to the new document. -/
theorem Recorded.record {s : Session} (h : s.Recorded) {current next : Document}
    (hdoc : s.document = some current) {patch : Patch} (happly : current.apply patch = .ok next)
    (origin : PeerId) {t : Session} (hnext : t.document = some next)
    (hhistory : t.history =
      keepLast s.config.historyDepth (s.history ++ [⟨origin, current, patch⟩]))
    (hconfig : t.config = s.config) : t.Recorded := by
  refine ⟨fun d hd => ?_, ?_, fun hnone => ?_⟩
  · rw [hnext, Option.mem_some] at hd
    subst hd
    rw [hhistory]
    exact replays_keepLast _ ((h.replays current hdoc).append happly)
  · rw [hhistory, hconfig]
    exact length_keepLast_le _ _
  · rw [hnext] at hnone
    cases hnone

theorem Recorded.congr {s t : Session} (h : s.Recorded) (hdocument : t.document = s.document)
    (hhistory : t.history = s.history) (hconfig : t.config = s.config) : t.Recorded :=
  ⟨by rw [hdocument, hhistory]; exact h.replays, by rw [hhistory, hconfig]; exact h.length_le,
    by rw [hdocument, hhistory]; exact h.nil_of_none⟩

theorem apply_of_reconcile {s : Session} {current next : Document} {origin : PeerId}
    {patch : Patch} {carried : Carried}
    (h : s.reconcile current origin patch = .ok (carried, next)) :
    current.apply carried.patch = .ok next := by
  rw [reconcile] at h
  split at h
  · cases h
  · split at h
    · cases h
    · rename_i happly
      cases h
      exact happly

/-- A patch from before the current document is carried over a history that is kept. -/
theorem historyDepth_pos {s : Session} (h : s.Recorded) {current : Document} {origin : PeerId}
    {patch : Patch} {result : Carried × Document} (hstale : patch.base < current.revision)
    (hreconcile : s.reconcile current origin patch = .ok result) : 0 < s.config.historyDepth := by
  refine Nat.pos_of_ne_zero fun hzero => ?_
  have hnil : s.history = [] :=
    List.eq_nil_of_length_eq_zero (Nat.le_zero.1 (hzero ▸ h.length_le))
  simp [reconcile, carryToCurrent, hstale, hnil, historyFrom] at hreconcile

/-- What settling a submission cannot change, and that it keeps the history in order. -/
structure Settles (s t : Session) : Prop where
  recorded : s.Recorded → t.Recorded
  isSome_document : t.document.isSome = s.document.isSome
  phase_eq : t.phase = s.phase
  pending_eq : t.pending = s.pending
  queue_eq : t.queue = s.queue
  config_eq : t.config = s.config

theorem Settles.refl (s : Session) : s.Settles s :=
  ⟨fun h => h, rfl, rfl, rfl, rfl, rfl⟩

theorem Settles.trans {s t u : Session} (hst : s.Settles t) (htu : t.Settles u) : s.Settles u where
  recorded h := htu.recorded (hst.recorded h)
  isSome_document := htu.isSome_document.trans hst.isSome_document
  phase_eq := htu.phase_eq.trans hst.phase_eq
  pending_eq := htu.pending_eq.trans hst.pending_eq
  queue_eq := htu.queue_eq.trans hst.queue_eq
  config_eq := htu.config_eq.trans hst.config_eq

theorem settles_process (s : Session) (sub : Submission) : s.Settles (s.process sub) := by
  cases hdoc : s.document with
  | none =>
    rw [process_of_document_none hdoc]
    exact .refl s
  | some current =>
    cases hreconcile : s.reconcile current sub.origin sub.patch with
    | error e =>
      rw [process_of_error hdoc hreconcile, reject_eq]
      exact ⟨fun h => ⟨h.replays, h.length_le, h.nil_of_none⟩, rfl, rfl, rfl, rfl, rfl⟩
    | ok result =>
      obtain ⟨carried, next⟩ := result
      rw [process_of_ok hdoc hreconcile]
      refine ⟨fun h => ?_, by simp [hdoc], rfl, rfl, rfl, rfl⟩
      exact h.record hdoc (apply_of_reconcile hreconcile) sub.origin rfl rfl rfl

theorem settles_foldl (s : Session) (subs : List Submission) :
    s.Settles (subs.foldl process s) := by
  induction subs generalizing s with
  | nil => exact .refl s
  | cons sub subs ih => exact (settles_process s sub).trans (ih (s.process sub))

theorem queue_foldl_process {s : Session} (h : s.queue = []) (subs : List Submission) :
    (subs.foldl process s).queue = [] :=
  (settles_foldl s subs).queue_eq.trans h

/-- The session with its queue settled, whatever is outstanding. -/
def settled (s : Session) : Session :=
  s.queue.foldl process { s with queue := [] }

theorem drain_of_not_pending {s : Session} (hpending : s.pending = none)
    (hdocument : s.document.isSome) : s.drain = { s.settled with phase := .synced } := by
  have hsome : s.settled.document.isSome = true :=
    (settles_foldl { s with queue := [] } s.queue).isSome_document.trans hdocument
  rw [drain, if_neg (by simp [hpending])]
  exact if_pos hsome

/-- A submission for which nothing has to be waited is settled at once. -/
theorem drain_of_queue_nil {s : Session} (hqueue : s.queue = []) (hpending : s.pending = none)
    (hdocument : s.document.isSome) (sub : Submission) :
    { s with queue := s.queue ++ [sub] }.drain = { s.process sub with phase := .synced } := by
  have hempty : { s with queue := [] } = s := by rw [← hqueue]
  rw [drain_of_not_pending (s := { s with queue := s.queue ++ [sub] }) hpending hdocument, settled]
  simp only [hqueue, List.nil_append, hempty, List.foldl_cons, List.foldl_nil]

/-- What holds of a session between two commands. -/
structure Consistent (s : Session) : Prop where
  document_iff : s.document.isSome ↔
    s.phase = .synced ∨ s.phase = .pendingAck ∨ s.phase = .conflict
  pending_iff : s.pending.isSome ↔ s.phase = .pendingAck ∨ s.phase = .conflict
  queue_nil : s.pending = none → s.queue = []
  /-- A patch from before the current revision waits in the conflict phase. -/
  stale_waits : s.phase = .conflict →
    ∃ d ∈ s.document, ∃ sub ∈ s.queue, sub.patch.base < d.revision
  history_length_le : s.history.length ≤ s.config.historyDepth
  /-- The documents of the history have the revisions in front of the current one. -/
  revisions : ∀ d ∈ s.document, s.history.length ≤ d.revision ∧
    s.history.map (·.before.revision) =
      List.range' (d.revision - s.history.length) s.history.length
  /-- Applying the patches of the history again gives each document after the one before. -/
  replays : ∀ d ∈ s.document, Replays s.history d
  /-- Without a document there is nothing that could wait or be carried over. -/
  nil_of_none : s.document = none → s.queue = [] ∧ s.history = [] ∧ s.pending = none

theorem Consistent.recorded {s : Session} (h : s.Consistent) : s.Recorded :=
  ⟨h.replays, h.history_length_le, fun hnone => (h.nil_of_none hnone).2.1⟩

/-- Sessions that agree in their phase and in what they work on are consistent together. -/
theorem Consistent.congr {s t : Session} (h : s.Consistent) (hphase : t.phase = s.phase)
    (hdocument : t.document = s.document) (hpending : t.pending = s.pending)
    (hqueue : t.queue = s.queue) (hhistory : t.history = s.history)
    (hconfig : t.config = s.config) : t.Consistent := by
  obtain ⟨id, config, phase, document, subscribers, queue, history, pending⟩ := t
  dsimp only at hphase hdocument hpending hqueue hhistory hconfig
  subst hphase hdocument hpending hqueue hhistory hconfig
  exact ⟨h.document_iff, h.pending_iff, h.queue_nil, h.stale_waits, h.history_length_le,
    h.revisions, h.replays, h.nil_of_none⟩

theorem Consistent.emitAll {s : Session} (h : s.Consistent) (events : List Event) :
    (s.emitAll events).Consistent :=
  h.congr rfl rfl rfl rfl rfl rfl

theorem Consistent.openDocument {s : Session} {d : Document} (h : s.Consistent)
    (hdoc : s.document = some d) : s.openDocument = .ok d := by
  have hphase := h.document_iff.1 (by simp [hdoc])
  refine openDocument_eq_ok_iff.2 ⟨hdoc, ?_⟩
  rcases hphase with hphase | hphase | hphase <;> simp [hphase]

/-- A text that can be cut into segments is never refused. -/
theorem exists_fileChanged [RegexLibrary] {s : Session} {d candidate : Document} {text : String}
    (h : s.Consistent) (hdoc : s.document = some d)
    (hcandidate : Document.openWith d.profile (.seeded "fs") text = .ok candidate) :
    ∃ t, s.fileChanged text = .ok t := by
  have hopen := h.openDocument hdoc
  have henqueue : ∀ sub, ∃ t, s.enqueue sub = .ok t := fun sub => by
    rw [enqueue, hopen]
    exact ⟨_, rfl⟩
  rw [fileChanged, hopen]
  simp only [bind, Except.bind, hcandidate]
  split
  · exact ⟨s, rfl⟩
  · split
    · exact ⟨s, rfl⟩
    · exact henqueue _

/-- A session with a document and nothing outstanding is consistent. -/
theorem Recorded.consistent_synced {s : Session} (h : s.Recorded) (hphase : s.phase = .synced)
    (hdocument : s.document.isSome) (hpending : s.pending = none) (hqueue : s.queue = []) :
    s.Consistent := by
  refine ⟨by simp [hphase, hdocument], by simp [hpending, hphase], fun _ => hqueue,
    by simp [hphase], h.length_le, fun d hd => (h.replays d hd).revisions, h.replays,
    fun hnone => ?_⟩
  simp [hnone] at hdocument

theorem Recorded.consistent_drain {s : Session} (h : s.Recorded)
    (hdocument : s.document.isSome) (hpending : s.pending = none) : s.drain.Consistent := by
  have hsettled := settles_foldl { s with queue := [] } s.queue
  have hrecorded : s.settled.Recorded := hsettled.recorded ⟨h.replays, h.length_le, h.nil_of_none⟩
  rw [drain_of_not_pending hpending hdocument]
  exact Recorded.consistent_synced ⟨hrecorded.replays, hrecorded.length_le, hrecorded.nil_of_none⟩
    rfl (hsettled.isSome_document.trans hdocument) (hsettled.pending_eq.trans hpending)
    hsettled.queue_eq

theorem consistent_new (id : SessionId) (config : SyncConfig) : (new id config).Consistent := by
  refine ⟨by simp [new], by simp [new], fun _ => rfl, by simp [new], Nat.zero_le _, by simp [new],
    by simp [new], fun _ => ⟨rfl, rfl, rfl⟩⟩

end LiterateSync.Session
