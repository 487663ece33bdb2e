import LiterateSync.Proofs.Session.Backing
import LiterateSync.Proofs.Session.Consistency

namespace LiterateSync

/-- The revisions and the texts that are to be written, of some events. -/
def revisionsIn (events : List Event) : List (Nat × String) :=
  events.filterMap fun
    | .writeFile revision text => some (revision, text)
    | .send .. => none

@[simp] theorem revisionsIn_append (xs ys : List Event) :
    revisionsIn (xs ++ ys) = revisionsIn xs ++ revisionsIn ys :=
  List.filterMap_append

theorem revisionsIn_of_quiet {events : List Event} (h : Backing.Quiet events) :
    revisionsIn events = [] := by
  rw [revisionsIn, List.filterMap_eq_nil_iff]
  intro e he
  cases e with
  | send peer m => rfl
  | writeFile revision text => exact absurd he (h revision text)

/-- Whether some writes lead from a text up to a document: each is of a later revision than the one
    before, and the last one is of the document. -/
structure Document.WrittenBy (source : String) (writes : List (Nat × String)) (d : Document) :
    Prop where
  increasing : writes.Pairwise (·.1 < ·.1)
  le_revision : ∀ w ∈ writes, w.1 ≤ d.revision
  last : writes = [] ∧ d.text = source ∨ writes.getLast? = some (d.revision, d.text)

theorem Document.WrittenBy.concat {source : String} {writes : List (Nat × String)}
    {d next : Document} (h : d.WrittenBy source writes) (hnext : next.revision = d.revision + 1) :
    next.WrittenBy source (writes ++ [(next.revision, next.text)]) where
  increasing := by
    refine List.pairwise_append.2 ⟨h.increasing, List.pairwise_singleton .., ?_⟩
    intro w hw next' hnext'
    have hle := h.le_revision w hw
    rw [List.mem_singleton.1 hnext']
    omega
  le_revision := by
    refine List.forall_mem_append.2 ⟨fun w hw => ?_, by simp⟩
    have hle := h.le_revision w hw
    omega
  last := .inr List.getLast?_concat

namespace Session

open Backing (Quiet quiet_nil quiet_addressed quiet_snapshotFor quiet_rejectEvents)

/-- When nothing waits, there is nothing to settle. -/
theorem drain_idle {s : Session} (hqueue : s.queue = []) (hpending : s.pending = none)
    (hdocument : s.document.isSome) : s.drain = { s with phase := .synced } := by
  rw [drain_of_not_pending hpending hdocument, settled, hqueue, List.foldl_nil, ← hqueue]

/-- Whether a command comes from a peer, or from the clock. -/
def Command.IsOfPeer : Command → Prop
  | .message sender _ => sender ≠ .fileSystem
  | .viewEdit origin _ _ => origin ≠ .fileSystem
  | .localEdit .. | .tick _ => True
  | _ => False

/-- A session whose patches are all those of peers, in the middle of its work: nothing waits, and an
    acknowledgement that is outstanding comes with a text that is still to be written. What was
    written and what is to be written leads from the first text up to the document. -/
structure Underway (source : String) (log : List Event) (s : Session) : Prop where
  queue_nil : s.queue = []
  document : ∃ d, s.document = some d ∧ d.WrittenBy source (revisionsIn (log ++ s.events))
  outstanding : s.phase = .synced ∧ s.pending = none ∨ s.phase = .pendingAck ∧
    ∃ p revision text, s.pending = some p ∧ p.awaiting = .fileSystem ∧ p.revision ≤ revision ∧
      .writeFile revision text ∈ s.events

namespace Underway

variable {source : String} {log : List Event} {s t : Session}

theorem isSome_document (h : s.Underway source log) : s.document.isSome := by
  obtain ⟨d, hdoc, -⟩ := h.document
  simp [hdoc]

/-- When all is done, nothing is outstanding. -/
theorem synced (h : s.Underway source log) (hrest : s.events = []) :
    s.phase = .synced ∧ s.pending = none := by
  obtain hsynced | ⟨-, p, revision, text, -, -, -, hmem⟩ := h.outstanding
  · exact hsynced
  · rw [hrest] at hmem
    cases hmem

theorem openDocument (h : s.Underway source log) : ∃ d, s.openDocument = .ok d := by
  obtain ⟨d, hdoc, -⟩ := h.document
  refine ⟨d, openDocument_eq_ok_iff.2 ⟨hdoc, ?_⟩⟩
  obtain ⟨hphase, -⟩ | ⟨hphase, -⟩ := h.outstanding <;> simp [hphase]

/-- Messages and all that only concerns the peers make no difference. -/
theorem quiet (h : s.Underway source log) {events : List Event} (hquiet : Quiet events)
    (hqueue : t.queue = s.queue) (hdocument : t.document = s.document)
    (hphase : t.phase = s.phase) (hpending : t.pending = s.pending)
    (hevents : t.events = s.events ++ events) : t.Underway source log where
  queue_nil := hqueue.trans h.queue_nil
  document := by
    rw [hdocument, hevents, ← List.append_assoc, revisionsIn_append, revisionsIn_of_quiet hquiet,
      List.append_nil]
    exact h.document
  outstanding := by
    rw [hphase, hpending, hevents]
    refine h.outstanding.imp_right (And.imp_right ?_)
    rintro ⟨p, revision, text, hp, hawaiting, hle, hmem⟩
    exact ⟨p, revision, text, hp, hawaiting, hle, List.mem_append_left _ hmem⟩

theorem sendDocument (h : s.Underway source log) (peer : PeerId) :
    (s.sendDocument peer).Underway source log := by
  rw [sendDocument_eq]
  exact h.quiet (quiet_snapshotFor s peer) rfl rfl rfl rfl rfl

theorem reject (h : s.Underway source log) (origin : PeerId) (reason : SupersedeReason) :
    (s.reject origin reason).Underway source log := by
  rw [reject_eq]
  exact h.quiet (quiet_rejectEvents s origin reason) rfl rfl rfl rfl rfl

theorem subscribe (h : s.Underway source log) (peer : PeerId) :
    (s.subscribe peer).Underway source log := by
  rw [Session.subscribe]
  split
  · exact h
  · have hmore : Underway source log { s with subscribers := insertPeer peer s.subscribers } :=
      h.quiet quiet_nil rfl rfl rfl rfl (List.append_nil _).symm
    exact hmore.sendDocument peer

theorem unsubscribe (h : s.Underway source log) (peer : PeerId) :
    (s.unsubscribe peer).Underway source log :=
  h.quiet quiet_nil rfl rfl rfl rfl (List.append_nil _).symm

/-- The new text of a document is to be written behind what was to be written before. -/
theorem writtenBy_commit {d next : Document} {before after : List Event}
    (hwritten : d.WrittenBy source (revisionsIn (log ++ s.events)))
    (hrevision : next.revision = d.revision + 1) (hbefore : Quiet before) (hafter : Quiet after) :
    next.WrittenBy source (revisionsIn (log ++
      (s.events ++ (before ++ [.writeFile next.revision next.text] ++ after)))) := by
  have hrevisions : revisionsIn (log ++
      (s.events ++ (before ++ [.writeFile next.revision next.text] ++ after))) =
      revisionsIn (log ++ s.events) ++ [(next.revision, next.text)] := by
    simp only [revisionsIn_append, revisionsIn_of_quiet hbefore, revisionsIn_of_quiet hafter,
      List.nil_append, List.append_nil, List.append_assoc]
    rfl
  rw [hrevisions]
  exact hwritten.concat hrevision

theorem process (h : s.Underway source log) {sub : Submission}
    (hpeer : sub.origin ≠ .fileSystem) : (s.process sub).Underway source log := by
  obtain ⟨d, hdoc, hwritten⟩ := h.document
  cases hreconcile : s.reconcile d sub.origin sub.patch with
  | error e =>
    rw [process_of_error hdoc hreconcile]
    exact h.reject sub.origin e.reason
  | ok result =>
    obtain ⟨carried, next⟩ := result
    obtain ⟨before, after, hbefore, hafter, hevents⟩ := Backing.acceptEvents_parts s sub carried next
    rw [if_neg hpeer] at hevents
    have hrevision := (revision_of_apply (apply_of_reconcile hreconcile)).2
    rw [process_of_ok hdoc hreconcile, hevents]
    refine ⟨h.queue_nil, ⟨next, rfl, writtenBy_commit hwritten hrevision hbefore hafter⟩, ?_⟩
    refine h.outstanding.imp_right (And.imp_right ?_)
    rintro ⟨p, revision, text, hp, hawaiting, hle, hmem⟩
    exact ⟨p, revision, text, hp, hawaiting, hle, List.mem_append_left _ hmem⟩

/-- When all is done, a patch does not wait. -/
theorem enqueue (h : s.Underway source log) (hrest : s.events = []) {sub : Submission}
    (hpeer : sub.origin ≠ .fileSystem) (heq : s.enqueue sub = .ok t) : t.Underway source log := by
  obtain ⟨hphase, hpending⟩ := h.synced hrest
  obtain ⟨-, -, ⟨hsome, -⟩ | ⟨-, rfl⟩⟩ := enqueue_eq_ok heq
  · simp [hpending] at hsome
  · have hsame : (s.process sub).phase = .synced := (settles_process s sub).phase_eq.trans hphase
    rw [drain_of_queue_nil h.queue_nil hpending h.isSome_document]
    exact (h.process hpeer).quiet quiet_nil rfl rfl hsame.symm rfl (List.append_nil _).symm

theorem localEdit (h : s.Underway source log) {now revision : Nat} {patch : Patch}
    (heq : s.localEdit now patch = .ok (t, revision)) : t.Underway source log := by
  obtain ⟨current, next, hopen, -, happly, -, rfl⟩ := localEdit_eq_ok heq
  obtain ⟨d, hdoc, hwritten⟩ := h.document
  have hsame : current = d :=
    Option.some.inj ((openDocument_eq_ok_iff.1 hopen).1.symm.trans hdoc)
  subst hsame
  obtain ⟨before, hbefore, hevents⟩ := Backing.commitEvents_parts s .local patch next
  rw [if_neg (by decide)] at hevents
  have hafter := writtenBy_commit hwritten (revision_of_apply happly).2 hbefore quiet_nil
  rw [List.append_nil] at hafter
  rw [commit_eq hdoc, hevents]
  exact ⟨h.queue_nil, ⟨next, rfl, hafter⟩,
    .inr ⟨rfl, _, next.revision, next.text, rfl, rfl, Nat.le_refl _, by simp⟩⟩

theorem message (h : s.Underway source log) (hrest : s.events = []) {sender : PeerId}
    (hpeer : sender ≠ .fileSystem) {m : Message} (heq : s.handle sender m = .ok t) :
    t.Underway source log := by
  rw [handle] at heq
  split at heq
  · cases heq
    exact h
  · split at heq
    · exact h.enqueue hrest hpeer heq
    · obtain rfl | ⟨p, hp, -⟩ := ack_eq_ok heq
      · exact h
      · rw [(h.synced hrest).2] at hp
        cases hp
    · rw [resync_eq_ok heq]
      exact h.sendDocument sender
    · cases heq
      exact h

theorem viewEdit [RegexLibrary] (h : s.Underway source log) (hrest : s.events = [])
    {origin : PeerId} (hpeer : origin ≠ .fileSystem) {base : Nat} {view : List ViewBlock}
    (heq : s.viewEdit origin base view = .ok t) : t.Underway source log := by
  obtain ⟨-, -, ⟨-, rfl⟩ | ⟨shown, candidate, -, -, (rfl | rfl) | henqueue⟩⟩ := viewEdit_eq_ok heq
  · exact h.reject origin _
  · exact h
  · exact h.sendDocument origin
  · exact h.enqueue hrest hpeer henqueue

theorem settle (h : s.Underway source log) {result : Except SessionError Session}
    (hresult : ∀ t, result = .ok t → t.Underway source log) :
    (s.settle result).1.Underway source log := by
  cases result with
  | ok t => exact hresult t rfl
  | error e => exact h

theorem step [RegexLibrary] (h : s.Underway source log) (hrest : s.events = []) {c : Command}
    (hc : c.IsOfPeer) : (s.step c).1.Underway source log := by
  cases c with
  | message sender m => exact h.settle fun t heq => h.message hrest hc heq
  | viewEdit origin base view => exact h.settle fun t heq => h.viewEdit hrest hc heq
  | localEdit now patch =>
    rw [Session.step]
    split
    · exact h.localEdit ‹_›
    · exact h
  | tick now =>
    change (s.tick now).1.Underway source log
    obtain heq | ⟨p, hp, -⟩ := tick_cases s now
    · rw [heq]
      exact h
    · rw [(h.synced hrest).2] at hp
      cases hp
  | beginOpen | finishOpen | openText | close | subscribe | unsubscribe | resync | submit | ack |
    fileChanged => exact hc.elim

end Underway

end Session

end LiterateSync
