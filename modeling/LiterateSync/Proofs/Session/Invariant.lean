import LiterateSync.Proofs.Session.Consistency

namespace LiterateSync.Session

variable {s t : Session}

namespace Consistent

/-- The phases without a document have nothing to work on at all. -/
theorem nil_of_phase (h : s.Consistent)
    (hphase : s.phase = .idle ∨ s.phase = .loading ∨ s.phase = .closed) :
    s.document = none ∧ s.queue = [] ∧ s.history = [] ∧ s.pending = none := by
  have hnone : s.document = none := by
    rw [← Option.not_isSome_iff_eq_none, h.document_iff]
    rcases hphase with hphase | hphase | hphase <;> simp [hphase]
  exact ⟨hnone, h.nil_of_none hnone⟩

/-- Something can be outstanding only for a document. -/
theorem isSome_document (h : s.Consistent) (hpending : s.pending.isSome) :
    s.document.isSome :=
  h.document_iff.2 (.inr (h.pending_iff.1 hpending))

/-- Nothing is outstanding in the synced phase. -/
theorem pending_eq_none (h : s.Consistent) (hphase : s.phase = .synced) : s.pending = none := by
  rw [← Option.not_isSome_iff_eq_none, h.pending_iff]
  simp [hphase]

/-- A phase without a document can be exchanged for another one. -/
theorem with_phase (h : s.Consistent) (hnone : s.document = none) {phase : Phase}
    (hphase : phase = .idle ∨ phase = .loading ∨ phase = .closed) :
    { s with phase }.Consistent := by
  obtain ⟨hqueue, hhistory, hpending⟩ := h.nil_of_none hnone
  refine ⟨?_, ?_, fun _ => hqueue, ?_, by simp [hhistory], by simp [hnone], by simp [hnone],
    fun _ => ⟨hqueue, hhistory, hpending⟩⟩
  · rcases hphase with rfl | rfl | rfl <;> simp [hnone]
  · rcases hphase with rfl | rfl | rfl <;> simp [hpending]
  · rcases hphase with rfl | rfl | rfl <;> simp

theorem beginOpen (h : s.Consistent) (heq : s.beginOpen = .ok t) : t.Consistent := by
  obtain ⟨hphase, rfl⟩ := beginOpen_eq_ok heq
  exact h.with_phase (h.nil_of_phase (.inl hphase)).1 (.inr (.inl rfl))

theorem finishOpen (h : s.Consistent) (result : Except SegmentError Document) :
    (s.finishOpen result).1.Consistent := by
  obtain ⟨d, -, hphase, heq⟩ | ⟨hphase, heq⟩ | ⟨-, heq⟩ := finishOpen_cases s result
  · obtain ⟨-, hqueue, hhistory, hpending⟩ := h.nil_of_phase (.inr (.inl hphase))
    have hrecorded : { s with document := some d, phase := .synced }.Recorded := by
      refine ⟨fun _ _ => ?_, by simp [hhistory], by simp⟩
      rw [hhistory]
      trivial
    rw [heq, sendAll_eq]
    exact (hrecorded.consistent_synced rfl rfl hpending hqueue).emitAll _
  · rw [heq]
    exact h.with_phase (h.nil_of_phase (.inr (.inl hphase))).1 (.inl rfl)
  · rw [heq]
    exact h

theorem openText [RegexLibrary] (h : s.Consistent) (p : Profile) (text : String) :
    (s.openText p text).1.Consistent := by
  obtain heq | ⟨t, hbegin, heq⟩ := openText_cases s p text
  · rw [heq]
    exact h
  · rw [heq]
    exact (h.beginOpen hbegin).finishOpen _

theorem close (s : Session) : s.close.Consistent := by
  refine ⟨by simp [Session.close], by simp [Session.close], fun _ => rfl, by simp [Session.close],
    Nat.zero_le _, by simp [Session.close], by simp [Session.close], fun _ => ⟨rfl, rfl, rfl⟩⟩

theorem sendDocument (h : s.Consistent) (peer : PeerId) : (s.sendDocument peer).Consistent := by
  rw [sendDocument_eq]
  exact h.emitAll _

theorem reject (h : s.Consistent) (origin : PeerId) (reason : SupersedeReason) :
    (s.reject origin reason).Consistent := by
  rw [reject_eq]
  exact h.congr rfl rfl rfl rfl rfl rfl

theorem subscribe (h : s.Consistent) (peer : PeerId) : (s.subscribe peer).Consistent := by
  rw [Session.subscribe]
  split
  · exact h
  · have hadded : { s with subscribers := insertPeer peer s.subscribers }.Consistent :=
      h.congr rfl rfl rfl rfl rfl rfl
    exact hadded.sendDocument peer

theorem unsubscribe (h : s.Consistent) (peer : PeerId) : (s.unsubscribe peer).Consistent :=
  h.congr rfl rfl rfl rfl rfl rfl

theorem resync (h : s.Consistent) {peer : PeerId} (heq : s.resync peer = .ok t) :
    t.Consistent := by
  rw [resync_eq_ok heq]
  exact h.sendDocument peer

/-- Settling the queue makes a session consistent once nothing is outstanding any more. -/
theorem drain (h : s.Consistent) (hdocument : s.document.isSome) :
    { s with pending := none }.drain.Consistent :=
  Recorded.consistent_drain ⟨h.replays, h.history_length_le, h.recorded.nil_of_none⟩ hdocument rfl

/-- A submission that waits leaves the phase as it is, or is stale and makes it a conflict. -/
theorem enqueue_waiting (h : s.Consistent) {d : Document} (hdoc : s.document = some d)
    (hpending : s.pending.isSome) (sub : Submission) :
    { s with
      phase := if sub.patch.base < d.revision then .conflict else s.phase
      queue := s.queue ++ [sub] }.Consistent := by
  have hwaiting := h.pending_iff.1 hpending
  have hphase : ∀ phase, phase = (if sub.patch.base < d.revision then .conflict else s.phase) →
      phase = .pendingAck ∨ phase = .conflict := by
    rintro phase rfl
    split
    · exact .inr rfl
    · exact hwaiting
  refine ⟨?_, ?_, fun hnone => ?_, fun hconflict => ?_, h.history_length_le, h.revisions,
    h.replays, fun hnone => ?_⟩
  · simp only [hdoc, Option.isSome_some, true_iff]
    exact .inr (hphase _ rfl)
  · simp only [hpending, true_iff]
    exact hphase _ rfl
  · simp only at hnone
    simp [hnone] at hpending
  · refine ⟨d, hdoc, ?_⟩
    by_cases hstale : sub.patch.base < d.revision
    · exact ⟨sub, by simp, hstale⟩
    · simp only [if_neg hstale] at hconflict
      obtain ⟨d', hd', earlier, hearlier, hbase⟩ := h.stale_waits hconflict
      rw [hdoc, Option.mem_some] at hd'
      subst hd'
      exact ⟨earlier, by simp [hearlier], hbase⟩
  · simp only [hdoc] at hnone
    cases hnone

theorem enqueue (h : s.Consistent) {sub : Submission} (heq : s.enqueue sub = .ok t) :
    t.Consistent := by
  obtain ⟨d, hopen, hcase⟩ := enqueue_eq_ok heq
  have hdoc := (openDocument_eq_ok_iff.1 hopen).1
  obtain ⟨hpending, rfl⟩ | ⟨hpending, rfl⟩ := hcase
  · exact h.enqueue_waiting hdoc hpending sub
  · exact Recorded.consistent_drain ⟨h.replays, h.history_length_le, by simp [hdoc]⟩
      (by simp [hdoc]) hpending

theorem localEdit (h : s.Consistent) {now revision : Nat} {patch : Patch}
    (heq : s.localEdit now patch = .ok (t, revision)) : t.Consistent := by
  obtain ⟨current, next, hopen, hphase, happly, -, rfl⟩ := localEdit_eq_ok heq
  have hdoc := (openDocument_eq_ok_iff.1 hopen).1
  rw [commit_eq hdoc]
  have hrecorded := h.recorded.record hdoc happly .local rfl rfl rfl
    (t := { s with
      document := some next
      history := keepLast s.config.historyDepth (s.history ++ [⟨.local, current, patch⟩]) })
  refine ⟨by simp, by simp, by simp, by simp, hrecorded.length_le,
    fun d hd => (hrecorded.replays d hd).revisions, hrecorded.replays, by simp⟩

theorem ack (h : s.Consistent) {peer : PeerId} {revision : Nat}
    (heq : s.ack peer revision = .ok t) : t.Consistent := by
  obtain rfl | ⟨p, hpending, -, -, rfl⟩ := ack_eq_ok heq
  · exact h
  · exact h.drain (h.isSome_document (by simp [hpending]))

theorem tick (h : s.Consistent) (now : Nat) : (s.tick now).1.Consistent := by
  obtain heq | ⟨p, hpending, heq⟩ := tick_cases s now
  · rw [heq]
    exact h
  · rw [heq, send_eq]
    exact (h.emitAll _).drain (h.isSome_document (by simp [hpending]))

theorem fileChanged [RegexLibrary] (h : s.Consistent) {text : String}
    (heq : s.fileChanged text = .ok t) : t.Consistent := by
  obtain ⟨current, -, ⟨rfl, -⟩ | ⟨candidate, -, ⟨rfl, -⟩ | hsubmit⟩⟩ := fileChanged_eq_ok heq
  · exact h
  · exact h
  · exact h.enqueue hsubmit

theorem viewEdit [RegexLibrary] (h : s.Consistent) {origin : PeerId} {base : Nat}
    {view : List ViewBlock} (heq : s.viewEdit origin base view = .ok t) : t.Consistent := by
  obtain ⟨current, -, ⟨-, rfl⟩ | ⟨shown, candidate, -, -, (rfl | rfl) | hsubmit⟩⟩ :=
    viewEdit_eq_ok heq
  · exact h.reject origin _
  · exact h
  · exact h.sendDocument origin
  · exact h.enqueue hsubmit

theorem handle (h : s.Consistent) {sender : PeerId} {m : Message}
    (heq : s.handle sender m = .ok t) : t.Consistent := by
  rw [Session.handle] at heq
  split at heq
  · cases heq
    exact h
  · split at heq
    · exact h.enqueue heq
    · exact h.ack heq
    · exact h.resync heq
    · cases heq
      exact h

/-- An operation that can fail leaves a consistent session when each success does. -/
theorem settle (h : s.Consistent) {result : Except SessionError Session}
    (hok : ∀ {t}, result = .ok t → t.Consistent) : (s.settle result).1.Consistent := by
  cases result with
  | error e => exact h
  | ok t => exact hok rfl

theorem step [RegexLibrary] (h : s.Consistent) (c : Command) : (s.step c).1.Consistent := by
  cases c with
  | beginOpen => exact h.settle h.beginOpen
  | finishOpen result => exact h.finishOpen result
  | openText p text => exact h.openText p text
  | close => exact Consistent.close s
  | subscribe peer => exact h.subscribe peer
  | unsubscribe peer => exact h.unsubscribe peer
  | resync peer => exact h.settle h.resync
  | message sender m => exact h.settle h.handle
  | submit origin patch => exact h.settle h.enqueue
  | localEdit now patch =>
    rw [Session.step]
    split
    · exact h.localEdit ‹_›
    · exact h
  | ack peer revision => exact h.settle h.ack
  | tick now => exact h.tick now
  | fileChanged text => exact h.settle h.fileChanged
  | viewEdit origin base view => exact h.settle h.viewEdit

theorem run [RegexLibrary] (h : s.Consistent) (commands : List Command) :
    (s.run commands).Consistent := by
  induction commands generalizing s with
  | nil => exact h
  | cons c commands ih => exact ih (h.step c)

end Consistent

/-! A closed session refuses all that would change its document. -/

section Closed

variable (hclosed : s.phase = .closed)
include hclosed

theorem enqueue_of_closed (sub : Submission) : s.enqueue sub = .error .closed := by
  rw [enqueue, openDocument_of_closed hclosed]
  rfl

theorem handle_of_closed (sender : PeerId) (m : Message) :
    s.handle sender m = .ok s ∨ s.handle sender m = .error .closed := by
  rw [handle]
  split
  · exact .inl rfl
  · split
    · exact .inr (enqueue_of_closed hclosed _)
    · exact .inr (by rw [ack, if_pos hclosed])
    · exact .inr (by rw [resync, openDocument_of_closed hclosed]; rfl)
    · exact .inl rfl

/-- No command leads out of the last phase. Nothing is outstanding there that could still time
    out. -/
theorem phase_step_of_closed [RegexLibrary] (hpending : s.pending = none) (c : Command) :
    (s.step c).1.phase = .closed := by
  have hopen := openDocument_of_closed hclosed
  cases c with
  | beginOpen => simp [step, settle, beginOpen, hclosed]
  | finishOpen result => simp [step, finishOpen, hclosed]
  | openText p text => simp [step, openText, beginOpen, hclosed]
  | close => rfl
  | subscribe peer =>
    rw [step, subscribe]
    split
    · exact hclosed
    · rw [sendDocument_eq]
      exact hclosed
  | unsubscribe peer => exact hclosed
  | resync peer => simp [step, settle, resync, hopen, Except.map, hclosed]
  | message sender m =>
    obtain heq | heq := handle_of_closed hclosed sender m
    · simp [step, settle, heq, hclosed]
    · simp [step, settle, heq, hclosed]
  | submit origin patch => simp [step, settle, submit, enqueue_of_closed hclosed, hclosed]
  | localEdit now patch => simp [step, localEdit, hopen, bind, Except.bind, hclosed]
  | ack peer revision => simp [step, settle, ack, hclosed]
  | tick now => simp [step, tick, hpending, hclosed]
  | fileChanged text => simp [step, settle, fileChanged, hopen, bind, Except.bind, hclosed]
  | viewEdit origin base view =>
    simp [step, settle, viewEdit, hopen, bind, Except.bind, hclosed]

end Closed

/-- Whatever a session is asked to do, its phase says what it works on, its history leads to its
    document step by step, and the end is final. -/
theorem consistent_run [RegexLibrary] (id : SessionId) (config : SyncConfig)
    (commands : List Command) :
    ((new id config).run commands).Consistent ∧
      (((new id config).run commands).phase = .closed →
        ((new id config).run commands).document = none ∧
        ((new id config).run commands).queue = [] ∧
        ((new id config).run commands).history = [] ∧
        ((new id config).run commands).pending = none ∧
        ∀ more, (((new id config).run commands).run more).phase = .closed) := by
  have hconsistent := (consistent_new id config).run commands
  generalize (new id config).run commands = s at hconsistent ⊢
  refine ⟨hconsistent, fun hclosed => ?_⟩
  obtain ⟨hdocument, hqueue, hhistory, hpending⟩ := hconsistent.nil_of_phase (.inr (.inr hclosed))
  refine ⟨hdocument, hqueue, hhistory, hpending, fun more => ?_⟩
  induction more generalizing s with
  | nil => exact hclosed
  | cons c more ih =>
    have hnext := phase_step_of_closed hclosed hpending c
    obtain ⟨hdocument, hqueue, hhistory, hpending⟩ :=
      (hconsistent.step c).nil_of_phase (.inr (.inr hnext))
    exact ih _ (hconsistent.step c) hnext hdocument hqueue hhistory hpending

end LiterateSync.Session
