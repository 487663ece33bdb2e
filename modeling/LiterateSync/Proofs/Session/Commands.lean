import LiterateSync.Session.Command

namespace LiterateSync.Session

/-! What each command can have done when it succeeds, with all that it has checked. -/

theorem bind_eq_ok_iff {ε α β : Type} {x : Except ε α} {f : α → Except ε β} {b : β} :
    (x >>= f) = .ok b ↔ ∃ a, x = .ok a ∧ f a = .ok b := by
  cases x <;> simp [bind, Except.bind]

theorem openDocument_eq_ok_iff {s : Session} {d : Document} :
    s.openDocument = .ok d ↔
      s.document = some d ∧ s.phase ≠ .closed ∧ s.phase ≠ .idle ∧ s.phase ≠ .loading := by
  rw [openDocument]
  cases hphase : s.phase <;> cases hdoc : s.document <;> simp

theorem openDocument_of_closed {s : Session} (h : s.phase = .closed) :
    s.openDocument = .error .closed := by
  rw [openDocument, h]

theorem beginOpen_eq_ok {s t : Session} (h : s.beginOpen = .ok t) :
    s.phase = .idle ∧ t = { s with phase := .loading } := by
  rw [beginOpen] at h
  split at h
  · rename_i hphase
    cases h
    exact ⟨hphase, rfl⟩
  · cases h
  · cases h

/-- A document that was made becomes that of the session; otherwise nothing but the phase can
    change. -/
theorem finishOpen_cases (s : Session) (result : Except SegmentError Document) :
    (∃ d, result = .ok d ∧ s.phase = .loading ∧ (s.finishOpen result).1 =
      { s with document := some d, phase := .synced }.sendAll s.subscribers
        (.fullDocument (some d.snapshot))) ∨
    (s.phase = .loading ∧ (s.finishOpen result).1 = { s with phase := .idle }) ∨
    (s.phase ≠ .loading ∧ (s.finishOpen result).1 = s) := by
  by_cases hphase : s.phase = .loading
  · cases result with
    | ok d => exact .inl ⟨d, rfl, hphase, by rw [finishOpen, hphase]⟩
    | error e => exact .inr (.inl ⟨hphase, by rw [finishOpen, hphase]⟩)
  · refine .inr (.inr ⟨hphase, ?_⟩)
    rw [finishOpen.eq_def]
    split
    · exact absurd ‹s.phase = .loading› hphase
    · rfl
    · rfl

theorem openText_cases [RegexLibrary] (s : Session) (p : Profile) (text : String) :
    (s.openText p text).1 = s ∨ ∃ t, s.beginOpen = .ok t ∧
      (s.openText p text).1 = (t.finishOpen (Document.ofText p text)).1 := by
  rw [openText]
  cases hbegin : s.beginOpen with
  | error e => exact .inl rfl
  | ok t => exact .inr ⟨t, rfl, rfl⟩

theorem resync_eq_ok {s t : Session} {peer : PeerId} (h : s.resync peer = .ok t) :
    t = s.sendDocument peer := by
  rw [resync] at h
  cases hopen : s.openDocument with
  | error e => simp [hopen, Except.map] at h
  | ok d =>
    simp only [hopen, Except.map, Except.ok.injEq] at h
    exact h.symm

/-- A submission waits behind an outstanding acknowledgement, or is settled with the queue. -/
theorem enqueue_eq_ok {s t : Session} {sub : Submission} (h : s.enqueue sub = .ok t) :
    ∃ d, s.openDocument = .ok d ∧
      ((s.pending.isSome ∧ t = { s with
          phase := if sub.patch.base < d.revision then .conflict else s.phase
          queue := s.queue ++ [sub] }) ∨
        (s.pending = none ∧ t = { s with queue := s.queue ++ [sub] }.drain)) := by
  rw [enqueue, bind_eq_ok_iff] at h
  obtain ⟨d, hopen, h⟩ := h
  refine ⟨d, hopen, ?_⟩
  cases hpending : s.pending with
  | none =>
    refine .inr ⟨rfl, ?_⟩
    simp only [hpending, Option.isSome_none, Bool.false_and, Bool.false_eq_true, if_false,
      Except.ok.injEq] at h
    exact h.symm
  | some p =>
    refine .inl ⟨rfl, ?_⟩
    simp only [hpending, Option.isSome_some, Bool.true_and, decide_eq_true_eq,
      Except.ok.injEq] at h
    rw [← h]
    by_cases hstale : sub.patch.base < d.revision <;> simp [hstale, drain, hpending]

theorem localEdit_eq_ok {s t : Session} {now revision : Nat} {patch : Patch}
    (h : s.localEdit now patch = .ok (t, revision)) :
    ∃ current next, s.openDocument = .ok current ∧ s.phase = .synced ∧
      current.apply patch = .ok next ∧ revision = next.revision ∧
      t = { s.commit .local patch next with
        pending := some ⟨next.revision, .local, .fileSystem, now⟩, phase := .pendingAck } := by
  rw [localEdit, bind_eq_ok_iff] at h
  obtain ⟨current, hopen, h⟩ := h
  split at h
  · cases h
  · rename_i hphase
    split at h
    · cases h
    · rename_i next happly
      cases h
      exact ⟨current, next, hopen, Decidable.not_not.1 hphase, happly, rfl, rfl⟩

theorem ack_eq_ok {s t : Session} {peer : PeerId} {revision : Nat}
    (h : s.ack peer revision = .ok t) :
    t = s ∨ ∃ p, s.pending = some p ∧ p.awaiting = peer ∧ p.revision ≤ revision ∧
      t = { s with pending := none }.drain := by
  rw [ack] at h
  split at h
  · cases h
  · split at h
    · rename_i p hpending
      split at h
      · rename_i hawaited
        cases h
        exact .inr ⟨p, hpending, hawaited.1, hawaited.2, rfl⟩
      · cases h
        exact .inl rfl
    · cases h
      exact .inl rfl

theorem tick_cases (s : Session) (now : Nat) :
    (s.tick now).1 = s ∨ ∃ p, s.pending = some p ∧
      (s.tick now).1 = ({ s with pending := none }.send p.origin
        (.superseded (s.revision?.getD p.revision) .peerTimeout)).drain := by
  rw [tick]
  split
  · rename_i p hpending
    split
    · exact .inr ⟨p, hpending, rfl⟩
    · exact .inl rfl
  · exact .inl rfl

/-- A text found in the file is passed over as one that the session has written, or it agrees
    with the document, or the patch that leads to it is submitted for the file. -/
theorem fileChanged_eq_ok [RegexLibrary] {s t : Session} {text : String}
    (h : s.fileChanged text = .ok t) :
    ∃ current, s.openDocument = .ok current ∧
      ((t = s ∧ text ∈ s.recentWrites ∧ current.text ≠ text) ∨
        ∃ candidate, Document.openWith current.profile (.seeded "fs") text = .ok candidate ∧
          ((t = s ∧ (current.diff candidate).ops = []) ∨
            s.submit .fileSystem (current.diff candidate) = .ok t)) := by
  rw [fileChanged, bind_eq_ok_iff] at h
  obtain ⟨current, hopen, h⟩ := h
  refine ⟨current, hopen, ?_⟩
  split at h
  · rename_i hecho
    cases h
    exact .inl ⟨rfl, by simpa using hecho⟩
  · split at h
    · cases h
    · rename_i candidate hcandidate
      refine .inr ⟨candidate, hcandidate, ?_⟩
      dsimp only at h
      split at h
      · rename_i hempty
        cases h
        exact .inl ⟨rfl, List.isEmpty_iff.1 hempty⟩
      · exact .inr h

/-- A view edit of an unknown revision is rejected; one that changes nothing leads to the document
    being sent at most; any other is submitted as a patch. -/
theorem viewEdit_eq_ok [RegexLibrary] {s t : Session} {origin : PeerId} {base : Nat}
    {view : List ViewBlock} (h : s.viewEdit origin base view = .ok t) :
    ∃ current, s.openDocument = .ok current ∧
      ((s.documentAt? base = none ∧ t = s.reject origin .revisionMismatch) ∨
        ∃ shown candidate, s.documentAt? base = some shown ∧ shown.ofView view = .ok candidate ∧
          ((t = s ∨ t = s.sendDocument origin) ∨
            s.enqueue ⟨origin, shown.diff candidate, isReshaped candidate view⟩ = .ok t)) := by
  rw [viewEdit, bind_eq_ok_iff] at h
  obtain ⟨current, hopen, h⟩ := h
  refine ⟨current, hopen, ?_⟩
  split at h
  · rename_i hnone
    cases h
    exact .inl ⟨hnone, rfl⟩
  · rename_i shown hshown
    split at h
    · cases h
    · rename_i candidate hcandidate
      refine .inr ⟨shown, candidate, hshown, hcandidate, ?_⟩
      dsimp only at h
      split at h
      · cases h
        split
        · exact .inl (.inr rfl)
        · exact .inl (.inl rfl)
      · exact .inr h

end LiterateSync.Session
