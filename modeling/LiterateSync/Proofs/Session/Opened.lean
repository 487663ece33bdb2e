import LiterateSync.Proofs.Session.Moves

namespace LiterateSync.Session

variable {s : Session} {id : SessionId}

/-- What stays with a session from the time on at which it has got its document: its name, and the
    document until its end. -/
structure HasOpened (id : SessionId) (s : Session) : Prop where
  id_eq : s.id = id
  opened : s.document.isSome ∨ s.phase = .closed

theorem HasOpened.congr {t : Session} (h : s.HasOpened id) (hid : t.id = s.id)
    (hdocument : t.document.isSome = s.document.isSome) (hphase : t.phase = s.phase) :
    t.HasOpened id :=
  ⟨hid.trans h.id_eq, by rw [hdocument, hphase]; exact h.opened⟩

@[simp] theorem id_process (s : Session) (sub : Submission) : (s.process sub).id = s.id := by
  cases hdoc : s.document with
  | none => rw [process_of_document_none hdoc]
  | some current =>
    cases hreconcile : s.reconcile current sub.origin sub.patch with
    | error e => rw [process_of_error hdoc hreconcile, reject_eq]
    | ok result => rw [process_of_ok hdoc hreconcile]

theorem preserves_hasOpened (id : SessionId) : Preserves (fun _ _ => True) (HasOpened id) where
  process {s sub} _ h _ :=
    have hsettles := settles_process s sub
    h.congr (id_process s sub) hsettles.isSome_document hsettles.phase_eq
  reject {s} origin reason _ h := by
    rw [reject_eq]
    exact h.congr rfl rfl rfl
  waits _ _ _ hdocument h := ⟨h.id_eq, .inl hdocument⟩
  notice peer _ _ _ h := by
    rw [send_eq]
    exact h.congr rfl rfl rfl
  resync {s} peer h := by
    rw [sendDocument_eq]
    exact h.congr rfl rfl rfl
  subscribe {s} peer h := by
    rw [subscribe]
    split
    · exact h
    · rw [sendDocument_eq]
      exact h.congr rfl rfl rfl
  unsubscribe _ h := h.congr rfl rfl rfl
  turn phase hnone hopen h := by
    rcases h.opened with hdocument | hclosed
    · simp [hnone] at hdocument
    · exact absurd hclosed hopen
  opening d _ _ _ h := by
    rw [sendAll_eq]
    exact ⟨h.id_eq, .inl rfl⟩
  close h := ⟨h.id_eq, .inr rfl⟩

theorem HasOpened.step [RegexLibrary] (h : s.HasOpened id) (hc : s.Consistent) (c : Command) :
    (s.step c).1.HasOpened id :=
  (preserves_hasOpened id).step hc h (eachSettled_of_forall (fun _ _ => trivial) _ _)

/-- A session with a document takes whatever message it is sent. A patch that does not fit is
    answered, and not refused. -/
theorem exists_handle (hc : s.Consistent) (hdocument : s.document.isSome) (sender : PeerId)
    (m : Message) : ∃ t, s.handle sender m = .ok t := by
  obtain ⟨d, hdoc⟩ := Option.isSome_iff_exists.1 hdocument
  rw [handle]
  split
  · exact ⟨s, rfl⟩
  · cases m.body with
    | patch patch => exact exists_enqueue hc hdocument ⟨sender, patch, false⟩
    | ack revision =>
      simp only [ack, if_neg (phase_ne_closed hc hdocument)]
      split
      · split <;> exact ⟨_, rfl⟩
      · exact ⟨s, rfl⟩
    | fullDocument snapshot => exact ⟨_, by rw [resync, hc.openDocument hdoc]; rfl⟩
    | superseded revision reason => exact ⟨s, rfl⟩

end LiterateSync.Session
