import LiterateSync.Session.Command

namespace LiterateSync.Session

@[simp] theorem pending_send (s : Session) (peer : PeerId) (body : MessageBody) :
    (s.send peer body).pending = s.pending := by
  rw [send]
  split <;> rfl

@[simp] theorem pending_sendDocument (s : Session) (peer : PeerId) :
    (s.sendDocument peer).pending = s.pending := by
  rw [sendDocument]
  split <;> simp

theorem pending_foldl {α : Type} {f : Session → α → Session}
    (hf : ∀ s a, (f s a).pending = s.pending) (items : List α) (s : Session) :
    (items.foldl f s).pending = s.pending := by
  induction items generalizing s with
  | nil => rfl
  | cons a items ih => rw [List.foldl_cons, ih, hf]

@[simp] theorem pending_sendAll (s : Session) (peers : List PeerId) (body : MessageBody) :
    (s.sendAll peers body).pending = s.pending :=
  pending_foldl (fun s peer => pending_send s peer body) peers s

@[simp] theorem pending_commit (s : Session) (origin : PeerId) (patch : Patch) (next : Document) :
    (s.commit origin patch next).pending = s.pending := by
  simp only [commit]
  split <;> simp [emit]

@[simp] theorem pending_reject (s : Session) (origin : PeerId) (reason : SupersedeReason) :
    (s.reject origin reason).pending = s.pending := by
  simp only [reject]
  split <;> simp

@[simp] theorem pending_process (s : Session) (sub : Submission) :
    (s.process sub).pending = s.pending := by
  rw [process]
  split
  · rfl
  · split
    · simp
    · simp only
      split <;> simp [pending_foldl fun s loser => pending_send s loser _]

/-- Settling what waits asks for no acknowledgement. -/
@[simp] theorem pending_drain (s : Session) : s.drain.pending = s.pending := by
  rw [drain]
  split
  · rfl
  · simp only
    split <;> simp [pending_foldl pending_process]

/-- An acknowledgement changes nothing, or it is the one that was awaited. -/
theorem ack_eq_self_or_awaited {s t : Session} {peer : PeerId} {revision : Nat}
    (h : s.ack peer revision = .ok t) : t = s ∨ s.pending.isSome ∧ t.pending = none := by
  rw [ack] at h
  split at h
  · cases h
  · split at h
    · rename_i p hp
      split at h
      · cases h
        exact .inr ⟨by simp [hp], by simp⟩
      · cases h
        exact .inl rfl
    · cases h
      exact .inl rfl

end LiterateSync.Session
