import LiterateSync.Proofs.Session.Telling

namespace LiterateSync.Session

variable {s t : Session}

@[simp] theorem subscribers_process (s : Session) (sub : Submission) :
    (s.process sub).subscribers = s.subscribers := by
  obtain hdoc | ⟨current, hdoc⟩ := Option.eq_none_or_eq_some s.document
  · rw [process_of_document_none hdoc]
  · cases hreconcile : s.reconcile current sub.origin sub.patch with
    | error e => rw [process_of_error hdoc hreconcile, reject_eq]
    | ok result => rw [process_of_ok hdoc hreconcile]

@[simp] theorem subscribers_drain (s : Session) : s.drain.subscribers = s.subscribers := by
  have hfoldl : ∀ (subs : List Submission) (s : Session),
      (subs.foldl process s).subscribers = s.subscribers := by
    intro subs
    induction subs with
    | nil => exact fun _ => rfl
    | cons sub subs ih => exact fun s => (ih _).trans (subscribers_process s sub)
  rw [drain]
  split
  · rfl
  · simp only
    split <;> rw [hfoldl]

theorem subscribers_enqueue {sub : Submission} (h : s.enqueue sub = .ok t) :
    t.subscribers = s.subscribers := by
  obtain ⟨d, -, ⟨-, rfl⟩ | ⟨-, rfl⟩⟩ := enqueue_eq_ok h
  · rfl
  · exact subscribers_drain _

theorem subscribers_ack {peer : PeerId} {revision : Nat} (h : s.ack peer revision = .ok t) :
    t.subscribers = s.subscribers := by
  obtain rfl | ⟨p, -, -, -, rfl⟩ := ack_eq_ok h
  · rfl
  · exact subscribers_drain _

@[simp] theorem subscribers_sendDocument (s : Session) (peer : PeerId) :
    (s.sendDocument peer).subscribers = s.subscribers := by
  rw [sendDocument_eq]
  rfl

theorem subscribers_handle {sender : PeerId} {m : Message} (h : s.handle sender m = .ok t) :
    t.subscribers = s.subscribers := by
  rw [handle] at h
  split at h
  · cases h
    rfl
  · split at h
    · exact subscribers_enqueue h
    · exact subscribers_ack h
    · rw [resync_eq_ok h, subscribers_sendDocument]
    · cases h
      rfl

@[simp] theorem subscribers_finishOpen (s : Session) (result : Except SegmentError Document) :
    (s.finishOpen result).1.subscribers = s.subscribers := by
  obtain ⟨d, -, -, heq⟩ | ⟨-, heq⟩ | ⟨-, heq⟩ := finishOpen_cases s result
  · rw [heq, sendAll_eq]
    rfl
  · rw [heq]
  · rw [heq]

theorem subscribers_settle {result : Except SessionError Session}
    (hok : ∀ {t}, result = .ok t → t.subscribers = s.subscribers) :
    (s.settle result).1.subscribers = s.subscribers := by
  cases result with
  | error e => rfl
  | ok t => exact hok rfl

/-- Who subscribes is up to the peers alone. -/
theorem subscribers_step [RegexLibrary] {c : Command} (hcomes : ∀ peer, c ≠ .subscribe peer)
    (hleaves : ∀ peer, c ≠ .unsubscribe peer) : (s.step c).1.subscribers = s.subscribers := by
  cases c with
  | beginOpen => exact subscribers_settle fun h => by rw [(beginOpen_eq_ok h).2]
  | finishOpen result => exact subscribers_finishOpen s result
  | openText p text =>
    obtain heq | ⟨t, hbegin, heq⟩ := openText_cases s p text
    · exact congrArg subscribers heq
    · refine (congrArg subscribers heq).trans ?_
      rw [subscribers_finishOpen, (beginOpen_eq_ok hbegin).2]
  | close => rfl
  | subscribe peer => exact absurd rfl (hcomes peer)
  | unsubscribe peer => exact absurd rfl (hleaves peer)
  | resync peer =>
    exact subscribers_settle fun h => by rw [resync_eq_ok h, subscribers_sendDocument]
  | message sender m => exact subscribers_settle subscribers_handle
  | submit origin patch => exact subscribers_settle subscribers_enqueue
  | localEdit now patch =>
    rw [Session.step]
    split
    · rename_i next revision h
      obtain ⟨current, next, hopen, -, -, -, rfl⟩ := localEdit_eq_ok h
      rw [commit_eq (openDocument_eq_ok_iff.1 hopen).1]
    · rfl
  | ack peer revision => exact subscribers_settle subscribers_ack
  | tick now =>
    obtain heq | ⟨p, -, heq⟩ := tick_cases s now
    · exact congrArg subscribers heq
    · refine (congrArg subscribers heq).trans ?_
      rw [subscribers_drain, send_eq]
      rfl
  | fileChanged text =>
    refine subscribers_settle fun h => ?_
    obtain ⟨current, -, ⟨rfl, -⟩ | ⟨candidate, -, ⟨rfl, -⟩ | hsubmit⟩⟩ := fileChanged_eq_ok h
    · rfl
    · rfl
    · exact subscribers_enqueue hsubmit
  | viewEdit origin base view =>
    refine subscribers_settle fun h => ?_
    obtain ⟨current, -, ⟨-, rfl⟩ | ⟨shown, candidate, -, -, (rfl | rfl) | hsubmit⟩⟩ :=
      viewEdit_eq_ok h
    · rw [reject_eq]
    · rfl
    · rw [subscribers_sendDocument]
    · exact subscribers_enqueue hsubmit

theorem mem_subscribers_subscribe_iff {v peer : PeerId} :
    v ∈ (s.subscribe peer).subscribers ↔ v = peer ∨ v ∈ s.subscribers := by
  rw [subscribe]
  split
  · rename_i hmem
    rw [List.contains_iff_mem] at hmem
    refine ⟨.inr, ?_⟩
    rintro (rfl | hv)
    · exact hmem
    · exact hv
  · rw [subscribers_sendDocument, (perm_insertPeer peer s.subscribers).mem_iff, List.mem_cons]

theorem mem_subscribers_unsubscribe_iff {v peer : PeerId} :
    v ∈ (s.unsubscribe peer).subscribers ↔ v ≠ peer ∧ v ∈ s.subscribers := by
  rw [unsubscribe, List.mem_filter, decide_eq_true_eq, and_comm]

/-- A peer that subscribes goes on subscribing until it leaves. -/
theorem mem_subscribers_step [RegexLibrary] {v : PeerId} (hv : v ∈ s.subscribers) {c : Command}
    (hc : c ≠ .unsubscribe v) : v ∈ (s.step c).1.subscribers := by
  by_cases hcomes : ∃ peer, c = .subscribe peer
  · obtain ⟨peer, rfl⟩ := hcomes
    exact mem_subscribers_subscribe_iff.2 (.inr hv)
  by_cases hleaves : ∃ peer, c = .unsubscribe peer
  · obtain ⟨peer, rfl⟩ := hleaves
    exact mem_subscribers_unsubscribe_iff.2 ⟨fun heq => hc (heq ▸ rfl), hv⟩
  · rwa [subscribers_step (not_exists.1 hcomes) (not_exists.1 hleaves)]

theorem preserves_nodup : Preserves (fun _ _ => True) fun s => s.subscribers.Nodup where
  process {s sub} _ h _ := (subscribers_process s sub).symm ▸ h
  reject {s} origin reason _ h := by
    rw [reject_eq]
    exact h
  waits _ _ _ _ h := h
  notice peer _ _ _ h := by
    rw [send_eq]
    exact h
  resync {s} peer h := (subscribers_sendDocument s peer).symm ▸ h
  subscribe {s} peer h := by
    rw [subscribe]
    split
    · exact h
    · rename_i hnew
      rw [subscribers_sendDocument]
      exact (perm_insertPeer peer s.subscribers).nodup_iff.2
        (List.nodup_cons.2 ⟨by simpa using hnew, h⟩)
  unsubscribe _ h := h.filter _
  turn _ _ _ h := h
  opening d _ _ _ h := by
    rw [sendAll_eq]
    exact h
  close h := h

/-- No peer is listed twice. -/
theorem nodup_subscribers_step [RegexLibrary] (hc : s.Consistent) (h : s.subscribers.Nodup)
    (c : Command) : (s.step c).1.subscribers.Nodup :=
  preserves_nodup.step hc h (eachSettled_of_forall (fun _ _ => trivial) _ _)

end LiterateSync.Session
