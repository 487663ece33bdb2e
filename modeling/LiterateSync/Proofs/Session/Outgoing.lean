import LiterateSync.Session.Command

namespace LiterateSync

namespace Rejections

theorem count_clear (r : Rejections) (peer v : PeerId) :
    (r.clear peer).count v = if peer = v then 0 else r.count v := by
  rw [count, clear, List.find?_filter]
  split
  · rename_i heq
    rw [List.find?_eq_none.2 (by simp [heq])]
    rfl
  · rename_i hne
    rw [count]
    congr 3
    funext x
    by_cases hx : x.1 = v
    · simp [hx, Ne.symm hne]
    · simp [hx]

theorem count_set (r : Rejections) (peer v : PeerId) (n : UInt32) :
    (r.set peer n).count v = if peer = v then n else r.count v := by
  by_cases heq : peer = v
  · rw [if_pos heq, set, count, List.find?_cons_of_pos (by simpa using heq)]
    rfl
  · have hclear := r.count_clear peer v
    rw [if_neg heq] at hclear ⊢
    rw [← hclear, set, count, List.find?_cons_of_neg (by simpa using heq), count]

end Rejections

namespace Session

/-- What is put out when a message is sent to a peer: nothing, unless the peer subscribes. -/
def addressed (s : Session) (peer : PeerId) (body : MessageBody) : List Event :=
  if s.subscribers.contains peer then [.send peer ⟨s.id, body⟩] else []

/-- What is put out when the document is sent to a peer. -/
def snapshotFor (s : Session) (peer : PeerId) : List Event :=
  match s.document with
  | some d => s.addressed peer (.fullDocument (some d.snapshot))
  | none => []

/-- The session with some more things to do. -/
def emitAll (s : Session) (events : List Event) : Session :=
  { s with events := s.events ++ events }

@[simp] theorem emitAll_nil (s : Session) : s.emitAll [] = s := by
  simp [emitAll]

@[simp] theorem emitAll_emitAll (s : Session) (xs ys : List Event) :
    (s.emitAll xs).emitAll ys = s.emitAll (xs ++ ys) := by
  simp [emitAll]

@[simp] theorem addressed_emitAll (s : Session) (events : List Event) :
    (s.emitAll events).addressed = s.addressed := rfl

theorem mem_addressed {s : Session} {peer : PeerId} {body : MessageBody} {e : Event}
    (h : e ∈ s.addressed peer body) : e = .send peer ⟨s.id, body⟩ := by
  rw [addressed] at h
  split at h
  · exact List.mem_singleton.1 h
  · cases h

/-- Sending touches nothing but the things to do, for one peer and for several. -/
theorem send_eq (s : Session) (peer : PeerId) (body : MessageBody) :
    s.send peer body = s.emitAll (s.addressed peer body) := by
  rw [send, addressed]
  split
  · rfl
  · rw [emitAll_nil]

theorem sendDocument_eq (s : Session) (peer : PeerId) :
    s.sendDocument peer = s.emitAll (s.snapshotFor peer) := by
  cases hdoc : s.document with
  | none => simp [sendDocument, snapshotFor, hdoc]
  | some d => simp [sendDocument, snapshotFor, hdoc, send_eq]

theorem foldl_send_eq (s : Session) (peers : List PeerId) (body : MessageBody) :
    peers.foldl (fun s peer => s.send peer body) s =
      s.emitAll (peers.flatMap fun peer => s.addressed peer body) := by
  induction peers generalizing s with
  | nil => simp
  | cons peer peers ih =>
    rw [List.foldl_cons, ih, send_eq, addressed_emitAll, emitAll_emitAll, List.flatMap_cons]

theorem sendAll_eq (s : Session) (peers : List PeerId) (body : MessageBody) :
    s.sendAll peers body = s.emitAll (peers.flatMap fun peer => s.addressed peer body) :=
  foldl_send_eq s peers body

/-- What is put out for a commit: the acknowledgement, the patch for the other peers, and the
    text for the file unless it came from there. -/
def commitEvents (s : Session) (origin : PeerId) (patch : Patch) (next : Document) : List Event :=
  s.addressed origin (.ack next.revision) ++
    (s.subscribers.filter (· ≠ origin)).flatMap (fun peer => s.addressed peer (.patch patch)) ++
      if origin = .fileSystem then [] else [.writeFile next.revision next.text]

/-- The texts that are remembered after a commit. -/
def writesAfter (s : Session) (origin : PeerId) (next : Document) : List String :=
  if origin = .fileSystem then s.recentWrites
  else keepLast (max s.config.historyDepth 1) (s.recentWrites ++ [next.text])

/-- All that a commit does to a session with a document. -/
theorem commit_eq {s : Session} {current : Document} (hdoc : s.document = some current)
    (origin : PeerId) (patch : Patch) (next : Document) :
    s.commit origin patch next =
      { s with
        document := some next
        history := keepLast s.config.historyDepth (s.history ++ [⟨origin, current, patch⟩])
        rejections := s.rejections.clear origin
        recentWrites := s.writesAfter origin next
        events := s.events ++ s.commitEvents origin patch next } := by
  simp only [commit, hdoc, send_eq, sendAll_eq, writesAfter, commitEvents]
  split <;> simp [emitAll, emit, addressed]

/-- What a rejected peer is sent. -/
def rejectEvents (s : Session) (origin : PeerId) (reason : SupersedeReason) : List Event :=
  if s.config.maxRetries < s.rejections.count origin + 1 then s.snapshotFor origin
  else s.addressed origin (.superseded (s.revision?.getD 0) reason)

/-- All that a rejection does to a session. -/
theorem reject_eq (s : Session) (origin : PeerId) (reason : SupersedeReason) :
    s.reject origin reason =
      { s with
        rejections :=
          if s.config.maxRetries < s.rejections.count origin + 1 then s.rejections.clear origin
          else s.rejections.set origin (s.rejections.count origin + 1)
        events := s.events ++ s.rejectEvents origin reason } := by
  simp only [reject, rejectEvents]
  split
  · rw [sendDocument_eq]
    rfl
  · rw [send_eq]
    rfl

/-- What is put out for a submission that is committed. -/
def acceptEvents (s : Session) (sub : Submission) (carried : Carried) (next : Document) :
    List Event :=
  s.commitEvents sub.origin carried.patch next ++
    carried.losers.flatMap (fun peer => s.addressed peer (.superseded next.revision .conflict)) ++
      if sub.resync then s.addressed sub.origin (.fullDocument (some next.snapshot)) else []

theorem process_of_document_none {s : Session} (hdoc : s.document = none) (sub : Submission) :
    s.process sub = s := by
  rw [process, hdoc]

theorem process_of_error {s : Session} {current : Document} {sub : Submission} {e : PatchError}
    (hdoc : s.document = some current)
    (h : s.reconcile current sub.origin sub.patch = .error e) :
    s.process sub = s.reject sub.origin e.reason := by
  rw [process, hdoc]
  simp only [h]

/-- All that the settling of a submission does when it ends in a commit. -/
theorem process_of_ok {s : Session} {current next : Document} {sub : Submission}
    {carried : Carried} (hdoc : s.document = some current)
    (h : s.reconcile current sub.origin sub.patch = .ok (carried, next)) :
    s.process sub =
      { s with
        document := some next
        history :=
          keepLast s.config.historyDepth (s.history ++ [⟨sub.origin, current, carried.patch⟩])
        rejections := s.rejections.clear sub.origin
        recentWrites := s.writesAfter sub.origin next
        events := s.events ++ s.acceptEvents sub carried next } := by
  rw [process, hdoc]
  simp only [h, commit_eq hdoc, foldl_send_eq, sendDocument_eq, acceptEvents]
  split <;> simp [emitAll, addressed, snapshotFor]

end Session

end LiterateSync
