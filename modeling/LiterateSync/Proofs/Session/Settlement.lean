import LiterateSync.Proofs.Session.Moves

namespace LiterateSync.Session

/-! Each patch that comes into the queue of a session is decided about once, in the order of the
    queue: it is committed, rejected or discarded when the session is closed. -/

/-- How many patches have come to an end. -/
def numberOf (acts : List Act) (outcome : Outcome) : Nat :=
  (outcomesIn acts).countP (·.2 = outcome)

/-- What has been put in the queue has come to an end in the same order, or is still in the queue
    of the session. -/
structure Accounted (acts : List Act) (s : Session) : Prop where
  order : queuedIn acts = (outcomesIn acts).map (·.1) ++ s.queue
  balance : (queuedIn acts).length =
    numberOf acts .committed + numberOf acts .rejected + numberOf acts .discarded + s.queue.length
  /-- Only the end of the session discards any. -/
  discarded : s.phase ≠ .closed → numberOf acts .discarded = 0

theorem length_outcomesIn (acts : List Act) :
    (outcomesIn acts).length =
      numberOf acts .committed + numberOf acts .rejected + numberOf acts .discarded := by
  rw [numberOf, numberOf, numberOf]
  induction outcomesIn acts with
  | nil => rfl
  | cons o rest ih =>
    obtain ⟨sub, outcome⟩ := o
    cases outcome <;> simp [ih] <;> omega

theorem Path.accounted {id : SessionId} {config : SyncConfig} {acts : List Act} {s : Session}
    (h : (new id config).Path acts s) : Accounted acts s := by
  have horder : queuedIn acts = (outcomesIn acts).map (·.1) ++ s.queue := h.balance
  refine ⟨horder, ?_, fun hphase => ?_⟩
  · rw [horder, List.length_append, List.length_map, length_outcomesIn]
  · rw [numberOf, List.countP_eq_zero]
    exact fun o ho => by simpa using h.not_discarded hphase o ho

/-- The end of the wait settles the queue in order, and nothing is outstanding any more. -/
theorem settle_of_frees [RegexLibrary] {s : Session} (h : s.Consistent) {p : Pending}
    (hpending : s.pending = some p) {c : Command} (hfrees : s.Frees p c) :
    (∃ acts, s.Path acts (s.step c).1 ∧ Settle acts s.queue) ∧ (s.step c).1.queue = [] ∧
      (s.step c).1.pending = none ∧ (s.step c).1.phase = .synced := by
  have hdocument := h.isSome_document (by simp [hpending])
  obtain ⟨events, heq⟩ := step_of_frees hpending (phase_ne_closed h hdocument) hfrees
  have hdrain := drain_of_not_pending (s := { s with pending := none }.emitAll events) rfl hdocument
  have hsettled := settles_foldl { { s with pending := none }.emitAll events with queue := [] }
    s.queue
  rw [heq]
  refine ⟨exists_path_release h hpending events, ?_⟩
  rw [hdrain]
  exact ⟨hsettled.queue_eq, hsettled.pending_eq, rfl⟩

end LiterateSync.Session
