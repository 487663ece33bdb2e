import LiterateSync.Proofs.Session.Always

namespace LiterateSync.Session

/-- What happens to the document of a session and to the patches that wait for it. -/
inductive Act where
  | opened (d : Document)
  | queued (sub : Submission)
  /-- The acknowledgement that was outstanding has come, or is given up. -/
  | released
  /-- The patch that has waited longest is applied, in the form that it was carried over in. -/
  | committed (sub : Submission) (carried : Carried) (next : Document)
  | rejected (sub : Submission) (error : PatchError)
  | edited (patch : Patch) (next : Document)
  /-- The session ends while some patches wait. -/
  | closed (waiting : List Submission)
  /-- Something else happens: peers come and go, and are sent messages. -/
  | aside

/-- Two states of a session between which nothing has happened to what it works on. -/
structure SameWork (s t : Session) : Prop where
  config_eq : t.config = s.config
  document_eq : t.document = s.document
  history_eq : t.history = s.history
  queue_eq : t.queue = s.queue
  pending_eq : t.pending = s.pending
  closed_iff : t.phase = .closed ↔ s.phase = .closed

/-- What each act needs, and what it leads to. Only the first patch of the queue is settled, and
    only while no acknowledgement is outstanding. -/
inductive Move (s : Session) : Act → Session → Prop where
  | opened {t : Session} (d : Document) (hnone : s.document = none) (hphase : s.phase ≠ .closed)
      (h : SameWork { s with document := some d } t) : Move s (.opened d) t
  | queued {t : Session} (sub : Submission) (hdocument : s.document.isSome)
      (hphase : s.phase ≠ .closed) (h : SameWork { s with queue := s.queue ++ [sub] } t) :
      Move s (.queued sub) t
  | released (p : Pending) (hpending : s.pending = some p) :
      Move s .released { s with pending := none }
  | committed (sub : Submission) (rest : List Submission) (current : Document) (carried : Carried)
      (next : Document) (hpending : s.pending = none) (hqueue : s.queue = sub :: rest)
      (hdoc : s.document = some current)
      (hreconcile : s.reconcile current sub.origin sub.patch = .ok (carried, next)) :
      Move s (.committed sub carried next) ({ s with queue := rest }.process sub)
  | rejected (sub : Submission) (rest : List Submission) (current : Document) (e : PatchError)
      (hpending : s.pending = none) (hqueue : s.queue = sub :: rest)
      (hdoc : s.document = some current)
      (hreconcile : s.reconcile current sub.origin sub.patch = .error e) :
      Move s (.rejected sub e) ({ s with queue := rest }.process sub)
  | edited (now : Nat) (patch : Patch) (current next : Document) (hpending : s.pending = none)
      (hqueue : s.queue = []) (hphase : s.phase ≠ .closed) (hdoc : s.document = some current)
      (happly : current.apply patch = .ok next) :
      Move s (.edited patch next) { s.commit .local patch next with
        pending := some ⟨next.revision, .local, .fileSystem, now⟩, phase := .pendingAck }
  | closed : Move s (.closed s.queue) s.close
  | aside {t : Session} (h : SameWork s t) : Move s .aside t

/-- What happens on the way from one state of a session to another. -/
inductive Path : Session → List Act → Session → Prop where
  | nil (s : Session) : Path s [] s
  | cons {s t u : Session} {act : Act} {acts : List Act} (hmove : s.Move act t)
      (hrest : Path t acts u) : Path s (act :: acts) u

/-- The patches that are put in the queue, in order. -/
def queuedIn (acts : List Act) : List Submission :=
  acts.filterMap fun
    | .queued sub => some sub
    | _ => none

variable {s t u : Session}

@[simp] theorem queuedIn_append (xs ys : List Act) :
    queuedIn (xs ++ ys) = queuedIn xs ++ queuedIn ys :=
  List.filterMap_append

theorem SameWork.refl (s : Session) : s.SameWork s :=
  ⟨rfl, rfl, rfl, rfl, rfl, .rfl⟩

theorem SameWork.emitAll (s : Session) (events : List Event) : s.SameWork (s.emitAll events) :=
  ⟨rfl, rfl, rfl, rfl, rfl, .rfl⟩

theorem SameWork.sendDocument (s : Session) (peer : PeerId) :
    s.SameWork (s.sendDocument peer) := by
  rw [sendDocument_eq]
  exact .emitAll s _

theorem SameWork.reject (s : Session) (origin : PeerId) (reason : SupersedeReason) :
    s.SameWork (s.reject origin reason) := by
  rw [reject_eq]
  exact ⟨rfl, rfl, rfl, rfl, rfl, .rfl⟩

theorem SameWork.subscribe (s : Session) (peer : PeerId) : s.SameWork (s.subscribe peer) := by
  rw [Session.subscribe]
  split
  · exact .refl s
  · rw [sendDocument_eq]
    exact ⟨rfl, rfl, rfl, rfl, rfl, .rfl⟩

theorem Move.path {act : Act} (h : s.Move act t) : s.Path [act] t :=
  .cons h (.nil t)

theorem SameWork.path (h : s.SameWork t) : s.Path [.aside] t :=
  (Move.aside h).path

theorem Path.append {xs ys : List Act} (hst : s.Path xs t) (htu : t.Path ys u) :
    s.Path (xs ++ ys) u := by
  induction hst with
  | nil s => exact htu
  | cons hmove _ ih => exact .cons hmove (ih htu)

/-- What waits has no part in the settling of a submission. -/
theorem process_withQueue (s : Session) (queue : List Submission) (sub : Submission) :
    { s with queue }.process sub = { s.process sub with queue } := by
  obtain hdoc | ⟨current, hdoc⟩ := Option.eq_none_or_eq_some s.document
  · rw [process_of_document_none hdoc, process_of_document_none (s := { s with queue }) hdoc]
  · cases hreconcile : s.reconcile current sub.origin sub.patch with
    | error e =>
      rw [process_of_error hdoc hreconcile,
        process_of_error (s := { s with queue }) hdoc hreconcile, reject_eq, reject_eq]
      rfl
    | ok result =>
      obtain ⟨carried, next⟩ := result
      rw [process_of_ok hdoc hreconcile, process_of_ok (s := { s with queue }) hdoc hreconcile]
      rfl

theorem settled_cons {sub : Submission} {rest : List Submission} (hqueue : s.queue = sub :: rest) :
    s.settled = ({ s with queue := rest }.process sub).settled := by
  have hrest : ({ s with queue := rest }.process sub).queue = rest :=
    (settles_process _ sub).queue_eq
  rw [settled, settled, hrest, hqueue, List.foldl_cons, process_withQueue s [],
    process_withQueue s rest]

/-- What can become of a patch that is in the queue. -/
inductive Outcome where
  | committed
  | rejected
  /-- The session was closed before. -/
  | discarded
  deriving DecidableEq, Repr

/-- The patches for which an act decides what becomes of them. -/
def Act.outcomes : Act → List (Submission × Outcome)
  | .committed sub .. => [(sub, .committed)]
  | .rejected sub _ => [(sub, .rejected)]
  | .closed waiting => waiting.map (·, .discarded)
  | _ => []

/-- What becomes of patches, in order. -/
def outcomesIn (acts : List Act) : List (Submission × Outcome) :=
  acts.flatMap Act.outcomes

@[simp] theorem outcomesIn_append (xs ys : List Act) :
    outcomesIn (xs ++ ys) = outcomesIn xs ++ outcomesIn ys :=
  List.flatMap_append

/-- Whether some acts settle the patches `subs`, one after the other, put no others in the queue,
    discard none and open no document. -/
structure Settle (acts : List Act) (subs : List Submission) : Prop where
  queuedIn_eq : queuedIn acts = []
  map_fst : (outcomesIn acts).map (·.1) = subs
  not_discarded : ∀ o ∈ outcomesIn acts, o.2 ≠ .discarded
  not_opened : ∀ d, .opened d ∉ acts

theorem Settle.nil : Settle [] [] :=
  ⟨rfl, rfl, by simp [outcomesIn], nofun⟩

theorem Settle.single {act : Act} {sub : Submission}
    (h : act.outcomes = [(sub, .committed)] ∨ act.outcomes = [(sub, .rejected)]) :
    Settle [act] [sub] := by
  have hqueued : queuedIn [act] = [] ∧ ∀ d, act ≠ .opened d := by
    cases act <;> simp_all [queuedIn, Act.outcomes]
  have hopened : ∀ d, .opened d ∉ [act] := fun d hd =>
    hqueued.2 d (List.mem_singleton.1 hd).symm
  rcases h with h | h <;>
    exact ⟨hqueued.1, by simp [outcomesIn, h], by simp [outcomesIn, h], hopened⟩

theorem Settle.released : Settle [.released] [] :=
  ⟨rfl, rfl, nofun, by simp⟩

theorem Settle.aside : Settle [.aside] [] :=
  ⟨rfl, rfl, nofun, by simp⟩

theorem Settle.append {xs ys : List Act} {as bs : List Submission} (hx : Settle xs as)
    (hy : Settle ys bs) : Settle (xs ++ ys) (as ++ bs) := by
  refine ⟨by simp [hx.queuedIn_eq, hy.queuedIn_eq], by simp [hx.map_fst, hy.map_fst],
    fun o ho => ?_, fun d hd => ?_⟩
  · rw [outcomesIn_append, List.mem_append] at ho
    exact ho.elim (hx.not_discarded o) (hy.not_discarded o)
  · exact (List.mem_append.1 hd).elim (hx.not_opened d) (hy.not_opened d)

/-- The whole queue is settled, one patch after the other, and nothing else happens. -/
theorem exists_path_settled (hpending : s.pending = none) (hdocument : s.document.isSome) :
    ∃ acts, s.Path acts s.settled ∧ Settle acts s.queue := by
  generalize hqueue : s.queue = queue
  induction queue generalizing s with
  | nil =>
    have hself : s.settled = s := by
      rw [settled, hqueue, List.foldl_nil, ← hqueue]
    exact ⟨[], hself.symm ▸ .nil s, .nil⟩
  | cons sub rest ih =>
    obtain ⟨current, hdoc⟩ := Option.isSome_iff_exists.1 hdocument
    have hnext := settles_process { s with queue := rest } sub
    obtain ⟨acts, hpath, hacts⟩ := ih (hnext.pending_eq.trans hpending)
      (hnext.isSome_document.trans hdocument) hnext.queue_eq
    rw [← settled_cons hqueue] at hpath
    cases hreconcile : s.reconcile current sub.origin sub.patch with
    | error e =>
      exact ⟨_, .cons (.rejected sub rest current e hpending hqueue hdoc hreconcile) hpath,
        (Settle.single (.inr rfl)).append hacts⟩
    | ok result =>
      exact ⟨_, .cons (.committed sub rest current result.1 result.2 hpending hqueue hdoc
        hreconcile) hpath, (Settle.single (.inl rfl)).append hacts⟩

theorem exists_path_drain (hpending : s.pending = none) (hdocument : s.document.isSome)
    (hphase : s.phase ≠ .closed) : ∃ acts, s.Path acts s.drain ∧ Settle acts s.queue := by
  obtain ⟨acts, hpath, hacts⟩ := exists_path_settled hpending hdocument
  have hopen : s.settled.phase ≠ .closed :=
    (settles_foldl { s with queue := [] } s.queue).phase_eq.trans_ne hphase
  have hlast : s.settled.SameWork { s.settled with phase := .synced } :=
    ⟨rfl, rfl, rfl, rfl, rfl, by simp [hopen]⟩
  have hsettle := hacts.append .aside
  rw [List.append_nil] at hsettle
  exact ⟨_, drain_of_not_pending hpending hdocument ▸ hpath.append hlast.path, hsettle⟩

/-- The end of an outstanding acknowledgement, with messages at most put out before, settles the
    queue. -/
theorem exists_path_release (h : s.Consistent) {p : Pending}
    (hpending : s.pending = some p) (events : List Event) :
    ∃ acts, s.Path acts ({ s with pending := none }.emitAll events).drain ∧
      Settle acts s.queue := by
  have hdocument := h.isSome_document (by simp [hpending])
  have hphase : s.phase ≠ .closed := by
    rcases h.document_iff.1 hdocument with hphase | hphase | hphase <;> simp [hphase]
  obtain ⟨acts, hpath, hacts⟩ := exists_path_drain
    (s := { s with pending := none }.emitAll events) rfl hdocument hphase
  exact ⟨_, (Move.released p hpending).path.append
    ((SameWork.emitAll _ events).path.append hpath),
    Settle.released.append (Settle.aside.append hacts)⟩

/-- The patch that a command puts in the queue, if it puts one there. -/
def queuedBy? [RegexLibrary] (s : Session) (c : Command) : Option Submission :=
  if s.document.isSome then s.arrival? c else none

/-- Whether a command ends the wait for an acknowledgement: the peer that is awaited has the
    revision or a later one, or it is overdue. A moment before the edit counts as that of the
    edit. -/
def Frees (s : Session) (p : Pending) : Command → Prop
  | .ack peer revision => p.awaiting = peer ∧ p.revision ≤ revision
  | .message sender m =>
    m.session = s.id ∧ ∃ revision, m.body = .ack revision ∧ p.awaiting = sender ∧
      p.revision ≤ revision
  | .tick now => p.sentAt + s.config.ackTimeoutMs ≤ max p.sentAt now
  | _ => False

/-- Whether a command is an acknowledgement, or a look at the time. -/
def Command.IsAnswer : Command → Prop
  | .ack .. | .tick _ => True
  | .message _ m => ∃ revision, m.body = .ack revision
  | _ => False

/-- The document that a command hands to a session, if it does so. -/
def Command.opens? [RegexLibrary] : Command → Option Document
  | .finishOpen result => result.toOption
  | .openText p text => (Document.ofText p text).toOption
  | _ => none

/-- All that a command can do to what a session works on. -/
inductive Responds [RegexLibrary] (s : Session) (c : Command) (t : Session) : Prop where
  | queues (sub : Submission) (hqueued : s.queuedBy? c = some sub) (heq : s.enqueue sub = .ok t)
  | aside (hqueued : s.queuedBy? c = none) (h : SameWork s t)
  | opens (d : Document) (hopens : c.opens? = some d) (hqueued : s.queuedBy? c = none)
      (hphase : s.phase = .idle ∨ s.phase = .loading)
      (h : SameWork { s with document := some d, phase := .synced } t)
  | edits (now : Nat) (patch : Patch) (current next : Document) (hqueued : s.queuedBy? c = none)
      (hphase : s.phase = .synced) (hdoc : s.document = some current)
      (happly : current.apply patch = .ok next)
      (heq : t = { s.commit .local patch next with
        pending := some ⟨next.revision, .local, .fileSystem, now⟩, phase := .pendingAck })
  | frees (p : Pending) (hqueued : s.queuedBy? c = none) (hpending : s.pending = some p)
      (hfrees : s.Frees p c) (events : List Event)
      (heq : t = ({ s with pending := none }.emitAll events).drain)
  | closes (hclose : c = .close) (heq : t = s.close)

theorem phase_ne_closed (h : s.Consistent) (hdocument : s.document.isSome) :
    s.phase ≠ .closed := by
  rcases h.document_iff.1 hdocument with hphase | hphase | hphase <;> simp [hphase]

theorem exists_enqueue (h : s.Consistent) (hdocument : s.document.isSome) (sub : Submission) :
    ∃ t, s.enqueue sub = .ok t := by
  obtain ⟨d, hdoc⟩ := Option.isSome_iff_exists.1 hdocument
  rw [enqueue, h.openDocument hdoc]
  exact ⟨_, rfl⟩

section Arrival

variable [RegexLibrary]

theorem queuedBy?_of_arrival_none {c : Command} (h : s.arrival? c = none) :
    s.queuedBy? c = none := by
  rw [queuedBy?, h, ite_self]

/-- An operation that needs a document puts the patch that it brings in the queue, or leaves the
    work as it is. -/
theorem responds_of_arrival (h : s.Consistent) {c : Command} {result : Except SessionError Session}
    (herror : ∀ e, s.openDocument = .error e → result = .error e)
    (hok : ∀ d, s.openDocument = .ok d →
      (∃ sub, s.arrival? c = some sub ∧ result = s.enqueue sub) ∨
        s.arrival? c = none ∧ s.SameWork (s.settle result).1) :
    s.Responds c (s.settle result).1 := by
  cases hopen : s.openDocument with
  | error e =>
    have hnone : ¬ s.document.isSome := fun hdocument => by
      obtain ⟨d, hdoc⟩ := Option.isSome_iff_exists.1 hdocument
      simp [h.openDocument hdoc] at hopen
    rw [herror e hopen]
    exact .aside (if_neg hnone) (.refl s)
  | ok d =>
    have hdocument : s.document.isSome := by simp [(openDocument_eq_ok_iff.1 hopen).1]
    obtain ⟨sub, harrival, rfl⟩ | ⟨harrival, hwork⟩ := hok d hopen
    · obtain ⟨t, heq⟩ := exists_enqueue h hdocument sub
      rw [heq]
      exact .queues sub ((if_pos hdocument).trans harrival) heq
    · exact .aside (queuedBy?_of_arrival_none harrival) hwork

theorem responds_submit (h : s.Consistent) {c : Command} (sub : Submission)
    (harrival : s.arrival? c = some sub) : s.Responds c (s.settle (s.enqueue sub)).1 := by
  refine responds_of_arrival h (fun e hopen => ?_) fun d _ => .inl ⟨sub, harrival, rfl⟩
  rw [enqueue, hopen]
  rfl

theorem responds_resync (h : s.Consistent) {c : Command} (peer : PeerId)
    (harrival : s.arrival? c = none) : s.Responds c (s.settle (s.resync peer)).1 := by
  refine responds_of_arrival h (fun e hopen => ?_) fun d hopen => .inr ⟨harrival, ?_⟩
  · rw [resync, hopen]
    rfl
  · rw [resync, hopen]
    exact .sendDocument s peer

theorem responds_fileChanged (h : s.Consistent) (text : String) :
    s.Responds (.fileChanged text) (s.settle (s.fileChanged text)).1 := by
  refine responds_of_arrival h (fun e hopen => ?_) fun d hopen => ?_
  · rw [fileChanged, hopen]
    rfl
  · obtain hbrings | ⟨harrival, heq⟩ := fileChanged_brings hopen text
    · exact .inl hbrings
    · exact .inr ⟨harrival, heq.symm ▸ .refl s⟩

theorem responds_viewEdit (h : s.Consistent) (origin : PeerId) (base : Nat)
    (view : List ViewBlock) :
    s.Responds (.viewEdit origin base view) (s.settle (s.viewEdit origin base view)).1 := by
  refine responds_of_arrival h (fun e hopen => ?_) fun d hopen => ?_
  · rw [viewEdit, hopen]
    rfl
  · obtain hbrings | ⟨harrival, ⟨-, heq⟩ | ⟨-, heq | heq⟩⟩ := viewEdit_brings hopen origin base view
    · exact .inl hbrings
    · exact .inr ⟨harrival, heq.symm ▸ .reject s origin _⟩
    · exact .inr ⟨harrival, heq.symm ▸ .refl s⟩
    · exact .inr ⟨harrival, heq.symm ▸ .sendDocument s origin⟩

end Arrival

section Answer

theorem ack_of_frees {p : Pending} (hpending : s.pending = some p) (hphase : s.phase ≠ .closed)
    {peer : PeerId} {revision : Nat} (h : p.awaiting = peer ∧ p.revision ≤ revision) :
    s.ack peer revision = .ok { s with pending := none }.drain := by
  simp only [ack, if_neg hphase, hpending, if_pos h]

theorem ack_of_not_frees {peer : PeerId} {revision : Nat}
    (h : ∀ p, s.pending = some p → ¬ (p.awaiting = peer ∧ p.revision ≤ revision)) :
    (s.settle (s.ack peer revision)).1 = s := by
  rw [ack]
  split
  · rfl
  · split
    · rename_i p hpending
      rw [if_neg (h p hpending)]
      rfl
    · rfl

theorem le_sub_iff_le_max (timeout sent now : Nat) :
    timeout ≤ now - sent ↔ sent + timeout ≤ max sent now := by
  omega

variable [RegexLibrary]

/-- The end of the wait settles the queue. -/
theorem step_of_frees {p : Pending} (hpending : s.pending = some p) (hphase : s.phase ≠ .closed)
    {c : Command} (h : s.Frees p c) :
    ∃ events, (s.step c).1 = ({ s with pending := none }.emitAll events).drain := by
  cases c with
  | ack peer revision =>
    refine ⟨[], ?_⟩
    rw [step, ack_of_frees hpending hphase h, emitAll_nil]
    rfl
  | message sender m =>
    obtain ⟨hsession, revision, hbody, hawaited⟩ := h
    refine ⟨[], ?_⟩
    simp only [step, handle, hsession, hbody, ne_eq, not_true_eq_false, if_false,
      ack_of_frees hpending hphase hawaited, emitAll_nil]
    rfl
  | tick now =>
    refine ⟨Session.addressed { s with pending := none } p.origin
      (.superseded (s.revision?.getD p.revision) .peerTimeout), ?_⟩
    have htick : (s.step (.tick now)).1 = (s.tick now).1 := rfl
    simp only [htick, tick, hpending, if_pos ((le_sub_iff_le_max _ _ _).2 h), send_eq]
  | _ => exact h.elim

/-- Any other acknowledgement, and a look at the time before, has no effect at all. -/
theorem step_of_not_frees {c : Command} (hanswer : c.IsAnswer)
    (h : ∀ p, s.pending = some p → ¬ s.Frees p c) : (s.step c).1 = s := by
  cases c with
  | ack peer revision => exact ack_of_not_frees h
  | message sender m =>
    obtain ⟨revision, hbody⟩ := hanswer
    by_cases hsession : m.session = s.id
    · have hack : (s.settle (s.ack sender revision)).1 = s :=
        ack_of_not_frees fun p hpending hawaited =>
          h p hpending ⟨hsession, revision, hbody, hawaited⟩
      simpa only [step, handle, hsession, hbody, ne_eq, not_true_eq_false, if_false] using hack
    · simp only [step, handle, ne_eq, hsession, not_false_eq_true, if_true]
      rfl
  | tick now =>
    change (s.tick now).1 = s
    rw [tick]
    split
    · rename_i p hpending
      rw [if_neg fun hle => h p hpending ((le_sub_iff_le_max _ _ _).1 hle)]
    · rfl
  | _ => exact hanswer.elim

theorem responds_answer (h : s.Consistent) {c : Command} (hanswer : c.IsAnswer) :
    s.Responds c (s.step c).1 := by
  have hqueued : s.queuedBy? c = none := by
    refine queuedBy?_of_arrival_none ?_
    cases c with
    | ack peer revision => rfl
    | tick now => rfl
    | message sender m =>
      obtain ⟨revision, hbody⟩ := hanswer
      simp only [arrival?, hbody]
    | _ => exact hanswer.elim
  by_cases hfrees : ∃ p, s.pending = some p ∧ s.Frees p c
  · obtain ⟨p, hpending, hfrees⟩ := hfrees
    have hphase := phase_ne_closed h (h.isSome_document (by simp [hpending]))
    obtain ⟨events, heq⟩ := step_of_frees hpending hphase hfrees
    exact .frees p hqueued hpending hfrees events heq
  · rw [step_of_not_frees hanswer fun p hpending hp => hfrees ⟨p, hpending, hp⟩]
    exact .aside hqueued (.refl s)

end Answer

theorem responds_finishOpen [RegexLibrary] (result : Except SegmentError Document) :
    s.Responds (.finishOpen result) (s.finishOpen result).1 := by
  have hqueued : s.queuedBy? (.finishOpen result) = none := queuedBy?_of_arrival_none rfl
  obtain ⟨d, rfl, hphase, heq⟩ | ⟨hphase, heq⟩ | ⟨-, heq⟩ := finishOpen_cases s result
  · rw [heq, sendAll_eq]
    exact .opens d rfl hqueued (.inr hphase) (.emitAll _ _)
  · rw [heq]
    exact .aside hqueued ⟨rfl, rfl, rfl, rfl, rfl, by simp [hphase]⟩
  · rw [heq]
    exact .aside hqueued (.refl s)

theorem responds_message [RegexLibrary] (h : s.Consistent) (sender : PeerId) (m : Message) :
    s.Responds (.message sender m) (s.step (.message sender m)).1 := by
  by_cases hsession : m.session = s.id
  · cases hbody : m.body with
    | patch patch =>
      have hstep : (s.step (.message sender m)).1 =
          (s.settle (s.enqueue ⟨sender, patch, false⟩)).1 := by
        simp only [step, handle, hsession, hbody, ne_eq, not_true_eq_false, if_false, submit]
      rw [hstep]
      exact responds_submit h _ (by simp only [arrival?, hbody, if_pos hsession])
    | ack revision => exact responds_answer h ⟨revision, hbody⟩
    | fullDocument snapshot =>
      have hstep : (s.step (.message sender m)).1 = (s.settle (s.resync sender)).1 := by
        simp only [step, handle, hsession, hbody, ne_eq, not_true_eq_false, if_false]
      rw [hstep]
      exact responds_resync h sender (by simp only [arrival?, hbody])
    | superseded revision reason =>
      have hstep : (s.step (.message sender m)).1 = s := by
        simp only [step, handle, hsession, hbody, ne_eq, not_true_eq_false, if_false, settle]
      rw [hstep]
      exact .aside (queuedBy?_of_arrival_none (by simp only [arrival?, hbody])) (.refl s)
  · have hstep : (s.step (.message sender m)).1 = s := by
      simp only [step, handle, ne_eq, hsession, not_false_eq_true, if_true, settle]
    have harrival : s.arrival? (.message sender m) = none := by
      cases hbody : m.body <;> simp only [arrival?, hbody, if_neg hsession]
    rw [hstep]
    exact .aside (queuedBy?_of_arrival_none harrival) (.refl s)

theorem responds_step [RegexLibrary] (h : s.Consistent) (c : Command) :
    s.Responds c (s.step c).1 := by
  cases c with
  | beginOpen =>
    refine .aside (queuedBy?_of_arrival_none rfl) ?_
    rw [step]
    cases heq : s.beginOpen with
    | error e => exact .refl s
    | ok t =>
      obtain ⟨hphase, rfl⟩ := beginOpen_eq_ok heq
      exact ⟨rfl, rfl, rfl, rfl, rfl, by simp [settle, hphase]⟩
  | finishOpen result => exact responds_finishOpen result
  | openText p text =>
    have hqueued : s.queuedBy? (.openText p text) = none := queuedBy?_of_arrival_none rfl
    change s.Responds _ (s.openText p text).1
    obtain heq | ⟨t, hbegin, heq⟩ := openText_cases s p text
    · rw [heq]
      exact .aside hqueued (.refl s)
    · obtain ⟨hphase, rfl⟩ := beginOpen_eq_ok hbegin
      rw [heq]
      obtain ⟨d, hd, -, heq⟩ | ⟨-, heq⟩ | ⟨hloading, -⟩ :=
        finishOpen_cases { s with phase := .loading } (Document.ofText p text)
      · rw [heq, sendAll_eq]
        exact .opens d (by rw [Command.opens?, hd]; rfl) hqueued (.inl hphase) (.emitAll _ _)
      · rw [heq]
        exact .aside hqueued ⟨rfl, rfl, rfl, rfl, rfl, by simp [hphase]⟩
      · exact absurd rfl hloading
  | close => exact .closes rfl rfl
  | subscribe peer => exact .aside (queuedBy?_of_arrival_none rfl) (.subscribe s peer)
  | unsubscribe peer =>
    exact .aside (queuedBy?_of_arrival_none rfl) ⟨rfl, rfl, rfl, rfl, rfl, .rfl⟩
  | resync peer => exact responds_resync h peer rfl
  | message sender m => exact responds_message h sender m
  | submit origin patch => exact responds_submit h _ rfl
  | localEdit now patch =>
    have hqueued : s.queuedBy? (.localEdit now patch) = none := queuedBy?_of_arrival_none rfl
    rw [step]
    split
    · obtain ⟨current, next, hopen, hphase, happly, -, heq⟩ := localEdit_eq_ok ‹_›
      exact .edits now patch current next hqueued hphase (openDocument_eq_ok_iff.1 hopen).1 happly
        heq
    · exact .aside hqueued (.refl s)
  | ack peer revision => exact responds_answer h trivial
  | tick now => exact responds_answer h trivial
  | fileChanged text => exact responds_fileChanged h text
  | viewEdit origin base view => exact responds_viewEdit h origin base view

section Run

variable {c : Command} {acts : List Act}

/-- The way that a command takes puts the patch that it brings in the queue, and no other, and
    opens no document but the one that the command hands over. -/
theorem Responds.exists_path [RegexLibrary] (h : s.Consistent) (hresponds : s.Responds c t) :
    ∃ acts, s.Path acts t ∧ queuedIn acts = (s.queuedBy? c).toList ∧
      ∀ d, .opened d ∈ acts → c.opens? = some d := by
  cases hresponds with
  | queues sub hqueued heq =>
    rw [hqueued]
    obtain ⟨d, hopen, hcase⟩ := enqueue_eq_ok heq
    have hdocument : s.document.isSome := by simp [(openDocument_eq_ok_iff.1 hopen).1]
    have hphase := phase_ne_closed h hdocument
    obtain ⟨-, rfl⟩ | ⟨hpending, rfl⟩ := hcase
    · refine ⟨[.queued sub], (Move.queued sub hdocument hphase ?_).path, rfl, by simp⟩
      refine ⟨rfl, rfl, rfl, rfl, rfl, ?_⟩
      dsimp only
      split <;> simp [hphase]
    · obtain ⟨acts, hpath, hacts⟩ :=
        exists_path_drain (s := { s with queue := s.queue ++ [sub] }) hpending hdocument hphase
      exact ⟨_, .cons (.queued sub hdocument hphase (.refl _)) hpath,
        congrArg (sub :: ·) hacts.queuedIn_eq, fun d hd =>
          absurd ((List.mem_cons.1 hd).resolve_left (by simp)) (hacts.not_opened d)⟩
  | aside hqueued hwork => exact ⟨_, hwork.path, by rw [hqueued]; rfl, by simp⟩
  | opens d hopens hqueued hphase hwork =>
    have hnone : s.document = none := by
      rw [← Option.not_isSome_iff_eq_none, h.document_iff]
      rcases hphase with hphase | hphase <;> simp [hphase]
    have hopen : s.phase ≠ .closed := by
      rcases hphase with hphase | hphase <;> simp [hphase]
    refine ⟨_, (Move.opened d hnone hopen ?_).path, by rw [hqueued]; rfl, by simp [hopens]⟩
    exact ⟨hwork.config_eq, hwork.document_eq, hwork.history_eq, hwork.queue_eq,
      hwork.pending_eq, hwork.closed_iff.trans (by simp [hopen])⟩
  | edits now patch current next hqueued hphase hdoc happly heq =>
    have hpending := h.pending_eq_none hphase
    rw [heq]
    exact ⟨_, (Move.edited now patch current next hpending (h.queue_nil hpending)
      (by simp [hphase]) hdoc happly).path, by rw [hqueued]; rfl, by simp⟩
  | frees p hqueued hpending hfrees events heq =>
    obtain ⟨acts, hpath, hacts⟩ := exists_path_release h hpending events
    rw [heq, hqueued]
    exact ⟨acts, hpath, hacts.queuedIn_eq, fun d hd => absurd hd (hacts.not_opened d)⟩
  | closes hclose heq =>
    rw [heq, hclose]
    exact ⟨_, Move.closed.path, by rw [queuedBy?_of_arrival_none rfl]; rfl, by simp⟩

/-- A document is there until the session is closed. -/
theorem Responds.isSome_document [RegexLibrary] (hresponds : s.Responds c t)
    (hdocument : s.document.isSome) (hclose : c ≠ .close) : t.document.isSome := by
  have hdrain : ∀ {u : Session}, u.document.isSome → u.pending = none → u.drain.document.isSome :=
    fun hu hpending => by
      rw [drain_of_not_pending hpending hu]
      exact (settles_foldl _ _).isSome_document.trans hu
  cases hresponds with
  | queues sub _ heq =>
    obtain ⟨d, -, ⟨-, rfl⟩ | ⟨hpending, rfl⟩⟩ := enqueue_eq_ok heq
    · exact hdocument
    · exact hdrain hdocument hpending
  | aside _ hwork => rwa [hwork.document_eq]
  | opens d _ _ _ hwork => simp [hwork.document_eq]
  | edits now patch current next _ _ hdoc _ heq =>
    rw [heq, commit_eq hdoc]
    rfl
  | frees p _ _ _ events heq =>
    rw [heq]
    exact hdrain hdocument rfl
  | closes hclosed => exact absurd hclosed hclose

/-- While an acknowledgement is outstanding, a patch that arrives waits behind the others, and
    there is no way for any of them to be settled. -/
theorem Responds.waiting [RegexLibrary] (h : s.Consistent) (hresponds : s.Responds c t)
    {p : Pending} (hpending : s.pending = some p) (hfrees : ¬ s.Frees p c) (hclose : c ≠ .close) :
    t.document = s.document ∧ t.history = s.history ∧ t.pending = some p ∧
      t.queue = s.queue ++ (s.queuedBy? c).toList := by
  have hphase := h.pending_iff.1 (by simp [hpending])
  cases hresponds with
  | queues sub hqueued heq =>
    rw [hqueued]
    obtain ⟨d, -, ⟨-, rfl⟩ | ⟨hnone, -⟩⟩ := enqueue_eq_ok heq
    · exact ⟨rfl, rfl, hpending, rfl⟩
    · simp [hnone] at hpending
  | aside hqueued hwork =>
    rw [hqueued]
    exact ⟨hwork.document_eq, hwork.history_eq, hwork.pending_eq.trans hpending,
      hwork.queue_eq.trans (List.append_nil _).symm⟩
  | opens d _ _ hearly =>
    rcases hphase with hphase | hphase <;> simp [hphase] at hearly
  | edits now patch current next _ hsynced =>
    rcases hphase with hphase | hphase <;> simp [hphase] at hsynced
  | frees q _ hpending' hfrees' =>
    rw [hpending, Option.some.injEq] at hpending'
    exact absurd (hpending' ▸ hfrees') hfrees
  | closes hclosed => exact absurd hclosed hclose

/-- The patches that the commands of a run put in the queue, in order. -/
def arrivals [RegexLibrary] : Session → List Command → List Submission
  | _, [] => []
  | s, c :: commands => (s.queuedBy? c).toList ++ arrivals (s.step c).1 commands

theorem exists_path_run [RegexLibrary] (h : s.Consistent) (commands : List Command) :
    ∃ acts, s.Path acts (s.run commands) ∧ queuedIn acts = s.arrivals commands ∧
      ∀ d, .opened d ∈ acts → ∃ c ∈ commands, c.opens? = some d := by
  induction commands generalizing s with
  | nil => exact ⟨[], .nil s, rfl, nofun⟩
  | cons c commands ih =>
    obtain ⟨first, hfirst, hqueued, hopened⟩ := (responds_step h c).exists_path h
    obtain ⟨others, hothers, hrest, hlater⟩ := ih (h.step c)
    refine ⟨first ++ others, hfirst.append hothers, ?_, fun d hd => ?_⟩
    · rw [queuedIn_append, hqueued, hrest, arrivals]
    · rcases List.mem_append.1 hd with hd | hd
      · exact ⟨c, List.mem_cons_self, hopened d hd⟩
      · obtain ⟨c', hc', hopens⟩ := hlater d hd
        exact ⟨c', List.mem_cons_of_mem c hc', hopens⟩

theorem Path.split {xs ys : List Act} (h : s.Path (xs ++ ys) u) :
    ∃ t, s.Path xs t ∧ t.Path ys u := by
  induction xs generalizing s with
  | nil => exact ⟨s, .nil s, h⟩
  | cons act xs ih =>
    obtain _ | ⟨hmove, hrest⟩ := h
    obtain ⟨t, hxs, hys⟩ := ih hrest
    exact ⟨t, .cons hmove hxs, hys⟩

/-- Each act takes from the front of the queue what it decides about, and adds behind. -/
theorem Move.balance {act : Act} (h : s.Move act t) :
    s.queue ++ queuedIn [act] = act.outcomes.map (·.1) ++ t.queue := by
  cases h with
  | opened d _ _ hwork => exact (List.append_nil _).trans hwork.queue_eq.symm
  | queued sub _ _ hwork => exact hwork.queue_eq.symm
  | released p _ => exact List.append_nil _
  | committed sub rest current carried next _ hqueue =>
    rw [(settles_process { s with queue := rest } sub).queue_eq, hqueue]
    exact List.append_nil _
  | rejected sub rest current e _ hqueue =>
    rw [(settles_process { s with queue := rest } sub).queue_eq, hqueue]
    exact List.append_nil _
  | edited now patch current next _ hqueue _ hdoc =>
    have hnext : (s.commit .local patch next).queue = s.queue := by rw [commit_eq hdoc]
    simp [queuedIn, Act.outcomes, hnext, hqueue]
  | closed => simp [queuedIn, Act.outcomes, Session.close, Function.comp_def]
  | aside hwork => exact (List.append_nil _).trans hwork.queue_eq.symm

/-- What has been put in the queue is decided about in the same order, or is still in the
    queue. -/
theorem Path.balance (h : s.Path acts t) :
    s.queue ++ queuedIn acts = (outcomesIn acts).map (·.1) ++ t.queue := by
  induction h with
  | nil s => exact List.append_nil _
  | @cons s t u act acts hmove _ ih =>
    calc s.queue ++ queuedIn (act :: acts)
        = s.queue ++ queuedIn [act] ++ queuedIn acts := by
          rw [List.append_assoc, ← queuedIn_append]
          rfl
      _ = act.outcomes.map (·.1) ++ (t.queue ++ queuedIn acts) := by
          rw [hmove.balance, List.append_assoc]
      _ = (outcomesIn (act :: acts)).map (·.1) ++ u.queue := by
          rw [ih, ← List.append_assoc, ← List.map_append]
          rfl

theorem Move.closed_of_closed {act : Act} (h : s.Move act t) (hphase : s.phase = .closed) :
    t.phase = .closed := by
  cases h with
  | opened d _ hopen _ => exact absurd hphase hopen
  | queued sub _ hopen _ => exact absurd hphase hopen
  | released p _ => exact hphase
  | committed sub rest => exact (settles_process { s with queue := rest } sub).phase_eq.trans hphase
  | rejected sub rest => exact (settles_process { s with queue := rest } sub).phase_eq.trans hphase
  | edited now patch current next _ _ hopen => exact absurd hphase hopen
  | closed => rfl
  | aside hwork => exact hwork.closed_iff.2 hphase

theorem Path.closed_of_closed (h : s.Path acts t) (hphase : s.phase = .closed) :
    t.phase = .closed := by
  induction h with
  | nil s => exact hphase
  | cons hmove _ ih => exact ih (hmove.closed_of_closed hphase)

/-- Patches are discarded by nothing but the end of the session. -/
theorem Path.not_discarded (h : s.Path acts t) (hphase : t.phase ≠ .closed) :
    ∀ o ∈ outcomesIn acts, o.2 ≠ .discarded := by
  induction h with
  | nil s => simp [outcomesIn]
  | @cons s t u act acts hmove hrest ih =>
    intro o ho
    rw [outcomesIn, List.flatMap_cons, List.mem_append] at ho
    refine ho.elim (fun ho => ?_) (ih hphase o)
    cases hmove with
    | closed => exact absurd (hrest.closed_of_closed rfl) hphase
    | committed | rejected => simp_all [Act.outcomes]
    | _ => cases ho

end Run

end LiterateSync.Session
