import LiterateSync.Proofs.Session.Invariant

namespace LiterateSync.Session

/-- The submission that a command brings, if it brings one. -/
def arrival? [RegexLibrary] (s : Session) : Command → Option Submission
  | .submit origin patch => some ⟨origin, patch, false⟩
  | .message sender m =>
    match m.body with
    | .patch patch => if m.session = s.id then some ⟨sender, patch, false⟩ else none
    | _ => none
  | .fileChanged text => do
    let current ← s.document
    if s.recentWrites.contains text && current.text ≠ text then none
    else
      let candidate ← (Document.openWith current.profile (.seeded "fs") text).toOption
      let patch := current.diff candidate
      if patch.ops.isEmpty then none else some ⟨.fileSystem, patch, false⟩
  | .viewEdit origin base view => do
    let shown ← s.documentAt? base
    let candidate ← (shown.ofView view).toOption
    let patch := shown.diff candidate
    if patch.ops.isEmpty then none else some ⟨origin, patch, isReshaped candidate view⟩
  | _ => none

/-- The submissions that a command makes a session with a document settle, in order. A local edit
    is settled at once, and the others when nothing is outstanding any more. -/
def settling [RegexLibrary] (s : Session) (c : Command) : List Submission :=
  if s.document.isNone then []
  else
    match c with
    | .localEdit now patch =>
      match s.localEdit now patch with
      | .ok _ => [⟨.local, patch, false⟩]
      | .error _ => []
    | c => if (s.step c).1.phase = .synced then s.queue ++ (s.arrival? c).toList else []

/-- The session when it begins to settle them. A peer whose acknowledgement is overdue has been
    told so by then. -/
def released (s : Session) (c : Command) : Session :=
  match c with
  | .tick _ =>
    match s.pending with
    | some p =>
      { { s with pending := none }.send p.origin
          (.superseded (s.revision?.getD p.revision) .peerTimeout) with queue := [] }
    | none => { s with queue := [] }
  | _ => { s with queue := [], pending := none }

/-- Whether each of some submissions has a property in the state in which it is settled. -/
def EachSettled (P : Session → Submission → Prop) : Session → List Submission → Prop
  | _, [] => True
  | s, sub :: subs => P s sub ∧ EachSettled P (s.process sub) subs

/-- Whether each submission that is settled in a run has a property in the state in which it is
    settled. -/
def Always [RegexLibrary] (P : Session → Submission → Prop) : Session → List Command → Prop
  | _, [] => True
  | s, c :: commands =>
    EachSettled P (s.released c) (s.settling c) ∧ Always P (s.step c).1 commands

section

variable {P : Session → Submission → Prop} [∀ s sub, Decidable (P s sub)]

instance decidableEachSettled :
    (s : Session) → (subs : List Submission) → Decidable (EachSettled P s subs)
  | _, [] => inferInstanceAs (Decidable True)
  | s, sub :: subs =>
    have := decidableEachSettled (s.process sub) subs
    inferInstanceAs (Decidable (_ ∧ _))

instance decidableAlways [RegexLibrary] :
    (s : Session) → (commands : List Command) → Decidable (Always P s commands)
  | _, [] => inferInstanceAs (Decidable True)
  | s, c :: commands =>
    have := decidableAlways (s.step c).1 commands
    inferInstanceAs (Decidable (_ ∧ _))

end

theorem eachSettled_of_forall {P : Session → Submission → Prop} (h : ∀ s sub, P s sub)
    (s : Session) (subs : List Submission) : EachSettled P s subs := by
  induction subs generalizing s with
  | nil => trivial
  | cons sub subs ih => exact ⟨h s sub, ih _⟩

theorem always_of_forall [RegexLibrary] {P : Session → Submission → Prop} (h : ∀ s sub, P s sub)
    (s : Session) (commands : List Command) : Always P s commands := by
  induction commands generalizing s with
  | nil => trivial
  | cons c commands ih => exact ⟨eachSettled_of_forall h _ _, ih _⟩

/-- A property of sessions that is kept by all that commands are made of, if the submissions that
    are settled have the property `P`. -/
structure Preserves (P : Session → Submission → Prop) (I : Session → Prop) : Prop where
  process : ∀ {s : Session} {sub : Submission}, s.Recorded → I s → P s sub → I (s.process sub)
  reject : ∀ {s : Session} (origin : PeerId) (reason : SupersedeReason), s.document.isSome →
    I s → I (s.reject origin reason)
  /-- What waits and for what has no part in the property. -/
  waits : ∀ {s : Session} (phase : Phase) (queue : List Submission) (pending : Option Pending),
    s.document.isSome → I s → I { s with phase, queue, pending }
  notice : ∀ {s : Session} (peer : PeerId) (revision : Nat) (reason : SupersedeReason),
    s.document.isSome → I s → I (s.send peer (.superseded revision reason))
  resync : ∀ {s : Session} (peer : PeerId), I s → I (s.sendDocument peer)
  subscribe : ∀ {s : Session} (peer : PeerId), I s → I (s.subscribe peer)
  unsubscribe : ∀ {s : Session} (peer : PeerId), I s → I (s.unsubscribe peer)
  turn : ∀ {s : Session} (phase : Phase), s.document = none → s.phase ≠ .closed → I s →
    I { s with phase }
  opening : ∀ {s : Session} (d : Document), s.document = none → s.history = [] →
    s.phase ≠ .closed → I s →
    I ({ s with document := some d, phase := .synced }.sendAll s.subscribers
      (.fullDocument (some d.snapshot)))
  close : ∀ {s : Session}, I s → I s.close

theorem settling_of_document_none [RegexLibrary] {s : Session} (hnone : s.document = none)
    (c : Command) : s.settling c = [] := by
  rw [settling.eq_def, hnone]
  rfl

theorem settling_of_synced [RegexLibrary] {s : Session} {c : Command}
    (hdocument : s.document.isSome) (hne : ∀ now patch, c ≠ .localEdit now patch)
    (hphase : (s.step c).1.phase = .synced) : s.settling c = s.queue ++ (s.arrival? c).toList := by
  obtain ⟨d, hdoc⟩ := Option.isSome_iff_exists.1 hdocument
  rw [settling.eq_def, if_neg (by simp [hdoc])]
  cases c with
  | localEdit now patch => exact absurd rfl (hne now patch)
  | _ => exact if_pos hphase

theorem settling_of_localEdit [RegexLibrary] {s t : Session} {now revision : Nat} {patch : Patch}
    (heq : s.localEdit now patch = .ok (t, revision)) :
    s.settling (.localEdit now patch) = [⟨.local, patch, false⟩] := by
  obtain ⟨current, next, hopen, -⟩ := localEdit_eq_ok heq
  simp [settling, heq, (openDocument_eq_ok_iff.1 hopen).1]

/-- Nothing waits when a local edit is made. -/
theorem released_of_localEdit {s t : Session} (hc : s.Consistent) {now revision : Nat}
    {patch : Patch} (heq : s.localEdit now patch = .ok (t, revision)) :
    s.released (.localEdit now patch) = s := by
  obtain ⟨current, next, -, hphase, -⟩ := localEdit_eq_ok heq
  have hpending := hc.pending_eq_none hphase
  have hqueue := hc.queue_nil hpending
  cases s
  simp_all [released]

theorem process_of_localEdit {s : Session} {current next : Document} {patch : Patch}
    (hdoc : s.document = some current) (happly : current.apply patch = .ok next) :
    s.process ⟨.local, patch, false⟩ = s.commit .local patch next := by
  have hbase : patch.base = current.revision := (revision_of_apply happly).1
  have hreconcile : s.reconcile current .local patch = .ok (⟨patch, []⟩, next) := by
    rw [reconcile, carryToCurrent, if_neg (by omega)]
    simp only [happly]
  rw [process_of_ok hdoc hreconcile, commit_eq hdoc]
  simp [acceptEvents]

/-- Whatever a file is found to hold is a patch that comes into the queue, or it changes nothing. -/
theorem fileChanged_brings [RegexLibrary] {s : Session} {d : Document}
    (hopen : s.openDocument = .ok d) (text : String) :
    (∃ sub, s.arrival? (.fileChanged text) = some sub ∧ s.fileChanged text = s.enqueue sub) ∨
      s.arrival? (.fileChanged text) = none ∧ (s.settle (s.fileChanged text)).1 = s := by
  simp only [fileChanged, hopen, arrival?, (openDocument_eq_ok_iff.1 hopen).1, bind, Except.bind,
    Option.bind_some]
  split
  · exact .inr ⟨rfl, rfl⟩
  · cases hcandidate : Document.openWith d.profile (.seeded "fs") text with
    | error e => exact .inr ⟨rfl, rfl⟩
    | ok candidate =>
      simp only [Except.toOption, Option.bind_some]
      split
      · exact .inr ⟨rfl, rfl⟩
      · exact .inl ⟨_, rfl, rfl⟩

/-- Whatever a view was edited into is a patch that comes into the queue, or leads to a message at
    most. A view of an unknown revision is rejected. -/
theorem viewEdit_brings [RegexLibrary] {s : Session} {d : Document} (hopen : s.openDocument = .ok d)
    (origin : PeerId) (base : Nat) (view : List ViewBlock) :
    (∃ sub, s.arrival? (.viewEdit origin base view) = some sub ∧
        s.viewEdit origin base view = s.enqueue sub) ∨
      s.arrival? (.viewEdit origin base view) = none ∧
        (s.documentAt? base = none ∧
            s.viewEdit origin base view = .ok (s.reject origin .revisionMismatch) ∨
          s.documentAt? base ≠ none ∧
            ((s.settle (s.viewEdit origin base view)).1 = s ∨
              (s.settle (s.viewEdit origin base view)).1 = s.sendDocument origin)) := by
  simp only [viewEdit, hopen, arrival?, bind, Except.bind]
  cases hshown : s.documentAt? base with
  | none => exact .inr ⟨rfl, .inl ⟨rfl, rfl⟩⟩
  | some shown =>
    simp only [Option.bind_some]
    cases hcandidate : shown.ofView view with
    | error e => exact .inr ⟨rfl, .inr ⟨Option.some_ne_none shown, .inl rfl⟩⟩
    | ok candidate =>
      simp only [Except.toOption, Option.bind_some]
      split
      · refine .inr ⟨rfl, .inr ⟨Option.some_ne_none shown, ?_⟩⟩
        cases isReshaped candidate view
        · exact .inl rfl
        · exact .inr rfl
      · exact .inl ⟨_, rfl, rfl⟩

theorem fileChanged_arrival [RegexLibrary] {s t : Session} {text : String}
    (h : s.fileChanged text = .ok t) :
    t = s ∨ ∃ sub, s.arrival? (.fileChanged text) = some sub ∧ s.enqueue sub = .ok t := by
  obtain ⟨d, hopen, -⟩ := fileChanged_eq_ok h
  obtain ⟨sub, harrival, heq⟩ | ⟨-, heq⟩ := fileChanged_brings hopen text
  · exact .inr ⟨sub, harrival, heq ▸ h⟩
  · rw [h] at heq
    exact .inl heq

theorem viewEdit_arrival [RegexLibrary] {s t : Session} {origin : PeerId} {base : Nat}
    {view : List ViewBlock} (h : s.viewEdit origin base view = .ok t) :
    (s.document.isSome ∧ t = s.reject origin .revisionMismatch ∨ t = s ∨
        t = s.sendDocument origin) ∨
      ∃ sub, s.arrival? (.viewEdit origin base view) = some sub ∧ s.enqueue sub = .ok t := by
  obtain ⟨d, hopen, -⟩ := viewEdit_eq_ok h
  obtain ⟨sub, harrival, heq⟩ | ⟨-, ⟨-, heq⟩ | ⟨-, heq⟩⟩ := viewEdit_brings hopen origin base view
  · exact .inr ⟨sub, harrival, heq ▸ h⟩
  · have hdocument : s.document.isSome := by simp [(openDocument_eq_ok_iff.1 hopen).1]
    exact .inl (.inl ⟨hdocument, Except.ok.inj (h.symm.trans heq)⟩)
  · rw [h] at heq
    exact .inl (.inr heq)

theorem recorded_released {s : Session} (h : s.Recorded) (c : Command) :
    (s.released c).Recorded := by
  rw [released.eq_def]
  split
  · split
    · rw [send_eq]
      exact ⟨h.replays, h.length_le, h.nil_of_none⟩
    · exact ⟨h.replays, h.length_le, h.nil_of_none⟩
  · exact ⟨h.replays, h.length_le, h.nil_of_none⟩

namespace Preserves

variable {P Q : Session → Submission → Prop} {I : Session → Prop} {s t : Session}

theorem foldl (hp : Preserves P I) {subs : List Submission} (hrecorded : s.Recorded) (h : I s)
    (heach : EachSettled P s subs) : I (subs.foldl Session.process s) := by
  induction subs generalizing s with
  | nil => exact h
  | cons sub subs ih =>
    exact ih ((settles_process s sub).recorded hrecorded) (hp.process hrecorded h heach.1) heach.2

theorem drain (hp : Preserves P I) (hrecorded : s.Recorded) (hdocument : s.document.isSome)
    (hpending : s.pending = none) (h : I s)
    (heach : EachSettled P { s with queue := [] } s.queue) : I s.drain := by
  have hstart : Session.Recorded { s with queue := [] } :=
    ⟨hrecorded.replays, hrecorded.length_le, hrecorded.nil_of_none⟩
  have hsettled : I s.settled :=
    hp.foldl hstart (hp.waits s.phase [] s.pending hdocument h) heach
  rw [drain_of_not_pending hpending hdocument]
  have hsome : s.settled.document.isSome :=
    (settles_foldl { s with queue := [] } s.queue).isSome_document.trans hdocument
  exact hp.waits .synced _ _ hsome hsettled

theorem enqueue (hp : Preserves P I) (hc : s.Consistent) (h : I s) {sub : Submission}
    (heq : s.enqueue sub = .ok t)
    (heach : t.phase = .synced →
      EachSettled P { s with queue := [], pending := none } (s.queue ++ [sub])) : I t := by
  obtain ⟨d, hopen, hcase⟩ := enqueue_eq_ok heq
  have hsome : s.document.isSome := by simp [(openDocument_eq_ok_iff.1 hopen).1]
  obtain ⟨-, rfl⟩ | ⟨hpending, rfl⟩ := hcase
  · exact hp.waits _ _ s.pending hsome h
  · have hrecorded : Session.Recorded { s with queue := s.queue ++ [sub] } :=
      ⟨hc.replays, hc.history_length_le, hc.recorded.nil_of_none⟩
    refine hp.drain hrecorded hsome hpending (hp.waits _ _ s.pending hsome h) ?_
    have hdrain := drain_of_not_pending (s := { s with queue := s.queue ++ [sub] }) hpending hsome
    have hsettled := heach (by rw [hdrain])
    rw [← hpending] at hsettled
    exact hsettled

/-- A submission that a command brings is settled behind the queue, or waits. -/
theorem arrive [RegexLibrary] (hp : Preserves P I) (hc : s.Consistent) (h : I s) {c : Command}
    {sub : Submission} (hstep : (s.step c).1 = t)
    (hne : ∀ now patch, c ≠ .localEdit now patch)
    (hreleased : s.released c = { s with queue := [], pending := none })
    (harrival : s.arrival? c = some sub)
    (heach : EachSettled P (s.released c) (s.settling c)) (heq : s.enqueue sub = .ok t) : I t := by
  refine hp.enqueue hc h heq fun hphase => ?_
  obtain ⟨d, hopen, -⟩ := enqueue_eq_ok heq
  have hdocument : s.document.isSome := by simp [(openDocument_eq_ok_iff.1 hopen).1]
  rw [← hstep] at hphase
  rw [hreleased, settling_of_synced hdocument hne hphase, harrival] at heach
  exact heach

theorem localEdit [RegexLibrary] (hp : Preserves P I) (hc : s.Consistent) (h : I s)
    {now revision : Nat} {patch : Patch} (heq : s.localEdit now patch = .ok (t, revision))
    (heach : EachSettled P (s.released (.localEdit now patch))
      (s.settling (.localEdit now patch))) : I t := by
  rw [settling_of_localEdit heq, released_of_localEdit hc heq] at heach
  obtain ⟨current, next, hopen, -, happly, -, rfl⟩ := localEdit_eq_ok heq
  have hdoc := (openDocument_eq_ok_iff.1 hopen).1
  have hcommitted := hp.process hc.recorded h heach.1
  rw [process_of_localEdit hdoc happly] at hcommitted
  refine hp.waits .pendingAck _ _ ?_ hcommitted
  rw [commit_eq hdoc]
  rfl

/-- The queue is settled when the acknowledgement that was awaited has come. -/
theorem release (hp : Preserves P I) (hc : s.Consistent) (hdocument : s.document.isSome)
    {events : List Event} (h : I (s.emitAll events))
    (heach : EachSettled P ({ s with queue := [], pending := none }.emitAll events) s.queue) :
    I ({ s with pending := none }.emitAll events).drain :=
  hp.drain ⟨hc.replays, hc.history_length_le, hc.recorded.nil_of_none⟩ hdocument rfl
    (hp.waits (s := s.emitAll events) s.phase s.queue none hdocument h) heach

theorem ack (hp : Preserves P I) (hc : s.Consistent) (h : I s) {peer : PeerId} {revision : Nat}
    (heq : s.ack peer revision = .ok t)
    (heach : s.document.isSome → t.phase = .synced →
      EachSettled P { s with queue := [], pending := none } s.queue) : I t := by
  obtain rfl | ⟨p, hpending, -, -, rfl⟩ := ack_eq_ok heq
  · exact h
  · have hdocument := hc.isSome_document (by simp [hpending])
    have hdrain := drain_of_not_pending (s := { s with pending := none }) rfl hdocument
    have hsettled := heach hdocument (by rw [hdrain])
    rw [← emitAll_nil { s with queue := [], pending := none }] at hsettled
    rw [← emitAll_nil s] at h
    have hreleased := hp.release hc hdocument h hsettled
    rwa [emitAll_nil] at hreleased

theorem tick [RegexLibrary] (hp : Preserves P I) (hc : s.Consistent) (h : I s) (now : Nat)
    (heach : EachSettled P (s.released (.tick now)) (s.settling (.tick now))) :
    I (s.tick now).1 := by
  obtain heq | ⟨p, hpending, heq⟩ := tick_cases s now
  · rw [heq]
    exact h
  · have hdocument := hc.isSome_document (by simp [hpending])
    have hnotice := hp.notice p.origin (s.revision?.getD p.revision) .peerTimeout hdocument h
    rw [send_eq] at hnotice heq
    have hdrain := drain_of_not_pending
      (s := { s with pending := none }.emitAll (Session.addressed { s with pending := none }
        p.origin (.superseded (s.revision?.getD p.revision) .peerTimeout))) rfl hdocument
    have hphase : (s.step (.tick now)).1.phase = .synced := by
      change (s.tick now).1.phase = .synced
      rw [heq, hdrain]
    have hqueue : s.settling (.tick now) = s.queue := by
      rw [settling_of_synced hdocument (by simp) hphase]
      exact List.append_nil _
    simp only [hqueue, released, hpending, send_eq] at heach
    rw [heq]
    exact hp.release hc hdocument hnotice heach

theorem finishOpen (hp : Preserves P I) (hc : s.Consistent) (h : I s)
    (result : Except SegmentError Document) : I (s.finishOpen result).1 := by
  obtain ⟨d, -, hphase, heq⟩ | ⟨hphase, heq⟩ | ⟨-, heq⟩ := finishOpen_cases s result
  · obtain ⟨hnone, -, hhistory, -⟩ := hc.nil_of_phase (.inr (.inl hphase))
    rw [heq]
    exact hp.opening d hnone hhistory (by simp [hphase]) h
  · rw [heq]
    exact hp.turn .idle (hc.nil_of_phase (.inr (.inl hphase))).1 (by simp [hphase]) h
  · rw [heq]
    exact h

theorem beginOpen (hp : Preserves P I) (hc : s.Consistent) (h : I s)
    (heq : s.beginOpen = .ok t) : I t := by
  obtain ⟨hphase, rfl⟩ := beginOpen_eq_ok heq
  exact hp.turn .loading (hc.nil_of_phase (.inl hphase)).1 (by simp [hphase]) h

theorem resynced (hp : Preserves P I) (h : I s) {peer : PeerId} (heq : s.resync peer = .ok t) :
    I t := by
  rw [resync_eq_ok heq]
  exact hp.resync peer h

theorem message [RegexLibrary] (hp : Preserves P I) (hc : s.Consistent) (h : I s) {sender : PeerId}
    {m : Message} (heq : s.handle sender m = .ok t)
    (heach : EachSettled P (s.released (.message sender m)) (s.settling (.message sender m))) :
    I t := by
  have hstep : (s.step (.message sender m)).1 = t := by
    rw [Session.step, heq]
    rfl
  rw [handle] at heq
  split at heq
  · cases heq
    exact h
  · rename_i hsession
    rw [not_not] at hsession
    split at heq
    · rename_i patch hbody
      refine hp.arrive hc h hstep (by simp) rfl ?_ heach heq
      simp only [arrival?, hbody, if_pos hsession]
    · rename_i revision hbody
      refine hp.ack hc h heq fun hdocument hphase => ?_
      rw [← hstep] at hphase
      have hqueue : s.settling (.message sender m) = s.queue := by
        simp only [settling_of_synced hdocument (by simp) hphase, arrival?, hbody,
          Option.toList_none, List.append_nil]
      rwa [hqueue] at heach
    · exact hp.resynced h heq
    · cases heq
      exact h

theorem step [RegexLibrary] (hp : Preserves P I) (hc : s.Consistent) (h : I s) {c : Command}
    (heach : EachSettled P (s.released c) (s.settling c)) : I (s.step c).1 := by
  have hsettle : ∀ result : Except SessionError Session, (∀ t, result = .ok t → I t) →
      I (s.settle result).1 := by
    intro result hok
    cases result with
    | error e => exact h
    | ok t => exact hok t rfl
  have hstep : ∀ t, (s.settle (.ok t)).1 = t := fun _ => rfl
  cases c with
  | beginOpen => exact hsettle _ fun t heq => hp.beginOpen hc h heq
  | finishOpen result => exact hp.finishOpen hc h result
  | openText p text =>
    change I (s.openText p text).1
    obtain heq | ⟨t, hbegin, heq⟩ := openText_cases s p text
    · rw [heq]
      exact h
    · rw [heq]
      exact hp.finishOpen (hc.beginOpen hbegin) (hp.beginOpen hc h hbegin) _
  | close => exact hp.close h
  | subscribe peer => exact hp.subscribe peer h
  | unsubscribe peer => exact hp.unsubscribe peer h
  | resync peer => exact hsettle _ fun t heq => hp.resynced h heq
  | message sender m => exact hsettle _ fun t heq => hp.message hc h heq heach
  | submit origin patch =>
    refine hsettle _ fun t heq => hp.arrive hc h ?_ (by simp) rfl rfl heach heq
    rw [Session.step, heq, hstep]
  | localEdit now patch =>
    rw [Session.step]
    split
    · exact hp.localEdit hc h ‹_› heach
    · exact h
  | ack peer revision =>
    refine hsettle _ fun t heq => hp.ack hc h heq fun hdocument hphase => ?_
    have hqueue : s.settling (.ack peer revision) = s.queue := by
      rw [settling_of_synced hdocument (by simp) (by rwa [Session.step, heq, hstep])]
      exact List.append_nil _
    rwa [hqueue] at heach
  | tick now => exact hp.tick hc h now heach
  | fileChanged text =>
    refine hsettle _ fun t heq => ?_
    obtain rfl | ⟨sub, harrival, henqueue⟩ := fileChanged_arrival heq
    · exact h
    · refine hp.arrive hc h ?_ (by simp) rfl harrival heach henqueue
      rw [Session.step, heq, hstep]
  | viewEdit origin base view =>
    refine hsettle _ fun t heq => ?_
    obtain (⟨hdocument, rfl⟩ | rfl | rfl) | ⟨sub, harrival, henqueue⟩ := viewEdit_arrival heq
    · exact hp.reject origin _ hdocument h
    · exact h
    · exact hp.resync origin h
    · refine hp.arrive hc h ?_ (by simp) rfl harrival heach henqueue
      rw [Session.step, heq, hstep]

/-- What all that a run is made of keeps is kept by the run. -/
theorem run [RegexLibrary] (hp : Preserves P I) (hc : s.Consistent) (h : I s)
    {commands : List Command} (halways : Always P s commands) : I (s.run commands) := by
  induction commands generalizing s with
  | nil => exact h
  | cons c commands ih => exact ih (hc.step c) (hp.step hc h halways.1) halways.2

theorem released (hp : Preserves P I) (hdocument : s.document.isSome) (h : I s) (c : Command) :
    I (s.released c) := by
  have hrest := hp.waits s.phase [] none hdocument h
  cases c with
  | tick now =>
    cases hpending : s.pending with
    | none =>
      rw [← hpending] at hrest
      simpa only [Session.released, hpending] using hrest
    | some p =>
      have hnotice := hp.notice p.origin (s.revision?.getD p.revision) .peerTimeout hdocument h
      rw [send_eq] at hnotice
      simp only [Session.released, hpending, send_eq]
      exact hp.waits (s := s.emitAll _) s.phase [] none hdocument hnotice
  | _ => exact hrest

theorem eachSettled (hp : Preserves P I)
    (himp : ∀ {s : Session} {sub : Submission}, s.Recorded → I s → P s sub → Q s sub)
    {subs : List Submission} (hrecorded : s.Recorded) (h : I s) (heach : EachSettled P s subs) :
    EachSettled Q s subs := by
  induction subs generalizing s with
  | nil => trivial
  | cons sub subs ih =>
    exact ⟨himp hrecorded h heach.1, ih ((settles_process s sub).recorded hrecorded)
      (hp.process hrecorded h heach.1) heach.2⟩

/-- What follows from the property where a submission is settled always holds there. -/
theorem always [RegexLibrary] (hp : Preserves P I)
    (himp : ∀ {s : Session} {sub : Submission}, s.Recorded → I s → P s sub → Q s sub)
    (hc : s.Consistent) (h : I s) {commands : List Command} (halways : Always P s commands) :
    Always Q s commands := by
  induction commands generalizing s with
  | nil => trivial
  | cons c commands ih =>
    refine ⟨?_, ih (hc.step c) (hp.step hc h halways.1) halways.2⟩
    cases hdoc : s.document with
    | none =>
      rw [settling_of_document_none hdoc]
      trivial
    | some d =>
      have hdocument : s.document.isSome := by simp [hdoc]
      exact hp.eachSettled himp (recorded_released hc.recorded c) (hp.released hdocument h c)
        halways.1

end Preserves

/-- A property of the document, the history and the settings alone is kept by all that is put out,
    by what waits and by who subscribes. -/
theorem Preserves.of_congr {P : Session → Submission → Prop} {I : Session → Prop}
    (hprocess : ∀ {s : Session} {sub : Submission}, s.Recorded → I s → P s sub → I (s.process sub))
    (hcongr : ∀ {s t : Session}, t.config = s.config → t.document = s.document →
      t.history = s.history → (t.document.isSome ∨ t.phase = s.phase) → I s → I t)
    (hturn : ∀ {s : Session} (phase : Phase), s.document = none → s.phase ≠ .closed → I s →
      I { s with phase })
    (hopening : ∀ {s t : Session} (d : Document), s.document = none → s.history = [] →
      s.phase ≠ .closed → t.config = s.config → t.document = some d → t.history = s.history →
      I s → I t)
    (hclose : ∀ {s : Session}, I s → I s.close) : Preserves P I where
  process := hprocess
  reject {s} origin reason hdocument h := by
    rw [reject_eq]
    exact hcongr (s := s) rfl rfl rfl (.inl hdocument) h
  waits {s} _ _ _ hdocument h := hcongr (s := s) rfl rfl rfl (.inl hdocument) h
  notice {s} peer revision reason hdocument h := by
    rw [send_eq]
    exact hcongr (s := s) rfl rfl rfl (.inl hdocument) h
  resync {s} peer h := by
    rw [sendDocument_eq]
    exact hcongr (s := s) rfl rfl rfl (.inr rfl) h
  subscribe {s} peer h := by
    rw [Session.subscribe]
    split
    · exact h
    · rw [sendDocument_eq]
      exact hcongr (s := s) rfl rfl rfl (.inr rfl) h
  unsubscribe {s} peer h := hcongr (s := s) rfl rfl rfl (.inr rfl) h
  turn := hturn
  opening {s} d hnone hhistory hopen h := by
    rw [sendAll_eq]
    exact hopening (s := s) d hnone hhistory hopen rfl rfl rfl h
  close := hclose

/-- A session keeps the settings that it was made with. -/
theorem config_run [RegexLibrary] (id : SessionId) (config : SyncConfig) (commands : List Command) :
    ((new id config).run commands).config = config := by
  have hp : Preserves (fun _ _ => True) fun s => s.config = config :=
    .of_congr (fun {s sub} _ h _ => (settles_process s sub).config_eq.trans h)
      (fun hconfig _ _ _ h => hconfig.trans h) (fun _ _ _ h => h)
      (fun _ _ _ _ hconfig _ _ h => hconfig.trans h) fun h => h
  exact hp.run (consistent_new id config) rfl (always_of_forall (fun _ _ => trivial) _ _)

/-- The command that opens a document leaves no history behind it. -/
theorem history_of_opened [RegexLibrary] {s : Session} (hc : s.Consistent)
    (hnone : s.document = none) (c : Command) : (s.step c).1.history = [] := by
  have hp : Preserves (fun _ _ => False) fun s => s.history = [] :=
    .of_congr (fun _ _ h => h.elim) (fun _ _ hhistory _ h => hhistory.trans h) (fun _ _ _ h => h)
      (fun _ _ _ _ _ _ hhistory h => hhistory.trans h) fun _ => rfl
  refine hp.step hc (hc.nil_of_none hnone).2.1 ?_
  rw [settling_of_document_none hnone]
  trivial

end LiterateSync.Session
