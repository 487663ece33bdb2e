import LiterateSync.Proofs.Session.Always

namespace LiterateSync.Session

/-- What counts for a peer or against it when its patches are refused. -/
inductive Mark where
  /-- A patch of the peer is committed. -/
  | accepted (peer : PeerId)
  | refused (peer : PeerId) (reason : SupersedeReason)
  /-- The peer is no subscriber any more. -/
  | left (peer : PeerId)
  /-- The session ends for all peers. -/
  | closed
  deriving DecidableEq, Repr

/-- A mark with the states of the session before and after. -/
structure Entry where
  before : Session
  mark : Mark
  after : Session
  deriving DecidableEq, Repr

/-- The reason for which a submission is refused, if it is. -/
def refusal? (s : Session) (sub : Submission) : Option SupersedeReason :=
  s.document.bind fun current =>
    match s.reconcile current sub.origin sub.patch with
    | .error e => some e.reason
    | .ok _ => none

/-- The mark that a submission is settled with. -/
def verdict (s : Session) (sub : Submission) : Mark :=
  match s.refusal? sub with
  | some reason => .refused sub.origin reason
  | none => .accepted sub.origin

/-- What the settling of some submissions in order enters. -/
def settlements : Session → List Submission → List Entry
  | _, [] => []
  | s, sub :: subs => ⟨s, s.verdict sub, s.process sub⟩ :: settlements (s.process sub) subs

/-- The mark that a command itself makes. A view of a revision that is not known is refused at
    once, whatever waits. -/
def directMark? (s : Session) (c : Command) : Option Mark :=
  match c with
  | .close => some .closed
  | .unsubscribe peer => some (.left peer)
  | .viewEdit origin base _ =>
    if s.document.isSome ∧ s.documentAt? base = none then some (.refused origin .revisionMismatch)
    else none
  | _ => none

/-- What a command enters: its own mark, and the submissions that it settles. -/
def entries [RegexLibrary] (s : Session) (c : Command) : List Entry :=
  ((s.directMark? c).map fun mark => ⟨s, mark, (s.step c).1⟩).toList ++
    settlements (s.released c) (s.settling c)

/-- What the commands of a run enter, in order. -/
def log [RegexLibrary] : Session → List Command → List Entry
  | _, [] => []
  | s, c :: commands => s.entries c ++ log (s.step c).1 commands

/-- What an entry stands for. -/
inductive Entry.Sound [RegexLibrary] : Entry → Prop where
  | accepted {s : Session} {sub : Submission} {current next : Document} {carried : Carried}
      (hdoc : s.document = some current)
      (hreconcile : s.reconcile current sub.origin sub.patch = .ok (carried, next)) :
      Sound ⟨s, .accepted sub.origin, s.process sub⟩
  | refusedPatch {s : Session} {sub : Submission} {current : Document} {e : PatchError}
      (hdoc : s.document = some current)
      (hreconcile : s.reconcile current sub.origin sub.patch = .error e) :
      Sound ⟨s, .refused sub.origin e.reason, s.process sub⟩
  | refusedView {s : Session} {origin : PeerId} {base : Nat} {view : List ViewBlock}
      (hopen : ∃ current, s.openDocument = .ok current) (hunknown : s.documentAt? base = none) :
      Sound ⟨s, .refused origin .revisionMismatch, (s.step (.viewEdit origin base view)).1⟩
  | left (s : Session) (peer : PeerId) : Sound ⟨s, .left peer, s.unsubscribe peer⟩
  | closed (s : Session) : Sound ⟨s, .closed, s.close⟩

/-- Two states of a session between which no patch is accepted or refused. The document may be
    opened in between. -/
structure Idles (s t : Session) : Prop where
  id_eq : t.id = s.id
  config_eq : t.config = s.config
  document_eq : s.document.isSome → t.document = s.document
  history_eq : t.history = s.history
  rejections_eq : t.rejections = s.rejections
  recentWrites_eq : t.recentWrites = s.recentWrites

/-- Whether a session gets from one state to another by the entries of a log, between which
    nothing is accepted or refused. -/
inductive Leads : Session → List Entry → Session → Prop where
  | nil {s t : Session} (h : s.Idles t) : Leads s [] t
  | cons {s t : Session} {x : Entry} {rest : List Entry} (h : s.Idles x.before)
      (hrest : Leads x.after rest t) : Leads s (x :: rest) t

variable {s t u : Session} {c : Command} {sub : Submission}

theorem Idles.refl (s : Session) : s.Idles s :=
  ⟨rfl, rfl, fun _ => rfl, rfl, rfl, rfl⟩

theorem Idles.of_eq (h : t = s) : s.Idles t :=
  h ▸ .refl s

theorem Idles.trans (hst : s.Idles t) (htu : t.Idles u) : s.Idles u where
  id_eq := htu.id_eq.trans hst.id_eq
  config_eq := htu.config_eq.trans hst.config_eq
  document_eq h := (htu.document_eq (by rwa [hst.document_eq h])).trans (hst.document_eq h)
  history_eq := htu.history_eq.trans hst.history_eq
  rejections_eq := htu.rejections_eq.trans hst.rejections_eq
  recentWrites_eq := htu.recentWrites_eq.trans hst.recentWrites_eq

theorem Idles.emitAll (s : Session) (events : List Event) : s.Idles (s.emitAll events) :=
  ⟨rfl, rfl, fun _ => rfl, rfl, rfl, rfl⟩

/-- What waits, and for what, has no part in what is accepted or refused. -/
theorem Idles.waits (s : Session) (phase : Phase) (queue : List Submission)
    (pending : Option Pending) : s.Idles { s with phase, queue, pending } :=
  ⟨rfl, rfl, fun _ => rfl, rfl, rfl, rfl⟩

theorem Idles.sendDocument (s : Session) (peer : PeerId) : s.Idles (s.sendDocument peer) := by
  rw [sendDocument_eq]
  exact .emitAll s _

theorem Idles.subscribe (s : Session) (peer : PeerId) : s.Idles (s.subscribe peer) := by
  rw [Session.subscribe]
  split
  · exact .refl s
  · rw [sendDocument_eq]
    exact ⟨rfl, rfl, fun _ => rfl, rfl, rfl, rfl⟩

/-- A document can be opened only where there is none. -/
theorem Idles.finishOpen (hc : s.Consistent) (result : Except SegmentError Document) :
    s.Idles (s.finishOpen result).1 := by
  obtain ⟨d, -, hphase, heq⟩ | ⟨-, heq⟩ | ⟨-, heq⟩ := finishOpen_cases s result
  · rw [heq, sendAll_eq]
    refine ⟨rfl, rfl, fun hdocument => ?_, rfl, rfl, rfl⟩
    rw [(hc.nil_of_phase (.inr (.inl hphase))).1] at hdocument
    cases hdocument
  · rw [heq]
    exact .waits s _ _ _
  · rw [heq]
    exact .refl s

theorem Idles.leads {xs : List Entry} (hst : s.Idles t) (htu : Leads t xs u) : Leads s xs u := by
  cases htu with
  | nil h => exact .nil (hst.trans h)
  | cons h hrest => exact .cons (hst.trans h) hrest

theorem Leads.append {xs ys : List Entry} (hst : Leads s xs t) (htu : Leads t ys u) :
    Leads s (xs ++ ys) u := by
  induction hst with
  | nil h => exact h.leads htu
  | cons h _ ih => exact .cons h (ih htu)

theorem leads_settlements (s : Session) (subs : List Submission) :
    Leads s (settlements s subs) (subs.foldl process s) := by
  induction subs generalizing s with
  | nil => exact .nil (.refl s)
  | cons sub subs ih => exact .cons (.refl s) (ih _)

theorem openDocument_of_none (hnone : s.document = none) : ∃ e, s.openDocument = .error e := by
  cases hopen : s.openDocument with
  | error e => exact ⟨e, rfl⟩
  | ok d =>
    rw [(openDocument_eq_ok_iff.1 hopen).1] at hnone
    cases hnone

section Step

variable [RegexLibrary]

theorem settling_of_not_synced (hne : ∀ now patch, c ≠ .localEdit now patch)
    (hphase : (s.step c).1.phase ≠ .synced) : s.settling c = [] := by
  rw [settling.eq_def]
  split
  · rfl
  · split
    · exact absurd rfl (hne _ _)
    · exact if_neg hphase

/-- Only an arrival, or the end of a wait, settles anything. -/
theorem settling_eq_nil (hc : s.Consistent) (hne : ∀ now patch, c ≠ .localEdit now patch)
    (harrival : s.arrival? c = none) (hphase : (s.step c).1.phase = s.phase) :
    s.settling c = [] := by
  by_cases hsynced : s.phase = .synced
  · have hdocument := hc.document_iff.2 (.inl hsynced)
    rw [settling_of_synced hdocument hne (hphase.trans hsynced), harrival,
      hc.queue_nil (hc.pending_eq_none hsynced)]
    rfl
  · exact settling_of_not_synced hne (hphase ▸ hsynced)

/-- A command that settles nothing and makes no mark enters nothing. -/
theorem leads_aside (hmark : s.directMark? c = none) (hsettling : s.settling c = [])
    (h : s.Idles (s.step c).1) : Leads s (s.entries c) (s.step c).1 := by
  rw [entries, hmark, hsettling]
  exact .nil h

/-- The end of the wait settles what waits. -/
theorem leads_drain (queue : List Submission) (hmark : s.directMark? c = none)
    (hidles : s.Idles (s.released c)) (hsettling : s.settling c = queue)
    (hstep : (queue.foldl process (s.released c)).Idles (s.step c).1) :
    Leads s (s.entries c) (s.step c).1 := by
  have hsettled := (leads_settlements (s.released c) queue).append (.nil hstep)
  rw [List.append_nil] at hsettled
  rw [entries, hmark, hsettling]
  exact hidles.leads hsettled

section Plain

variable (hc : s.Consistent) (hmark : s.directMark? c = none)
  (hne : ∀ now patch, c ≠ .localEdit now patch)

include hc hmark hne

/-- A command that puts out messages at most enters nothing. -/
theorem leads_told (harrival : s.arrival? c = none) {events : List Event}
    (hstep : (s.step c).1 = s.emitAll events) :
    Leads s (s.entries c) (s.step c).1 := by
  refine leads_aside hmark (settling_eq_nil hc hne harrival (by rw [hstep]; rfl)) ?_
  rw [hstep]
  exact .emitAll s events

/-- A command that changes nothing enters nothing. -/
theorem leads_self (harrival : s.arrival? c = none) (hstep : (s.step c).1 = s) :
    Leads s (s.entries c) (s.step c).1 :=
  leads_told hc hmark hne harrival (hstep.trans (emitAll_nil s).symm)

variable (hreleased : s.released c = { s with queue := [], pending := none })

include hreleased

/-- A submission that arrives waits, or is settled. -/
theorem leads_arrival (harrival : s.arrival? c = some sub)
    (hstep : (s.step c).1 = (s.settle (s.enqueue sub)).1) :
    Leads s (s.entries c) (s.step c).1 := by
  cases heq : s.enqueue sub with
  | error e =>
    rw [heq] at hstep
    have hnone : s.document = none := by
      cases hdoc : s.document with
      | none => rfl
      | some d =>
        rw [enqueue, hc.openDocument hdoc] at heq
        cases heq
    refine leads_aside hmark (settling_of_document_none hnone c) ?_
    rw [hstep]
    exact .refl s
  | ok t =>
    rw [heq] at hstep
    change (s.step c).1 = t at hstep
    obtain ⟨d, hopen, ⟨hpending, rfl⟩ | ⟨hpending, rfl⟩⟩ := enqueue_eq_ok heq
    · have hphase : (s.step c).1.phase ≠ .synced := by
        rw [hstep]
        rcases hc.pending_iff.1 hpending with hphase | hphase <;> dsimp only <;> split <;>
          simp [hphase]
      refine leads_aside hmark (settling_of_not_synced hne hphase) ?_
      rw [hstep]
      exact .waits s _ _ _
    · have hdocument : s.document.isSome := by simp [(openDocument_eq_ok_iff.1 hopen).1]
      have hdrain := drain_of_not_pending (s := { s with queue := s.queue ++ [sub] }) hpending
        hdocument
      refine leads_drain (s.queue ++ [sub]) hmark ?_ ?_ ?_
      · rw [hreleased]
        exact .waits s _ _ _
      · rw [settling_of_synced hdocument hne (by rw [hstep, hdrain]), harrival, Option.toList_some]
      · rw [hstep, hdrain, hreleased, ← hpending]
        exact .waits _ _ _ _

theorem leads_ack (peer : PeerId) (revision : Nat) (harrival : s.arrival? c = none)
    (hstep : (s.step c).1 = (s.settle (s.ack peer revision)).1) :
    Leads s (s.entries c) (s.step c).1 := by
  cases heq : s.ack peer revision with
  | error e => exact leads_self hc hmark hne harrival (by rw [hstep, heq]; rfl)
  | ok t =>
    replace hstep : (s.step c).1 = t := by rw [hstep, heq]; rfl
    obtain rfl | ⟨p, hpending, -, -, rfl⟩ := ack_eq_ok heq
    · exact leads_self hc hmark hne harrival hstep
    · have hdocument := hc.isSome_document (by simp [hpending])
      have hdrain := drain_of_not_pending (s := { s with pending := none }) rfl hdocument
      refine leads_drain s.queue hmark ?_ ?_ ?_
      · rw [hreleased]
        exact .waits s _ _ _
      · rw [settling_of_synced hdocument hne (by rw [hstep, hdrain]), harrival, Option.toList_none,
          List.append_nil]
      · rw [hstep, hdrain, hreleased]
        exact .waits _ _ _ _

/-- A command that needs a document brings a submission, or puts out messages at most. -/
theorem leads_of_open {result : Except SessionError Session}
    (hstep : (s.step c).1 = (s.settle result).1)
    (herror : ∀ e, s.openDocument = .error e → result = .error e)
    (hok : ∀ d, s.openDocument = .ok d →
      (∃ sub, s.arrival? c = some sub ∧ result = s.enqueue sub) ∨
        s.arrival? c = none ∧ ∃ events, (s.settle result).1 = s.emitAll events) :
    Leads s (s.entries c) (s.step c).1 := by
  cases hdoc : s.document with
  | none =>
    obtain ⟨e, hopen⟩ := openDocument_of_none hdoc
    rw [herror e hopen] at hstep
    exact leads_aside hmark (settling_of_document_none hdoc c) (.of_eq hstep)
  | some d =>
    obtain ⟨sub, harrival, rfl⟩ | ⟨harrival, events, heq⟩ := hok d (hc.openDocument hdoc)
    · exact leads_arrival hc hmark hne hreleased harrival hstep
    · exact leads_told hc hmark hne harrival (hstep.trans heq)

theorem leads_resync (peer : PeerId) (harrival : s.arrival? c = none)
    (hstep : (s.step c).1 = (s.settle (s.resync peer)).1) :
    Leads s (s.entries c) (s.step c).1 := by
  refine leads_of_open hc hmark hne hreleased hstep (fun e hopen => ?_) fun d hopen =>
    .inr ⟨harrival, s.snapshotFor peer, ?_⟩
  · rw [resync, hopen]
    rfl
  · rw [resync, hopen, ← sendDocument_eq]
    rfl

end Plain

theorem leads_tick (hc : s.Consistent) (now : Nat) :
    Leads s (s.entries (.tick now)) (s.step (.tick now)).1 := by
  obtain heq | ⟨p, hpending, heq⟩ := tick_cases s now
  · exact leads_self hc rfl (by simp) rfl heq
  · have hstep : (s.step (.tick now)).1 = _ := heq
    have hdocument := hc.isSome_document (by simp [hpending])
    rw [send_eq] at hstep
    have hdrain := drain_of_not_pending
      (s := { s with pending := none }.emitAll (Session.addressed { s with pending := none }
        p.origin (.superseded (s.revision?.getD p.revision) .peerTimeout))) rfl hdocument
    refine leads_drain s.queue rfl ?_ ?_ ?_
    · simp only [released, hpending, send_eq]
      exact ⟨rfl, rfl, fun _ => rfl, rfl, rfl, rfl⟩
    · rw [settling_of_synced hdocument (by simp) (by rw [hstep, hdrain])]
      exact List.append_nil _
    · rw [hstep, hdrain]
      simp only [released, hpending, send_eq]
      exact .waits _ _ _ _

theorem leads_localEdit (hc : s.Consistent) (now : Nat) (patch : Patch) :
    Leads s (s.entries (.localEdit now patch)) (s.step (.localEdit now patch)).1 := by
  cases heq : s.localEdit now patch with
  | error e =>
    have hstep : (s.step (.localEdit now patch)).1 = s := by rw [step, heq]
    refine leads_aside rfl ?_ (.of_eq hstep)
    simp [settling, heq]
  | ok result =>
    obtain ⟨t, revision⟩ := result
    have hstep : (s.step (.localEdit now patch)).1 = t := by rw [step, heq]
    rw [entries, settling_of_localEdit heq, released_of_localEdit hc heq, hstep]
    refine .cons (.refl s) (.nil ?_)
    obtain ⟨current, next, hopen, -, happly, -, rfl⟩ := localEdit_eq_ok heq
    rw [process_of_localEdit (openDocument_eq_ok_iff.1 hopen).1 happly]
    exact .waits _ _ _ _

theorem leads_finishOpen (hc : s.Consistent) (result : Except SegmentError Document) :
    Leads s (s.entries (.finishOpen result)) (s.step (.finishOpen result)).1 := by
  have hstep : (s.step (.finishOpen result)).1 = (s.finishOpen result).1 := rfl
  refine leads_aside rfl ?_ (hstep ▸ .finishOpen hc result)
  by_cases hphase : s.phase = .loading
  · exact settling_of_document_none (hc.nil_of_phase (.inr (.inl hphase))).1 _
  · obtain ⟨-, -, hloading, -⟩ | ⟨hloading, -⟩ | ⟨-, heq⟩ := finishOpen_cases s result
    · exact absurd hloading hphase
    · exact absurd hloading hphase
    · exact settling_eq_nil hc (by simp) rfl (by rw [hstep, heq])

theorem leads_openText (hc : s.Consistent) (p : Profile) (text : String) :
    Leads s (s.entries (.openText p text)) (s.step (.openText p text)).1 := by
  have hstep : (s.step (.openText p text)).1 = (s.openText p text).1 := rfl
  obtain heq | ⟨t, hbegin, heq⟩ := openText_cases s p text
  · exact leads_self hc rfl (by simp) rfl (hstep.trans heq)
  · have hc' := hc.beginOpen hbegin
    obtain ⟨hphase, rfl⟩ := beginOpen_eq_ok hbegin
    have hnone := (hc.nil_of_phase (.inl hphase)).1
    refine leads_aside rfl (settling_of_document_none hnone _) ?_
    rw [hstep, heq]
    exact (Idles.waits s .loading _ _).trans (.finishOpen hc' _)

theorem leads_message (hc : s.Consistent) (sender : PeerId) (m : Message) :
    Leads s (s.entries (.message sender m)) (s.step (.message sender m)).1 := by
  by_cases hsession : m.session = s.id
  · cases hbody : m.body with
    | patch patch =>
      have harrival : s.arrival? (.message sender m) = some ⟨sender, patch, false⟩ := by
        simp only [arrival?, hbody, if_pos hsession]
      refine leads_arrival hc rfl (by simp) rfl harrival ?_
      simp only [step, handle, hsession, hbody, ne_eq, not_true_eq_false, if_false, submit]
    | ack revision =>
      refine leads_ack hc rfl (by simp) rfl sender revision ?_ ?_
      · simp only [arrival?, hbody]
      · simp only [step, handle, hsession, hbody, ne_eq, not_true_eq_false, if_false]
    | fullDocument snapshot =>
      refine leads_resync hc rfl (by simp) rfl sender ?_ ?_
      · simp only [arrival?, hbody]
      · simp only [step, handle, hsession, hbody, ne_eq, not_true_eq_false, if_false]
    | superseded revision reason =>
      refine leads_self hc rfl (by simp) (by simp only [arrival?, hbody]) ?_
      simp only [step, handle, hsession, hbody, ne_eq, not_true_eq_false, if_false, settle]
  · refine leads_self hc rfl (by simp) ?_ ?_
    · cases hbody : m.body <;> simp only [arrival?, hbody, if_neg hsession]
    · simp only [step, handle, ne_eq, hsession, not_false_eq_true, if_true, settle]

theorem leads_fileChanged (hc : s.Consistent) (text : String) :
    Leads s (s.entries (.fileChanged text)) (s.step (.fileChanged text)).1 := by
  refine leads_of_open hc rfl (by simp) rfl rfl (fun e hopen => ?_) fun d hopen => ?_
  · rw [fileChanged, hopen]
    rfl
  · obtain hbrings | ⟨harrival, heq⟩ := fileChanged_brings hopen text
    · exact .inl hbrings
    · exact .inr ⟨harrival, [], heq.trans (emitAll_nil s).symm⟩

/-- A mark that a command makes by itself is all that it enters. -/
theorem leads_direct {mark : Mark} (hmark : s.directMark? c = some mark)
    (hsettling : s.settling c = []) : Leads s (s.entries c) (s.step c).1 := by
  rw [entries, hmark, hsettling]
  exact .cons (.refl s) (.nil (.refl _))

theorem leads_viewEdit (hc : s.Consistent) (origin : PeerId) (base : Nat) (view : List ViewBlock) :
    Leads s (s.entries (.viewEdit origin base view)) (s.step (.viewEdit origin base view)).1 := by
  by_cases hunknown : s.document.isSome ∧ s.documentAt? base = none
  · have hmark : s.directMark? (.viewEdit origin base view) =
        some (.refused origin .revisionMismatch) := if_pos hunknown
    obtain ⟨d, hdoc⟩ := Option.isSome_iff_exists.1 hunknown.1
    have hstep : (s.step (.viewEdit origin base view)).1 = s.reject origin .revisionMismatch := by
      simp only [step, viewEdit, hc.openDocument hdoc, hunknown.2, bind, Except.bind, settle]
    refine leads_direct hmark (settling_eq_nil hc (by simp) ?_ (by rw [hstep, reject_eq]))
    simp only [arrival?, hunknown.2, Option.bind_eq_bind, Option.bind_none]
  · have hmark : s.directMark? (.viewEdit origin base view) = none := if_neg hunknown
    refine leads_of_open hc hmark (by simp) rfl rfl (fun e hopen => ?_) fun d hopen => ?_
    · rw [viewEdit, hopen]
      rfl
    · obtain hbrings | ⟨harrival, ⟨hnone, -⟩ | ⟨-, heq | heq⟩⟩ :=
        viewEdit_brings hopen origin base view
      · exact .inl hbrings
      · exact absurd ⟨by simp [(openDocument_eq_ok_iff.1 hopen).1], hnone⟩ hunknown
      · exact .inr ⟨harrival, [], heq.trans (emitAll_nil s).symm⟩
      · exact .inr ⟨harrival, s.snapshotFor origin, heq.trans (sendDocument_eq s origin)⟩

theorem leads_step (hc : s.Consistent) (c : Command) : Leads s (s.entries c) (s.step c).1 := by
  cases c with
  | beginOpen =>
    cases heq : s.beginOpen with
    | error e => exact leads_self hc rfl (by simp) rfl (by rw [step, heq]; rfl)
    | ok t =>
      have hstep : (s.step .beginOpen).1 = t := by rw [step, heq]; rfl
      obtain ⟨hphase, rfl⟩ := beginOpen_eq_ok heq
      refine leads_aside rfl (settling_of_document_none (hc.nil_of_phase (.inl hphase)).1 _) ?_
      rw [hstep]
      exact .waits s _ _ _
  | finishOpen result => exact leads_finishOpen hc result
  | openText p text => exact leads_openText hc p text
  | close => exact leads_direct rfl (settling_of_not_synced (by simp) (by simp [step, close]))
  | subscribe peer =>
    have hphase : (s.subscribe peer).phase = s.phase := by
      rw [Session.subscribe, sendDocument_eq]
      split <;> rfl
    exact leads_aside rfl (settling_eq_nil hc (by simp) rfl hphase) (.subscribe s peer)
  | unsubscribe peer => exact leads_direct rfl (settling_eq_nil hc (by simp) rfl rfl)
  | resync peer => exact leads_resync hc rfl (by simp) rfl peer rfl rfl
  | message sender m => exact leads_message hc sender m
  | submit origin patch => exact leads_arrival hc rfl (by simp) rfl rfl rfl
  | localEdit now patch => exact leads_localEdit hc now patch
  | ack peer revision => exact leads_ack hc rfl (by simp) rfl peer revision rfl rfl
  | tick now => exact leads_tick hc now
  | fileChanged text => exact leads_fileChanged hc text
  | viewEdit origin base view => exact leads_viewEdit hc origin base view

/-- The entries of a run lead from its beginning to its end. -/
theorem leads_run (hc : s.Consistent) (commands : List Command) :
    Leads s (s.log commands) (s.run commands) := by
  induction commands generalizing s with
  | nil => exact .nil (.refl s)
  | cons c commands ih => exact (leads_step hc c).append (ih (hc.step c))

theorem log_append (s : Session) (commands more : List Command) :
    s.log (commands ++ more) = s.log commands ++ (s.run commands).log more := by
  induction commands generalizing s with
  | nil => rfl
  | cons c commands ih =>
    rw [List.cons_append, log, log, ih, List.append_assoc]
    rfl

end Step

section Sound

variable {x : Entry}

theorem verdict_of_error {current : Document} {e : PatchError} (hdoc : s.document = some current)
    (hreconcile : s.reconcile current sub.origin sub.patch = .error e) :
    s.verdict sub = .refused sub.origin e.reason := by
  simp only [verdict, refusal?, hdoc, Option.bind_some, hreconcile]

theorem verdict_of_ok {current : Document} {result : Carried × Document}
    (hdoc : s.document = some current)
    (hreconcile : s.reconcile current sub.origin sub.patch = .ok result) :
    s.verdict sub = .accepted sub.origin := by
  simp only [verdict, refusal?, hdoc, Option.bind_some, hreconcile]

theorem document_released (s : Session) (c : Command) : (s.released c).document = s.document := by
  rw [released.eq_def]
  split
  · split
    · rw [send_eq]
      rfl
    · rfl
  · rfl

theorem Leads.split {xs ys : List Entry} (h : Leads s (xs ++ x :: ys) t) :
    Leads s xs x.before ∧ Leads x.after ys t := by
  induction xs generalizing s with
  | nil =>
    obtain _ | ⟨h, hrest⟩ := h
    exact ⟨.nil h, hrest⟩
  | cons y xs ih =>
    obtain _ | ⟨h, hrest⟩ := h
    exact ⟨.cons h (ih hrest).1, (ih hrest).2⟩

variable [RegexLibrary]

theorem sound_settlements {subs : List Submission} (hdocument : s.document.isSome)
    (hx : x ∈ settlements s subs) : x.Sound := by
  induction subs generalizing s with
  | nil => cases hx
  | cons sub subs ih =>
    obtain rfl | hx := List.mem_cons.1 hx
    · obtain ⟨current, hdoc⟩ := Option.isSome_iff_exists.1 hdocument
      cases hreconcile : s.reconcile current sub.origin sub.patch with
      | error e =>
        rw [verdict_of_error hdoc hreconcile]
        exact .refusedPatch hdoc hreconcile
      | ok result =>
        rw [verdict_of_ok hdoc hreconcile]
        exact .accepted hdoc hreconcile
    · exact ih ((settles_process s sub).isSome_document.trans hdocument) hx

theorem sound_direct (hc : s.Consistent) {mark : Mark} (hmark : s.directMark? c = some mark) :
    Entry.Sound ⟨s, mark, (s.step c).1⟩ := by
  cases c with
  | close =>
    cases hmark
    exact .closed s
  | unsubscribe peer =>
    cases hmark
    exact .left s peer
  | viewEdit origin base view =>
    obtain ⟨⟨hdocument, hunknown⟩, hmark⟩ := Option.ite_none_right_eq_some.1 hmark
    cases hmark
    obtain ⟨d, hdoc⟩ := Option.isSome_iff_exists.1 hdocument
    exact .refusedView ⟨d, hc.openDocument hdoc⟩ hunknown
  | _ => cases hmark

theorem sound_entries (hc : s.Consistent) (hx : x ∈ s.entries c) : x.Sound := by
  rcases List.mem_append.1 hx with hx | hx
  · obtain ⟨mark, hmark, rfl⟩ := Option.map_eq_some_iff.1 (Option.mem_toList.1 hx)
    exact sound_direct hc hmark
  · cases hdoc : s.document with
    | none =>
      rw [settling_of_document_none hdoc] at hx
      cases hx
    | some d =>
      exact sound_settlements (by rw [document_released, hdoc, Option.isSome_some]) hx

theorem sound_log (hc : s.Consistent) {commands : List Command} (hx : x ∈ s.log commands) :
    x.Sound := by
  induction commands generalizing s with
  | nil => cases hx
  | cons c commands ih =>
    rcases List.mem_append.1 hx with hx | hx
    · exact sound_entries hc hx
    · exact ih (hc.step c) hx

/-- A refusal is entered where the session has rejected a patch or a view. -/
theorem Entry.Sound.reject {origin : PeerId} {reason : SupersedeReason} (h : x.Sound)
    (hmark : x.mark = .refused origin reason) :
    ∃ d, x.before.document = some d ∧ x.after = x.before.reject origin reason := by
  cases h with
  | accepted | left | closed => cases hmark
  | refusedPatch hdoc hreconcile =>
    cases hmark
    exact ⟨_, hdoc, process_of_error hdoc hreconcile⟩
  | refusedView hopen hunknown =>
    cases hmark
    obtain ⟨d, hopen⟩ := hopen
    refine ⟨d, (openDocument_eq_ok_iff.1 hopen).1, ?_⟩
    simp only [step, viewEdit, hopen, hunknown, bind, Except.bind, settle]

theorem Entry.Sound.id_config (h : x.Sound) :
    x.after.id = x.before.id ∧ x.after.config = x.before.config := by
  cases h with
  | accepted hdoc hreconcile =>
    rw [process_of_ok hdoc hreconcile]
    exact ⟨rfl, rfl⟩
  | refusedPatch hdoc hreconcile =>
    rw [process_of_error hdoc hreconcile, reject_eq]
    exact ⟨rfl, rfl⟩
  | refusedView hopen hunknown =>
    obtain ⟨d, -, hafter⟩ := (Sound.refusedView hopen hunknown).reject rfl
    rw [hafter, reject_eq]
    exact ⟨rfl, rfl⟩
  | left s peer => exact ⟨rfl, rfl⟩
  | closed s => exact ⟨rfl, rfl⟩

theorem Leads.id_config {xs : List Entry} (h : Leads s xs t) (hsound : ∀ x ∈ xs, x.Sound) :
    t.id = s.id ∧ t.config = s.config := by
  induction h with
  | nil h => exact ⟨h.id_eq, h.config_eq⟩
  | cons h _ ih =>
    obtain ⟨hx, hrest⟩ := List.forall_mem_cons.1 hsound
    exact ⟨(ih hrest).1.trans (hx.id_config.1.trans h.id_eq),
      (ih hrest).2.trans (hx.id_config.2.trans h.config_eq)⟩

end Sound

end LiterateSync.Session
