import LiterateSync.Proofs.Document.Bare
import LiterateSync.Proofs.Document.DiffApply
import LiterateSync.Proofs.Session.Rebasing
import LiterateSync.Text.Pattern.Library

namespace LiterateSync.Session

section Way

variable {policy : ConflictPolicy} {current target : Document} {patch : Patch}
  {since : List Applied}

theorem bare_documentAfter (hsame : ∀ a ∈ since, a.before.bare = current.bare) :
    (documentAfter since current).bare = current.bare := by
  cases since with
  | nil => rfl
  | cons a since => exact hsame a List.mem_cons_self

/-- Over a history that has changed contents only, a patch is carried to the layout that it has been
    made for. -/
theorem exists_carryOver_of_bare_eq (origin : PeerId) (losers : List PeerId)
    (hreplays : Replays since current)
    (hnamed : (documentAfter since current).WellNamed)
    (happly : (documentAfter since current).apply patch = .ok target)
    (hsame : ∀ a ∈ since, a.before.bare = current.bare)
    (hdeletes : ∀ a ∈ since, patch.DeletesOver a.patch policy) :
    ∃ carried next, carryOver policy origin current ⟨patch, losers⟩ since = .ok carried ∧
      current.apply carried.patch = .ok next ∧ next.bare = target.bare := by
  induction since generalizing patch target losers with
  | nil => exact ⟨_, target, rfl, happly, rfl⟩
  | cons a since ih =>
    obtain ⟨ha, hlater⟩ := List.forall_mem_cons.1 hsame
    obtain ⟨hover, hdeletes⟩ := List.forall_mem_cons.1 hdeletes
    obtain ⟨rebased, mid, hrebase, hmid, hbare, hgone⟩ := Patch.exists_rebase_of_bare_eq
      hnamed.nodup hreplays.1 happly ((bare_documentAfter hlater).trans ha.symm) hover
    obtain ⟨carried, next, hcarry, hnext, hsame⟩ := ih _ hreplays.2
      (Document.wellNamed_of_apply hnamed hreplays.1).1 hmid hlater
      fun e he => (hdeletes e he).imp_right fun hnever id hid => hnever id (hgone id hid)
    exact ⟨carried, next, (carryOver_cons_of_ok hrebase).trans hcarry, hnext, hsame.trans hbare⟩

end Way

variable {s t : Session} {current shown next : Document} {origin : PeerId} {base : Nat}
  {view : List ViewBlock}

/-- Whether the blocks have had their names, their kinds and their order since a revision, whatever
    has become of their contents. -/
def KeepsLayoutSince (s : Session) (base : Nat) (current : Document) : Prop :=
  ∀ a ∈ s.history, base ≤ a.before.revision → a.before.bare = current.bare

instance (s : Session) (base : Nat) (current : Document) :
    Decidable (s.KeepsLayoutSince base current) :=
  inferInstanceAs (Decidable (∀ a ∈ s.history, _))

theorem bare_of_reconcile (hrecorded : s.Recorded) (hnamed : s.WellNamed)
    (hdoc : s.document = some current) {patch : Patch} {target : Document}
    (hshown : s.documentAt? patch.base = some shown) (happly : shown.apply patch = .ok target)
    (hlayout : s.KeepsLayoutSince patch.base current)
    (hdeletes : ∀ a ∈ s.history, patch.base ≤ a.before.revision →
      patch.DeletesOver a.patch s.config.conflictPolicy)
    {carried : Carried} (h : s.reconcile current origin patch = .ok (carried, next)) :
    next.bare = target.bare := by
  have hnext := apply_of_reconcile h
  obtain ⟨hcurrent, rfl⟩ | ⟨hstale, a, later, hsince, rfl, hwell, hreplays⟩ :=
    exists_since hrecorded hnamed hdoc hshown
  · obtain rfl := carried_of_reconcile hcurrent.ge h
    cases happly.symm.trans hnext
    rfl
  · have hmem : ∀ e ∈ a :: later, e ∈ s.history ∧ patch.base ≤ e.before.revision := fun e he =>
      mem_of_mem_historyFrom (hrecorded.replays current hdoc) hsince
        (revision_of_apply happly).1.symm he
    obtain ⟨other, result, hcarry, hresult, hbare⟩ := exists_carryOver_of_bare_eq origin []
      hreplays hwell happly (fun e he => hlayout e (hmem e he).1 (hmem e he).2)
      fun e he => hdeletes e (hmem e he).1 (hmem e he).2
    cases hcarry.symm.trans (carryOver_of_reconcile hstale hsince h)
    cases hresult.symm.trans hnext
    exact hbare

/-- Nothing waits in a session that awaits no acknowledgement. -/
theorem Reachable.queue_nil [RegexLibrary] (h : s.Reachable) (hpending : s.pending = none) :
    s.queue = [] := by
  cases h with
  | run id config hcommands => exact ((consistent_new id config).run _).queue_nil hpending
  | midway h events settled => exact queue_foldl_process rfl settled

/-- A view edit that gets the document to another revision is the patch to what the view makes up,
    settled at once. -/
theorem viewEdit_of_committed [RegexLibrary] (hqueue : s.queue = []) (hpending : s.pending = none)
    (hdoc : s.document = some current) (hshown : s.documentAt? base = some shown)
    (hedit : s.viewEdit origin base view = .ok t) (hnext : t.document = some next)
    (hcommitted : next.revision ≠ current.revision) :
    ∃ candidate carried, shown.ofView view = .ok candidate ∧
      s.reconcile current origin (shown.diff candidate) = .ok (carried, next) ∧
      t.events = s.events ++ s.acceptEvents
        ⟨origin, shown.diff candidate, isReshaped candidate view⟩ carried next := by
  have hsame : t.document ≠ s.document := by
    rw [hnext, hdoc]
    exact fun heq => hcommitted (congrArg Document.revision (Option.some.inj heq))
  obtain ⟨d, hopen, ⟨hnone, -⟩ | ⟨d', candidate, hd', hcandidate, (rfl | rfl) | henqueue⟩⟩ :=
    viewEdit_eq_ok hedit
  · rw [hshown] at hnone
    cases hnone
  · exact absurd rfl hsame
  · rw [sendDocument_eq] at hsame
    exact absurd rfl hsame
  · cases hshown.symm.trans hd'
    obtain ⟨d, -, ⟨hwaits, -⟩ | ⟨-, rfl⟩⟩ := enqueue_eq_ok henqueue
    · simp [hpending] at hwaits
    · set sub : Submission := ⟨origin, shown.diff candidate, isReshaped candidate view⟩
      rw [drain_of_queue_nil hqueue hpending (by simp [hdoc])] at hnext hsame ⊢
      cases hreconcile : s.reconcile current origin (shown.diff candidate) with
      | error e =>
        rw [process_of_error hdoc hreconcile, reject_eq] at hsame
        exact absurd rfl hsame
      | ok result =>
        obtain ⟨carried, result⟩ := result
        have hprocess : s.process sub = _ := process_of_ok hdoc hreconcile
        rw [hprocess] at hnext ⊢
        cases hnext
        exact ⟨candidate, carried, hcandidate, hreconcile, rfl⟩

/-- The origin of a patch that is committed is sent the document only if its blocks have to be made
    over, and then the new one. -/
theorem fullDocument_mem_acceptEvents_iff {sub : Submission} (carried : Carried)
    (hsubscribed : sub.origin ∈ s.subscribers) (snapshot : Option Snapshot) :
    .send sub.origin ⟨s.id, .fullDocument snapshot⟩ ∈ s.acceptEvents sub carried next ↔
      sub.resync = true ∧ snapshot = some next.snapshot := by
  have hpeer : s.subscribers.contains sub.origin = true := by simpa using hsubscribed
  constructor
  · intro hmem
    rw [acceptEvents, commitEvents] at hmem
    simp only [List.mem_append] at hmem
    obtain (((hmem | hmem) | hmem) | hmem) | hmem := hmem
    · cases mem_addressed hmem
    · obtain ⟨other, -, hmem⟩ := List.mem_flatMap.1 hmem
      cases mem_addressed hmem
    · split at hmem <;> simp at hmem
    · obtain ⟨loser, -, hmem⟩ := List.mem_flatMap.1 hmem
      cases mem_addressed hmem
    · split at hmem
      · rename_i hresync
        cases mem_addressed hmem
        exact ⟨hresync, rfl⟩
      · cases hmem
  · rintro ⟨hresync, rfl⟩
    rw [acceptEvents, if_pos hresync, addressed, if_pos hpeer]
    exact List.mem_append_right _ List.mem_cons_self

/-- A peer whose view edit is committed is sent the new document if its view makes up other blocks
    than it shows, and no document otherwise. These are the blocks of the new document, if since
    the base of the edit the blocks have changed their contents at most and no deletion by the edit
    gives way to such a change, as when the base is the current revision. -/
theorem fullDocument_of_viewEdit [RegexLibrary] (h : s.Reachable) (hpending : s.pending = none)
    (hdoc : s.document = some current) (hsubscribed : origin ∈ s.subscribers)
    (hshown : s.documentAt? base = some shown)
    (hedit : s.viewEdit origin base view = .ok t) (hnext : t.document = some next)
    (hcommitted : next.revision ≠ current.revision) :
    ∃ candidate events, shown.ofView view = .ok candidate ∧ t.events = s.events ++ events ∧
      (∀ snapshot, .send origin ⟨s.id, .fullDocument snapshot⟩ ∈ events ↔
        isReshaped candidate view = true ∧ snapshot = some next.snapshot) ∧
      (shown.ids.count + candidate.blocks.length < 2 ^ 64 → s.KeepsLayoutSince base current →
        (∀ a ∈ s.history, base ≤ a.before.revision →
          (shown.diff candidate).DeletesOver a.patch s.config.conflictPolicy) →
        isReshaped next view = isReshaped candidate view) := by
  obtain ⟨hrecorded, hnamed⟩ := h.recorded_and_wellNamed
  obtain ⟨candidate, carried, hcandidate, hreconcile, hevents⟩ := viewEdit_of_committed
    (h.queue_nil hpending) hpending hdoc hshown hedit hnext hcommitted
  refine ⟨candidate, _, hcandidate, hevents, fun snapshot => ?_, fun hroom hlayout hdeletes => ?_⟩
  · let sub : Submission := ⟨origin, shown.diff candidate, isReshaped candidate view⟩
    have hsub : sub.origin ∈ s.subscribers := hsubscribed
    exact fullDocument_mem_acceptEvents_iff carried hsub snapshot
  · obtain ⟨rfl, hwell⟩ := documentAt?_spec hnamed hshown
    obtain ⟨target, happly, houtline⟩ := Document.exists_apply_diff_outline hwell hroom
    have hkinds : target.blocks.map (·.kind) = candidate.blocks.map (·.kind) := by
      have hfirst := congrArg (List.map Prod.fst) houtline
      rwa [Document.outline, Document.outline, List.map_map, List.map_map] at hfirst
    have hbare := bare_of_reconcile hrecorded hnamed hdoc hshown happly hlayout hdeletes hreconcile
    rw [isReshaped, isReshaped, Block.kinds_of_bare_eq hbare, hkinds]

/-- A peer writes a comment behind code that another peer has changed. -/
theorem fullDocument_of_viewEdit_split_code :
    let p : Profile := { id := "python", lineComments := ["#"], strings := [.spanning "\""] }
    let d := Document.build p .unseeded [⟨.doc, "# a\n", ⟨0, 4⟩⟩, ⟨.code, "x = 1\n", ⟨4, 10⟩⟩]
    let s := (new ⟨"s1"⟩ {}).run [.beginOpen, .finishOpen (.ok d), .subscribe ⟨"v"⟩,
      .submit ⟨"u"⟩ ⟨0, [.replace ⟨"b2"⟩ "x = 2\n"]⟩]
    let view : List ViewBlock :=
      [⟨.doc, "python", "a\n"⟩, ⟨.code, "python", "x = 1\n# b\n"⟩]
    let next : Document :=
      ⟨[⟨⟨"b1"⟩, .doc, "# a\n"⟩, ⟨⟨"b2"⟩, .code, "x = 2\n"⟩, ⟨⟨"b3"⟩, .doc, "# b\n"⟩], 2, p,
        ⟨none, 3⟩⟩
    s.Reachable ∧ ∃ t events, s.viewEdit ⟨"v"⟩ 0 view = .ok t ∧ t.document = some next ∧
      t.events = s.events ++ events ∧ isReshaped next view = true ∧
      .send ⟨"v"⟩ ⟨⟨"s1"⟩, .fullDocument (some next.snapshot)⟩ ∈ events := by
  intro p d s view next
  have hd : d.WellNamed := Document.wellNamed_build p .unseeded _
  have hreachable : s.Reachable := .run ⟨"s1"⟩ {} (by
    simp only [List.forall_mem_cons]
    exact ⟨trivial, hd, trivial, trivial, by simp⟩)
  let current : Document := { d with
    blocks := [⟨⟨"b1"⟩, .doc, "# a\n"⟩, ⟨⟨"b2"⟩, .code, "x = 2\n"⟩], revision := 1 }
  have hdoc : s.document = some current := by decide +kernel
  have hshown : s.documentAt? 0 = some d := by decide +kernel
  let t := (s.step (.viewEdit ⟨"v"⟩ 0 view)).1
  have hedit : s.viewEdit ⟨"v"⟩ 0 view = .ok t := by decide +kernel
  have hnext : t.document = some next := by decide +kernel
  obtain ⟨candidate, events, hcandidate, hevents, hsent, hlayout⟩ := fullDocument_of_viewEdit
    hreachable (by decide +kernel) hdoc (by decide +kernel) hshown hedit hnext (by decide)
  have hsame : d.ofView view = .ok { next with
      blocks := [⟨⟨"view-b1"⟩, .doc, "# a\n"⟩, ⟨⟨"view-b2"⟩, .code, "x = 1\n"⟩,
        ⟨⟨"view-b3"⟩, .doc, "# b\n"⟩]
      revision := 0
      ids := ⟨some "view", 3⟩ } := by decide +kernel
  cases hcandidate.symm.trans hsame
  have hreshaped := hlayout (by decide +kernel) (by decide +kernel) fun _ _ _ => .inl rfl
  exact ⟨hreachable, t, events, hedit, hnext, hevents, hreshaped, (hsent _).2 ⟨rfl, rfl⟩⟩

end LiterateSync.Session
