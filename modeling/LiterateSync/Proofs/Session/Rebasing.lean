import LiterateSync.Proofs.Document.Written
import LiterateSync.Proofs.Session.Invariant
import LiterateSync.Proofs.Session.Naming
import LiterateSync.Text.Pattern.Library

namespace LiterateSync.Session

/-- How it goes with the names when a patch is carried over the patches that were applied since
    its base, up to the first of them where a change is misled or the numbers run out. -/
def courseOver (policy : ConflictPolicy) (current : Document) :
    Patch → List Applied → Rebase.Course
  | _, [] => .clear
  | patch, applied :: later =>
    let after := documentAfter later current
    match patch.course applied.patch applied.before after policy with
    | .clear =>
      match patch.rebase applied.patch applied.before after policy with
      | .error _ => .clear
      | .ok rebased => courseOver policy current rebased.patch later
    | course => course

/-- How it goes with the names when a patch is made over for the current document. -/
def course (s : Session) (current : Document) (patch : Patch) : Rebase.Course :=
  if patch.base < current.revision then
    courseOver s.config.conflictPolicy current patch (historyFrom patch.base s.history)
  else .clear

section Way

variable {policy : ConflictPolicy} {origin : PeerId} {current target : Document} {patch : Patch}
  {losers : List PeerId} {a : Applied} {since : List Applied}

theorem courseOver_cons (h : patch.course a.patch a.before (documentAfter since current) policy ≠
      .clear) :
    courseOver policy current patch (a :: since) =
      patch.course a.patch a.before (documentAfter since current) policy := by
  rw [courseOver]
  split
  · rename_i hclear
    exact absurd hclear h
  · rfl

theorem courseOver_cons_of_ok {rebased : Rebased}
    (h : patch.course a.patch a.before (documentAfter since current) policy = .clear)
    (hrebase : patch.rebase a.patch a.before (documentAfter since current) policy = .ok rebased) :
    courseOver policy current patch (a :: since) =
      courseOver policy current rebased.patch since := by
  simp only [courseOver, h, hrebase]

theorem carryOver_cons_of_ok {rebased : Rebased}
    (h : patch.rebase a.patch a.before (documentAfter since current) policy = .ok rebased) :
    carryOver policy origin current ⟨patch, losers⟩ (a :: since) =
      carryOver policy origin current
        ⟨rebased.patch,
          if rebased.conflicts.isEmpty then losers
          else addLoser losers (loser? policy origin a.origin)⟩ since := by
  rw [documentAfter] at h
  simp only [carryOver, h]

theorem carryOver_cons_of_error {e : PatchError}
    (h : patch.rebase a.patch a.before (documentAfter since current) policy = .error e) :
    carryOver policy origin current ⟨patch, losers⟩ (a :: since) = .error e := by
  rw [documentAfter] at h
  simp only [carryOver, h]

/-- A patch that is carried over a history is carried over the first patch of it, and what it has
    become there over the others. -/
theorem carryOver_cons_eq_ok {carried : Carried}
    (h : carryOver policy origin current ⟨patch, losers⟩ (a :: since) = .ok carried) :
    ∃ rebased, patch.rebase a.patch a.before (documentAfter since current) policy = .ok rebased ∧
      carryOver policy origin current
        ⟨rebased.patch,
          if rebased.conflicts.isEmpty then losers
          else addLoser losers (loser? policy origin a.origin)⟩ since = .ok carried := by
  cases hrebase : patch.rebase a.patch a.before (documentAfter since current) policy with
  | error e =>
    rw [carryOver_cons_of_error hrebase] at h
    cases h
  | ok rebased =>
    rw [carryOver_cons_of_ok hrebase] at h
    exact ⟨rebased, rfl, h⟩

/-- A patch that its base accepts is carried over the whole history since, or a change in it that
    is misled onto nothing makes it fail on the way. -/
theorem carryOver_of_course (policy : ConflictPolicy) (origin : PeerId) (losers : List PeerId)
    (hreplays : Replays since current)
    (hnamed : (documentAfter since current).WellNamed)
    (happly : (documentAfter since current).apply patch = .ok target) :
    (courseOver policy current patch since = .clear →
      ∃ carried next, carryOver policy origin current ⟨patch, losers⟩ since = .ok carried ∧
        current.apply carried.patch = .ok next) ∧
    (courseOver policy current patch since = .lost →
      ∃ id, carryOver policy origin current ⟨patch, losers⟩ since =
        .error (.unknownBlock id)) := by
  induction since generalizing patch target losers with
  | nil => exact ⟨fun _ => ⟨_, target, rfl, happly⟩, fun h => by cases h⟩
  | cons a since ih =>
    rw [documentAfter_cons] at hnamed happly
    cases hfirst : patch.course a.patch a.before (documentAfter since current) policy with
    | clear =>
      obtain ⟨rebased, next, hrebase, hnext⟩ :=
        Patch.exists_rebase hnamed hreplays.1 happly hfirst
      rw [courseOver_cons_of_ok hfirst hrebase, carryOver_cons_of_ok hrebase]
      exact ih _ hreplays.2 (Document.wellNamed_of_apply hnamed hreplays.1).1 hnext
    | lost =>
      obtain ⟨id, hrebase⟩ := Patch.rebase_of_lost hnamed hreplays.1 happly hfirst
      rw [courseOver_cons (by simp [hfirst]), hfirst, carryOver_cons_of_error hrebase]
      exact ⟨nofun, fun _ => ⟨id, rfl⟩⟩
    | crossed =>
      rw [courseOver_cons (by simp [hfirst]), hfirst]
      exact ⟨nofun, nofun⟩
    | spent =>
      rw [courseOver_cons (by simp [hfirst]), hfirst]
      exact ⟨nofun, nofun⟩

/-- Patches that keep what they have written are not misled on the way. -/
theorem courseOver_of_keepsWritten (policy : ConflictPolicy) (hreplays : Replays since current)
    (hnamed : (documentAfter since current).WellNamed)
    (happly : (documentAfter since current).apply patch = .ok target)
    (hkeeps : KeepsWritten patch.ops) :
    courseOver policy current patch since = .clear ∨
      courseOver policy current patch since = .spent := by
  induction since generalizing patch target with
  | nil => exact .inl rfl
  | cons a since ih =>
    rw [documentAfter_cons] at hnamed happly
    obtain hspent | ⟨hclear, hcarried⟩ :=
      Patch.course_of_keepsWritten policy hnamed hreplays.1 happly hkeeps
    · rw [courseOver_cons (by simp [hspent]), hspent]
      exact .inr rfl
    · obtain ⟨rebased, next, hrebase, hnext⟩ :=
        Patch.exists_rebase hnamed hreplays.1 happly hclear
      rw [courseOver_cons_of_ok hclear hrebase]
      exact ih hreplays.2 (Document.wellNamed_of_apply hnamed hreplays.1).1 hnext
        (hcarried rebased hrebase)

end Way

variable {s : Session} {current base target : Document} {patch : Patch}

/-- The base of a patch is the current document, or the history from it on is still known. -/
theorem exists_since (hrecorded : s.Recorded) (hnamed : s.WellNamed)
    (hdoc : s.document = some current) {revision : Nat}
    (hbase : s.documentAt? revision = some base) :
    (revision = current.revision ∧ base = current) ∨
      revision < current.revision ∧ ∃ a later, historyFrom revision s.history = a :: later ∧
        documentAfter (a :: later) current = base ∧ base.WellNamed ∧
        Replays (a :: later) current := by
  rw [documentAt?, hdoc] at hbase
  dsimp only at hbase
  split at hbase
  · rename_i hcurrent
    cases hbase
    exact .inl ⟨hcurrent.symm, rfl⟩
  · obtain ⟨a, later, hsince, rfl⟩ := exists_historyFrom hbase
    have hreplays : Replays s.history current := hrecorded.replays current hdoc
    have hmem : a ∈ s.history :=
      (historyFrom_sublist revision s.history).subset (hsince ▸ List.mem_cons_self)
    have hrevision : a.before.revision = revision := by simpa using List.find?_some hbase
    exact .inr ⟨hrevision ▸ hreplays.revision_lt hmem, a, later, hsince, rfl,
      hnamed.history a hmem, hsince ▸ hreplays.historyFrom revision⟩

theorem carryToCurrent_of_reconcile {origin : PeerId} {carried : Carried} {next : Document}
    (h : s.reconcile current origin patch = .ok (carried, next)) :
    s.carryToCurrent current origin patch = .ok carried := by
  rw [reconcile] at h
  split at h
  · cases h
  · rename_i result hcarried
    split at h
    · cases h
    · cases h
      exact hcarried

/-- A patch to the current document is applied as it is, and overwrites nothing. -/
theorem carried_of_reconcile {origin : PeerId} {carried : Carried} {next : Document}
    (hcurrent : current.revision ≤ patch.base)
    (h : s.reconcile current origin patch = .ok (carried, next)) : carried = ⟨patch, []⟩ := by
  have hcarried := carryToCurrent_of_reconcile h
  rw [carryToCurrent, if_neg (by omega)] at hcarried
  exact (Except.ok.inj hcarried).symm

/-- A patch that is made over for the current document has been carried over the history from its
    base on. -/
theorem carryOver_of_reconcile {origin : PeerId} {carried : Carried} {next : Document} {a : Applied}
    {later : List Applied} (hstale : patch.base < current.revision)
    (hsince : historyFrom patch.base s.history = a :: later)
    (h : s.reconcile current origin patch = .ok (carried, next)) :
    carryOver s.config.conflictPolicy origin current ⟨patch, []⟩ (a :: later) = .ok carried := by
  have hcarried := carryToCurrent_of_reconcile h
  rw [carryToCurrent, if_pos hstale, hsince] at hcarried
  exact hcarried

theorem reconcile_of_course (hrecorded : s.Recorded) (hnamed : s.WellNamed)
    (hdoc : s.document = some current) (hbase : s.documentAt? patch.base = some base)
    (happly : base.apply patch = .ok target) (origin : PeerId) :
    (s.course current patch = .clear →
      ∃ carried next, s.reconcile current origin patch = .ok (carried, next)) ∧
    (s.course current patch = .lost →
      ∃ id, s.reconcile current origin patch = .error (.unknownBlock id)) := by
  rw [course, reconcile, carryToCurrent]
  obtain ⟨hcurrent, rfl⟩ | ⟨hlt, a, later, hsince, rfl, hwell, hreplays⟩ :=
    exists_since hrecorded hnamed hdoc hbase
  · rw [if_neg (by omega), if_neg (by omega)]
    exact ⟨fun _ => ⟨⟨patch, []⟩, target, by simp only [happly]⟩,
      fun hlost => absurd hlost (by simp)⟩
  · rw [if_pos hlt, if_pos hlt, hsince]
    obtain ⟨hclear, hlost⟩ := carryOver_of_course s.config.conflictPolicy origin [] hreplays
      hwell happly
    refine ⟨fun h => ?_, fun h => ?_⟩
    · obtain ⟨carried, next, hcarried, hnext⟩ := hclear h
      exact ⟨carried, next, by simp only [hcarried, hnext]⟩
    · obtain ⟨id, hcarried⟩ := hlost h
      exact ⟨id, by simp only [hcarried]⟩

theorem course_of_keepsWritten (hrecorded : s.Recorded) (hnamed : s.WellNamed)
    (hdoc : s.document = some current) (hbase : s.documentAt? patch.base = some base)
    (happly : base.apply patch = .ok target) (hkeeps : KeepsWritten patch.ops) :
    s.course current patch = .clear ∨ s.course current patch = .spent := by
  rw [course]
  obtain ⟨hcurrent, rfl⟩ | ⟨hlt, a, later, hsince, rfl, hwell, hreplays⟩ :=
    exists_since hrecorded hnamed hdoc hbase
  · rw [if_neg (by omega)]
    exact .inl rfl
  · rw [if_pos hlt, hsince]
    exact courseOver_of_keepsWritten _ hreplays hwell happly hkeeps

/-- The outcome of a submission that is committed: the document is one revision further, no patch
    of the origin counts as refused, and nobody is told that a patch of his is refused. -/
def Commits (s : Session) (current : Document) (sub : Submission) : Prop :=
  ∃ carried next, s.reconcile current sub.origin sub.patch = .ok (carried, next) ∧
    (s.process sub).document = some next ∧ next.revision = current.revision + 1 ∧
    (s.process sub).rejections.count sub.origin = 0 ∧
    ∃ events, (s.process sub).events = s.events ++ events ∧
      ∀ peer id revision reason, .send peer ⟨id, .superseded revision reason⟩ ∈ events →
        reason = .conflict

/-- The outcome of a submission that is refused because of a block that is not there. -/
def Refuses (s : Session) (current : Document) (sub : Submission) : Prop :=
  ∃ id, s.reconcile current sub.origin sub.patch = .error (.unknownBlock id) ∧
    s.process sub = s.reject sub.origin .unknownBlock

/-- Of an accepted patch only those are told that an edit is superseded who lose one to it or with
    it, and as of a conflict. -/
theorem loser_of_mem_acceptEvents {sub : Submission} {carried : Carried} {next : Document}
    {peer : PeerId} {id : SessionId} {revision : Nat} {reason : SupersedeReason}
    (h : .send peer ⟨id, .superseded revision reason⟩ ∈ s.acceptEvents sub carried next) :
    peer ∈ carried.losers ∧ reason = .conflict := by
  rw [acceptEvents, commitEvents] at h
  simp only [List.mem_append] at h
  obtain (((h | h) | h) | h) | h := h
  · cases mem_addressed h
  · obtain ⟨other, -, h⟩ := List.mem_flatMap.1 h
    cases mem_addressed h
  · split at h <;> simp at h
  · obtain ⟨loser, hloser, h⟩ := List.mem_flatMap.1 h
    cases mem_addressed h
    exact ⟨hloser, rfl⟩
  · split at h
    · cases mem_addressed h
    · cases h

theorem commits_of_reconcile (hdoc : s.document = some current) {sub : Submission}
    {carried : Carried} {next : Document}
    (h : s.reconcile current sub.origin sub.patch = .ok (carried, next)) :
    s.Commits current sub := by
  have hprocess := process_of_ok hdoc h
  refine ⟨carried, next, h, by rw [hprocess],
    (revision_of_apply (apply_of_reconcile h)).2, ?_, s.acceptEvents sub carried next, ?_, ?_⟩
  · rw [hprocess]
    exact (Rejections.count_clear _ _ _).trans (if_pos rfl)
  · rw [hprocess]
  · intro peer id revision reason hmem
    exact (loser_of_mem_acceptEvents hmem).2

/-- A session in the middle of settling its queue, when nothing is outstanding any more and some
    submissions have been settled. -/
def midway (s : Session) (events : List Event) (settled : List Submission) : Session :=
  settled.foldl process { s with queue := [], pending := none, events }

/-- The states that a session can be in: behind some commands, and in the middle of settling its
    queue on the way. -/
inductive Reachable [RegexLibrary] : Session → Prop
  | run (id : SessionId) (config : SyncConfig) {commands : List Command}
      (hcommands : ∀ c ∈ commands, c.Admissible) : Reachable ((new id config).run commands)
  | midway {s : Session} (h : Reachable s) (events : List Event) (settled : List Submission) :
      Reachable (s.midway events settled)

theorem Reachable.recorded_and_wellNamed [RegexLibrary] (h : s.Reachable) :
    s.Recorded ∧ s.WellNamed := by
  induction h with
  | run id config hcommands =>
    exact ⟨((consistent_new id config).run _).recorded, (wellNamed_new id config).run hcommands⟩
  | @midway s h events settled ih =>
    obtain ⟨hrecorded, hnamed⟩ := ih
    have hstart : { s with queue := [], pending := none, events }.WellNamed :=
      hnamed.congr rfl rfl
    exact ⟨(settles_foldl _ settled).recorded
      ⟨hrecorded.replays, hrecorded.length_le, hrecorded.nil_of_none⟩,
      hstart.foldl_process settled⟩

/-- A patch that the document at its base accepts is committed, however far the session has gone
    on since, as long as the numbers last and no change of the patch is misled: carried over
    another patch, a block that is put back under its own name is looked for under the name that
    an earlier block of this name got. Where nothing has that name, the patch is refused. This
    cannot happen to a patch that never deletes what it has written. -/
theorem process_of_accepted [RegexLibrary] (h : s.Reachable) (hdoc : s.document = some current)
    {sub : Submission} (hbase : s.documentAt? sub.patch.base = some base)
    (happly : base.apply sub.patch = .ok target) :
    (s.course current sub.patch = .clear → s.Commits current sub) ∧
      (s.course current sub.patch = .lost → s.Refuses current sub) ∧
      (KeepsWritten sub.patch.ops →
        s.course current sub.patch = .clear ∨ s.course current sub.patch = .spent) := by
  obtain ⟨hrecorded, hnamed⟩ := h.recorded_and_wellNamed
  obtain ⟨hclear, hlost⟩ := reconcile_of_course hrecorded hnamed hdoc hbase happly sub.origin
  refine ⟨fun hcourse => ?_, fun hcourse => ?_,
    fun hkeeps => course_of_keepsWritten hrecorded hnamed hdoc hbase happly hkeeps⟩
  · obtain ⟨carried, next, hreconcile⟩ := hclear hcourse
    exact commits_of_reconcile hdoc hreconcile
  · obtain ⟨id, hreconcile⟩ := hlost hcourse
    exact ⟨id, hreconcile, process_of_error hdoc hreconcile⟩

/-- A block of the patch is carried over under the next name, which the patch has used for a block
    of its own. Both are deleted, and then the second name is used again. -/
theorem process_of_accepted_reused_name :
    let p : Profile := { id := "python", lineComments := ["#"] }
    let base : Document := ⟨[⟨⟨"b1"⟩, .code, "x = 1\n"⟩], 0, p, ⟨none, 1⟩⟩
    let current : Document :=
      ⟨[⟨⟨"b2"⟩, .doc, "# u\n"⟩, ⟨⟨"b1"⟩, .code, "x = 1\n"⟩], 1, p, ⟨none, 2⟩⟩
    let s := (new ⟨"s1"⟩ {}).run [.beginOpen, .finishOpen (.ok base), .subscribe ⟨"v"⟩,
      .submit ⟨"u"⟩ ⟨0, [.insert ⟨⟨"b2"⟩, .doc, "# u\n"⟩ none]⟩]
    let sub : Submission :=
      { origin := ⟨"v"⟩
        patch := ⟨0, [
          .insert ⟨⟨"b2"⟩, .code, "y = 1\n"⟩ (some ⟨"b1"⟩),
          .insert ⟨⟨"b3"⟩, .code, "z = 1\n"⟩ (some ⟨"b2"⟩),
          .delete ⟨"b2"⟩, .delete ⟨"b3"⟩,
          .insert ⟨⟨"b3"⟩, .doc, "# z\n"⟩ (some ⟨"b1"⟩), .replace ⟨"b3"⟩ "# w\n"]⟩
        resync := false }
    s.Reachable ∧ s.document = some current ∧ s.documentAt? sub.patch.base = some base ∧
      (∃ target, base.apply sub.patch = .ok target) ∧ s.Refuses current sub := by
  intro p base current s sub
  have hbase : base.WellNamed :=
    Document.wellNamed_build p .unseeded [⟨.code, "x = 1\n", ⟨0, 6⟩⟩]
  have hreachable : s.Reachable := .run ⟨"s1"⟩ {} (by
    simp only [List.forall_mem_cons]
    exact ⟨trivial, hbase, trivial, trivial, by simp⟩)
  have hdoc : s.document = some current := by decide +kernel
  have hknown : s.documentAt? sub.patch.base = some base := by decide +kernel
  have happly : base.apply sub.patch =
      .ok ⟨[⟨⟨"b1"⟩, .code, "x = 1\n"⟩, ⟨⟨"b3"⟩, .doc, "# w\n"⟩], 1, p, ⟨none, 3⟩⟩ := by
    decide +kernel
  have hcourse : s.course current sub.patch = .lost := by decide +kernel
  obtain ⟨-, hlost, -⟩ := process_of_accepted hreachable hdoc hknown happly
  exact ⟨hreachable, hdoc, hknown, ⟨_, happly⟩, hlost hcourse⟩

end LiterateSync.Session
