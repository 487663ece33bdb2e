import LiterateSync.Proofs.Document.Landing
import LiterateSync.Proofs.Session.Overwriting
import LiterateSync.Text.Pattern.Library

namespace LiterateSync.Session

open Rebase (touched)

section Way

variable {policy : ConflictPolicy} {origin : PeerId} {current target : Document} {patch : Patch}
  {losers : List PeerId} {a : Applied} {since : List Applied} {carried : Carried}

theorem mem_documentAfter_of_forall {x : BlockId}
    (hsince : ∀ a ∈ since, x ∈ a.before.blocks.map (·.id))
    (hcurrent : x ∈ current.blocks.map (·.id)) :
    x ∈ (documentAfter since current).blocks.map (·.id) := by
  cases since with
  | nil => exact hcurrent
  | cons a since => exact hsince a List.mem_cons_self

/-- A patch that none of its changes misleads on the way is not misled over the first patch, and not
    over the others. -/
theorem course_of_courseOver (hcourse : courseOver policy current patch (a :: since) = .clear) :
    patch.course a.patch a.before (documentAfter since current) policy = .clear ∧
      ∀ rebased, patch.rebase a.patch a.before (documentAfter since current) policy = .ok rebased →
        courseOver policy current rebased.patch since = .clear := by
  have hfirst : patch.course a.patch a.before (documentAfter since current) policy = .clear := by
    by_contra hne
    exact hne (courseOver_cons hne ▸ hcourse)
  exact ⟨hfirst, fun rebased hrebase => courseOver_cons_of_ok hfirst hrebase ▸ hcourse⟩

/-- A patch that is not misled lands behind a history. What it does to a block stands if it wins, or
    if no patch of the history has touched the block. -/
theorem landing_of_carryOver (hreplays : Replays since current)
    (hnamed : (documentAfter since current).WellNamed)
    (happly : (documentAfter since current).apply patch = .ok target)
    (hcourse : courseOver policy current patch since = .clear)
    (hcarry : carryOver policy origin current ⟨patch, losers⟩ since = .ok carried) :
    ∃ name, patch.Landing carried.patch (documentAfter since current) current name
      (fun x => policy = .laterWins ∨
        (x ∈ (documentAfter since current).blocks.map (·.id) →
          ∀ a ∈ since, touched a.patch.ops x = none))
      (fun x => (∀ a ∈ since, x ∈ a.before.blocks.map (·.id)) ∧
        x ∈ current.blocks.map (·.id)) := by
  induction since generalizing patch target losers with
  | nil =>
    cases hcarry
    exact ⟨_, Patch.landing_self patch current _ _⟩
  | cons a since ih =>
    obtain ⟨hfirst, hrest⟩ := course_of_courseOver hcourse
    obtain ⟨rebased, hrebase, hmore⟩ := carryOver_cons_eq_ok hcarry
    obtain ⟨next, hnext⟩ := Patch.exists_apply_of_rebase hrebase
    obtain ⟨first, hlands⟩ := (Patch.exists_landing hnamed hreplays.1 happly hfirst hrebase).1
    obtain ⟨second, hlands'⟩ := ih hreplays.2
      (Document.wellNamed_of_apply hnamed hreplays.1).1 hnext (hrest rebased hrebase) hmore
    refine ⟨second ∘ first, hlands.trans hlands' (fun x hx => ?_) (fun x hx hown => ?_)
      fun x hx => ?_⟩
    · exact hx.imp_right fun huntouched hin => huntouched hin a List.mem_cons_self
    · refine hx.imp_right fun huntouched hin e he => ?_
      obtain ⟨hself, hbefore⟩ := hown hin
      rw [hself]
      exact huntouched hbefore e (List.mem_cons_of_mem a he)
    · obtain ⟨hbefore, hlater⟩ := List.forall_mem_cons.1 hx.1
      exact ⟨⟨hbefore, mem_documentAfter_of_forall hlater hx.2⟩, hlater, hx.2⟩

/-- Over a history of its own, a patch costs a peer an edit only if the earlier patch wins, and both
    have touched a block. -/
theorem opposed_of_mem_losers (hreplays : Replays since current)
    (hnamed : (documentAfter since current).WellNamed)
    (happly : (documentAfter since current).apply patch = .ok target)
    (hcourse : courseOver policy current patch since = .clear)
    (hown : ∀ a ∈ since, a.origin = origin)
    (hcarry : carryOver policy origin current ⟨patch, losers⟩ since = .ok carried) {peer : PeerId}
    (hpeer : peer ∈ carried.losers) :
    peer ∈ losers ∨ policy = .earlierWins ∧
      ∃ x ∈ (documentAfter since current).blocks.map (·.id), touched patch.ops x ≠ none ∧
        ∃ a ∈ since, touched a.patch.ops x ≠ none := by
  induction since generalizing patch target losers with
  | nil =>
    cases hcarry
    exact .inl hpeer
  | cons a since ih =>
    obtain ⟨hfirst, hrest⟩ := course_of_courseOver hcourse
    obtain ⟨rebased, hrebase, hmore⟩ := carryOver_cons_eq_ok hcarry
    obtain ⟨next, hnext⟩ := Patch.exists_apply_of_rebase hrebase
    obtain ⟨-, hconflicts, htouches⟩ :=
      Patch.exists_landing hnamed hreplays.1 happly hfirst hrebase
    obtain ⟨ha, hlater⟩ := List.forall_mem_cons.1 hown
    obtain hold | ⟨hpolicy, x, hx, htouched, e, he, hopposed⟩ := ih hreplays.2
      (Document.wellNamed_of_apply hnamed hreplays.1).1 hnext (hrest rebased hrebase) hlater hmore
    · split at hold
      · exact .inl hold
      · rename_i hsome
        cases policy with
        | laterWins =>
          rw [loser?, if_pos ha] at hold
          exact .inl hold
        | earlierWins =>
          obtain ⟨x, hx⟩ := List.exists_mem_of_ne_nil _ (mt List.isEmpty_iff.2 hsome)
          obtain ⟨hbefore, hearlier, htouched⟩ := hconflicts x hx
          exact .inr ⟨rfl, x, hbefore, htouched, a, List.mem_cons_self, hearlier⟩
    · obtain ⟨hbefore, htouched'⟩ := htouches x hx htouched
      exact .inr ⟨hpolicy, x, hbefore, htouched', e, List.mem_cons_of_mem a he, hopposed⟩

end Way

variable {s : Session} {current base target : Document} {sub : Submission}

/-- Whether no patch since the base of one has touched a block, if the base has the block. -/
def Untouched (s : Session) (base : Document) (x : BlockId) : Prop :=
  x ∈ base.blocks.map (·.id) →
    ∀ a ∈ s.history, base.revision ≤ a.before.revision → touched a.patch.ops x = none

/-- Whether a block is there in all documents since a revision, the current one among them. -/
def Lasts (s : Session) (revision : Nat) (current : Document) (x : BlockId) : Prop :=
  (∀ a ∈ s.history, revision ≤ a.before.revision → x ∈ a.before.blocks.map (·.id)) ∧
    x ∈ current.blocks.map (·.id)

section Outcome

variable {patch : Patch} {origin : PeerId} {carried : Carried} {next : Document}
  (hrecorded : s.Recorded) (hnamed : s.WellNamed) (hdoc : s.document = some current)
  (hbase : s.documentAt? patch.base = some base) (happly : base.apply patch = .ok target)
  (hcourse : s.course current patch = .clear)
  (hreconcile : s.reconcile current origin patch = .ok (carried, next))

include hrecorded hnamed hdoc hbase happly hcourse hreconcile

/-- A patch is made over over nothing, or over the history from its base on. -/
theorem exists_carryOver :
    ∃ since, documentAfter since current = base ∧ base.WellNamed ∧ Replays since current ∧
      courseOver s.config.conflictPolicy current patch since = .clear ∧
      carryOver s.config.conflictPolicy origin current ⟨patch, []⟩ since = .ok carried ∧
      ∀ a ∈ since, a ∈ s.history ∧ base.revision ≤ a.before.revision := by
  have hrevision := (revision_of_apply happly).1
  obtain ⟨hcurrent, rfl⟩ | ⟨hstale, a, later, hsince, hafter, hwell, hlater⟩ :=
    exists_since hrecorded hnamed hdoc hbase
  · obtain rfl := carried_of_reconcile hcurrent.ge hreconcile
    exact ⟨[], rfl, hnamed.document _ hdoc, trivial, rfl, rfl, by simp⟩
  · rw [course, if_pos hstale, hsince] at hcourse
    refine ⟨a :: later, hafter, hwell, hlater, hcourse,
      carryOver_of_reconcile hstale hsince hreconcile, fun e he => ?_⟩
    rw [← hrevision]
    exact mem_of_mem_historyFrom (hrecorded.replays current hdoc) hsince
      ((congrArg Document.revision hafter).trans hrevision.symm) he

theorem landing_of_reconcile :
    ∃ name, patch.Landing carried.patch base current name
      (fun x => s.config.conflictPolicy = .laterWins ∨ s.Untouched base x)
      (s.Lasts base.revision current) := by
  obtain ⟨since, rfl, hwell, hreplays, hclear, hcarry, hsince⟩ :=
    exists_carryOver hrecorded hnamed hdoc hbase happly hcourse hreconcile
  obtain ⟨name, hlands⟩ := landing_of_carryOver hreplays hwell happly hclear hcarry
  refine ⟨name, hlands.mono (fun x hx => ?_) fun x hx => ⟨fun a ha => ?_, hx.2⟩⟩
  · exact hx.imp_right fun huntouched hin a ha =>
      huntouched hin a (hsince a ha).1 (hsince a ha).2
  · exact hx.1 a (hsince a ha).1 (hsince a ha).2

theorem opposed_of_reconcile {peer : PeerId}
    (hown : ∀ a ∈ s.history, base.revision ≤ a.before.revision → a.origin = origin)
    (hpeer : peer ∈ carried.losers) :
    s.config.conflictPolicy = .earlierWins ∧
      ∃ x ∈ base.blocks.map (·.id), touched patch.ops x ≠ none ∧ ¬ s.Untouched base x := by
  obtain ⟨since, rfl, hwell, hreplays, hclear, hcarry, hsince⟩ :=
    exists_carryOver hrecorded hnamed hdoc hbase happly hcourse hreconcile
  obtain hnone | ⟨hpolicy, x, hx, htouched, a, ha, hopposed⟩ := opposed_of_mem_losers hreplays
    hwell happly hclear (fun a ha => hown a (hsince a ha).1 (hsince a ha).2) hcarry hpeer
  · cases hnone
  · exact ⟨hpolicy, x, hx, htouched, fun huntouched =>
      hopposed (huntouched hx a (hsince a ha).1 (hsince a ha).2)⟩

end Outcome

/-- Whether the last thing that a patch does to a block is to give it a content, and nothing since
    its base is in the way: the later patch wins, or no patch since then has touched the block. -/
def Establishes (s : Session) (base : Document) (patch : Patch) (x : BlockId) (content : String) :
    Prop :=
  touched patch.ops x = some (.replaced content) ∧
    (s.config.conflictPolicy = .laterWins ∨ s.Untouched base x)

/-- A peer does not lose an edit to itself when its patches follow each other without waiting for
    acknowledgements. If the later patch wins, it is told of no conflict and its last content of
    each block is there, in the block or, where the peer had deleted it, under a new name. If the
    earlier one wins, it keeps from the later one what its patches since have not touched, and is
    told if there is a block that both touch. -/
theorem process_of_own_edits [RegexLibrary] (h : s.Reachable) (hdoc : s.document = some current)
    (hbase : s.documentAt? sub.patch.base = some base)
    (happly : base.apply sub.patch = .ok target) (hcourse : s.course current sub.patch = .clear)
    (hown : ∀ a ∈ s.history, base.revision ≤ a.before.revision → a.origin = sub.origin) :
    ∃ next events, ∃ name : BlockId → BlockId,
      (s.process sub).document = some next ∧ next.revision = current.revision + 1 ∧
      (s.process sub).events = s.events ++ events ∧
      (∀ id revision reason, .send sub.origin ⟨id, .superseded revision reason⟩ ∈ events →
        s.config.conflictPolicy = .earlierWins ∧ reason = .conflict ∧
          ∃ x ∈ base.blocks.map (·.id), touched sub.patch.ops x ≠ none ∧ ¬ s.Untouched base x) ∧
      (∀ x y xContent yContent, s.Establishes base sub.patch x xContent →
        s.Establishes base sub.patch y yContent → name x = name y → x = y) ∧
      ∀ x content, s.Establishes base sub.patch x content →
        (∃ b ∈ next.blocks, b.id = name x ∧ b.content = content) ∧
        (name x ∈ current.blocks.map (·.id) → name x = x ∧ x ∈ base.blocks.map (·.id)) ∧
        (s.Lasts base.revision current x → name x = x) := by
  obtain ⟨hrecorded, hnamed⟩ := h.recorded_and_wellNamed
  obtain ⟨carried, next, hreconcile⟩ :=
    (reconcile_of_course hrecorded hnamed hdoc hbase happly sub.origin).1 hcourse
  obtain ⟨name, hlands⟩ :=
    landing_of_reconcile hrecorded hnamed hdoc hbase happly hcourse hreconcile
  have hprocess := process_of_ok hdoc hreconcile
  have hnext := apply_of_reconcile hreconcile
  obtain ⟨-, blocks, ids, hops, hdocument⟩ := Document.apply_eq_ok_iff.1 hnext
  obtain ⟨-, _, _, hpatch, -⟩ := Document.apply_eq_ok_iff.1 happly
  have hcontent : ∀ {x content}, s.Establishes base sub.patch x content →
      lastContent? x sub.patch.ops = some content := fun hx => lastContent?_of_touched hpatch hx.1
  have hsome : ∀ {x content}, s.Establishes base sub.patch x content →
      (lastContent? x sub.patch.ops).isSome := fun hx => Option.isSome_of_eq_some (hcontent hx)
  refine ⟨next, s.acceptEvents sub carried next, name, by rw [hprocess],
    (revision_of_apply hnext).2, by rw [hprocess], fun id revision reason hmem => ?_,
    fun x y _ _ hx hy => hlands.inj x y hx.2 hy.2 (hsome hx) (hsome hy), fun x content hx =>
      ⟨?_, hlands.own x hx.2 (hsome hx), hlands.kept x hx.2 (hsome hx)⟩⟩
  · obtain ⟨hloser, hreason⟩ := loser_of_mem_acceptEvents hmem
    obtain ⟨hpolicy, hopposed⟩ := opposed_of_reconcile hrecorded hnamed hdoc hbase happly hcourse
      hreconcile hown hloser
    exact ⟨hpolicy, hreason, hopposed⟩
  · rw [hdocument]
    exact Document.exists_content_of_applyOps hops (hlands.content x content hx.2 (hcontent hx))

/-- Without waiting, the peer replaces a block that it has replaced before, and one that it has
    deleted. -/
theorem process_of_own_edits_pipelined :
    let p : Profile := { id := "python", lineComments := ["#"] }
    let d : Document :=
      ⟨[⟨⟨"b1"⟩, .code, "x = 1\n"⟩, ⟨⟨"b2"⟩, .doc, "# a\n"⟩], 0, p, ⟨none, 2⟩⟩
    let s := (new ⟨"s1"⟩ {}).run [.beginOpen, .finishOpen (.ok d), .subscribe ⟨"o"⟩,
      .submit ⟨"o"⟩ ⟨0, [.replace ⟨"b1"⟩ "y = 1\n"]⟩, .submit ⟨"o"⟩ ⟨0, [.delete ⟨"b2"⟩]⟩]
    let sub : Submission :=
      ⟨⟨"o"⟩, ⟨0, [.replace ⟨"b1"⟩ "z = 1\n", .replace ⟨"b2"⟩ "# b\n"]⟩, false⟩
    s.Reachable ∧ ∃ next events, (s.process sub).document = some next ∧
      (s.process sub).events = s.events ++ events ∧
      (∀ id revision reason, .send ⟨"o"⟩ ⟨id, .superseded revision reason⟩ ∉ events) ∧
      (∃ b ∈ next.blocks, b.id = ⟨"b1"⟩ ∧ b.content = "z = 1\n") ∧
      ∃ b ∈ next.blocks, b.content = "# b\n" := by
  intro p d s sub
  have hd : d.WellNamed :=
    Document.wellNamed_build p .unseeded [⟨.code, "x = 1\n", ⟨0, 6⟩⟩, ⟨.doc, "# a\n", ⟨6, 10⟩⟩]
  have hreachable : s.Reachable := .run ⟨"s1"⟩ {} (by
    simp only [List.forall_mem_cons]
    exact ⟨trivial, hd, trivial, trivial, trivial, by simp⟩)
  let current : Document := { d with blocks := [⟨⟨"b1"⟩, .code, "y = 1\n"⟩], revision := 2 }
  have hdoc : s.document = some current := by decide +kernel
  have hbase : s.documentAt? sub.patch.base = some d := by decide +kernel
  have happly : d.apply sub.patch = .ok { d with
      blocks := [⟨⟨"b1"⟩, .code, "z = 1\n"⟩, ⟨⟨"b2"⟩, .doc, "# b\n"⟩], revision := 1 } := by
    decide +kernel
  have hcourse : s.course current sub.patch = .clear := by decide +kernel
  have hown : ∀ a ∈ s.history, d.revision ≤ a.before.revision → a.origin = sub.origin := by
    decide +kernel
  have hpolicy : s.config.conflictPolicy = .laterWins := by decide +kernel
  obtain ⟨next, events, name, hnext, -, hevents, hnotice, -, hcontent⟩ :=
    process_of_own_edits hreachable hdoc hbase happly hcourse hown
  obtain ⟨⟨b, hb, hid, hy⟩, -, hkept⟩ :=
    hcontent ⟨"b1"⟩ "z = 1\n" ⟨by decide, .inl hpolicy⟩
  obtain ⟨⟨c, hc, -, hw⟩, -⟩ := hcontent ⟨"b2"⟩ "# b\n" ⟨by decide, .inl hpolicy⟩
  refine ⟨hreachable, next, events, hnext, hevents, fun id revision reason hmem => ?_,
    ⟨b, hb, hid.trans (hkept ⟨by decide +kernel, by decide⟩), hy⟩, c, hc, hw⟩
  obtain ⟨hearlier, -⟩ := hnotice id revision reason hmem
  rw [hpolicy] at hearlier
  cases hearlier

/-- If the earlier patch wins, a peer that does not wait is told of a conflict with itself, and the
    block keeps the content that the peer has given it first. -/
theorem process_of_own_edits_earlier_wins :
    let p : Profile := { id := "python", lineComments := ["#"] }
    let d : Document := ⟨[⟨⟨"b1"⟩, .code, "x = 1\n"⟩], 0, p, ⟨none, 1⟩⟩
    let s := (new ⟨"s1"⟩ { conflictPolicy := .earlierWins }).run [.beginOpen, .finishOpen (.ok d),
      .subscribe ⟨"o"⟩, .submit ⟨"o"⟩ ⟨0, [.replace ⟨"b1"⟩ "y = 1\n"]⟩]
    let sub : Submission := ⟨⟨"o"⟩, ⟨0, [.replace ⟨"b1"⟩ "z = 1\n"]⟩, false⟩
    s.Reachable ∧ s.documentAt? sub.patch.base = some d ∧
      (∃ target, d.apply sub.patch = .ok target) ∧ (∀ a ∈ s.history, a.origin = sub.origin) ∧
      (s.process sub).events.drop s.events.length =
        [.send ⟨"o"⟩ ⟨⟨"s1"⟩, .ack 2⟩, .writeFile 2 "y = 1\n",
          .send ⟨"o"⟩ ⟨⟨"s1"⟩, .superseded 2 .conflict⟩] ∧
      (s.process sub).document.map (·.text) = some "y = 1\n" := by
  intro p d s sub
  have hd : d.WellNamed :=
    Document.wellNamed_build p .unseeded [⟨.code, "x = 1\n", ⟨0, 6⟩⟩]
  have hreachable : s.Reachable := .run ⟨"s1"⟩ { conflictPolicy := .earlierWins } (by
    simp only [List.forall_mem_cons]
    exact ⟨trivial, hd, trivial, trivial, by simp⟩)
  refine ⟨hreachable, by decide +kernel, ⟨{ d with
    blocks := [⟨⟨"b1"⟩, .code, "z = 1\n"⟩], revision := 1 }, by decide +kernel⟩, ?_, ?_, ?_⟩
  all_goals decide +kernel

end LiterateSync.Session
