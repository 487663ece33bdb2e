import LiterateSync.Proofs.Document.Taking
import LiterateSync.Proofs.Session.Rebasing
import LiterateSync.Text.Pattern.Library

namespace LiterateSync.Session

variable {origin : PeerId} {current target : Document} {patch : Patch} {losers : List PeerId}
  {a : Applied} {since front back : List Applied} {carried : Carried} {b : Block}

theorem mem_addLoser {peer : PeerId} (h : peer ∈ losers) (other : Option PeerId) :
    peer ∈ addLoser losers other := by
  cases other with
  | none => exact h
  | some other =>
    rw [addLoser]
    split
    · exact h
    · exact List.mem_append_left _ h

theorem mem_addLoser_self (losers : List PeerId) (peer : PeerId) :
    peer ∈ addLoser losers (some peer) := by
  rw [addLoser]
  split
  · rename_i hlisted
    simpa using hlisted
  · exact List.mem_append_right _ List.mem_cons_self

/-- A peer that has lost once is among the losers in the end. -/
theorem mem_losers_of_carryOver {policy : ConflictPolicy} {peer : PeerId}
    (hcarry : carryOver policy origin current ⟨patch, losers⟩ since = .ok carried)
    (h : peer ∈ losers) : peer ∈ carried.losers := by
  induction since generalizing patch losers with
  | nil =>
    cases hcarry
    exact h
  | cons a since ih =>
    obtain ⟨rebased, -, hrest⟩ := carryOver_cons_eq_ok hcarry
    refine ih hrest ?_
    split
    · exact h
    · exact mem_addLoser h _

/-- A block that no patch of a history has written was there before the first of them. -/
theorem mem_documentAfter (hreplays : Replays since current) (hb : b ∈ current.blocks)
    (hwrites : ∀ e ∈ since, ∀ op ∈ e.patch.ops, op.writes b.id = false) :
    b ∈ (documentAfter since current).blocks := by
  induction since with
  | nil => exact hb
  | cons a since ih =>
    have hafter := ih hreplays.2 fun e he => hwrites e (List.mem_cons_of_mem a he)
    obtain ⟨-, blocks, ids, hops, hdocument⟩ := Document.apply_eq_ok_iff.1 hreplays.1
    rw [hdocument] at hafter
    exact Document.mem_of_not_writes hops hafter (hwrites a List.mem_cons_self)

/-- Behind the patch that has last written a block, a patch takes the block in its carried form
    only if it does so in its own. -/
theorem takes_of_carryOver (hreplays : Replays since current) (hdistinct : Distinct since current)
    (hb : b ∈ current.blocks)
    (hwrites : ∀ e ∈ since, ∀ op ∈ e.patch.ops, op.writes b.id = false)
    (hcarry : carryOver .laterWins origin current ⟨patch, losers⟩ since = .ok carried)
    (htakes : takes b.id b.content carried.patch.ops = true) :
    takes b.id b.content patch.ops = true := by
  induction since generalizing patch losers with
  | nil =>
    cases hcarry
    exact htakes
  | cons a since ih =>
    have hlater : ∀ e ∈ since, ∀ op ∈ e.patch.ops, op.writes b.id = false :=
      fun e he => hwrites e (List.mem_cons_of_mem a he)
    obtain ⟨rebased, hrebase, hrest⟩ := carryOver_cons_eq_ok hcarry
    have hin := List.mem_map_of_mem (f := (·.id)) (mem_documentAfter hreplays.2 hb hlater)
    exact Patch.takes_of_rebase b.content hdistinct.tail.documentAfter hin hrebase
      (ih hreplays.2 hdistinct.tail hlater hrest)

/-- The patch that has last written a block, unless it has deleted the block and put it back, is in
    conflict with a later one that takes the block. -/
theorem mem_conflicts_of_takes {rebased : Rebased} (hbefore : (a.before.blocks.map (·.id)).Nodup)
    (hafter : ((documentAfter back current).blocks.map (·.id)).Nodup)
    (happlied : a.before.apply a.patch = .ok (documentAfter back current))
    (happly : a.before.apply patch = .ok target) (hb : b ∈ (documentAfter back current).blocks)
    (hwrites : ∃ op ∈ a.patch.ops, op.writes b.id = true)
    (hputBack : Rebase.touched a.patch.ops b.id ≠ some .deleted)
    (hrebase : patch.rebase a.patch a.before (documentAfter back current) .laterWins = .ok rebased)
    (htakes : takes b.id b.content rebased.patch.ops = true) : b.id ∈ rebased.conflicts := by
  obtain ⟨-, blocks, ids, hops, hdocument⟩ := Document.apply_eq_ok_iff.1 happlied
  cases htouched : Rebase.touched a.patch.ops b.id with
  | none =>
    -- the block was new then, so that the later patch cannot have known it
    obtain ⟨op, hop, hwritten⟩ := hwrites
    have hnew : b.id ∉ a.before.blocks.map (·.id) := by
      intro hin
      rw [Rebase.writes_of_touched_none hbefore hops htouched hin op hop] at hwritten
      cases hwritten
    obtain ⟨-, blocks', ids', hops', -⟩ := Document.apply_eq_ok_iff.1 happly
    have hnever := Document.takes_of_not_mem b.content hbefore hops' hnew
    have htaken := Patch.takes_of_rebase b.content hafter (List.mem_map_of_mem hb) hrebase htakes
    rw [hnever] at htaken
    cases htaken
  | some touch =>
    cases touch with
    | deleted => exact absurd htouched hputBack
    | replaced content =>
      rw [hdocument] at hb
      have hcontent := Rebase.content_of_touched hbefore hops hb htouched
      exact Patch.mem_conflicts_of_takes (hcontent ▸ htouched) hrebase htakes

/-- The peer that has last written a block is among the losers when a later patch of another peer
    takes the block. -/
theorem mem_losers_of_takes (hreplays : Replays (front ++ a :: back) current)
    (hdistinct : Distinct (front ++ a :: back) current)
    (happly : (documentAfter (front ++ a :: back) current).apply patch = .ok target)
    (hb : b ∈ current.blocks) (hwrites : ∃ op ∈ a.patch.ops, op.writes b.id = true)
    (hlast : ∀ e ∈ back, ∀ op ∈ e.patch.ops, op.writes b.id = false)
    (hputBack : Rebase.touched a.patch.ops b.id ≠ some .deleted) (horigin : a.origin ≠ origin)
    (hcarry : carryOver .laterWins origin current ⟨patch, losers⟩ (front ++ a :: back) =
      .ok carried)
    (htakes : takes b.id b.content carried.patch.ops = true) : a.origin ∈ carried.losers := by
  induction front generalizing patch losers target with
  | cons e front ih =>
    obtain ⟨rebased, hrebase, hrest⟩ := carryOver_cons_eq_ok hcarry
    obtain ⟨next, hnext⟩ := Patch.exists_apply_of_rebase hrebase
    exact ih hreplays.2 hdistinct.tail hnext hrest
  | nil =>
    obtain ⟨rebased, hrebase, hrest⟩ := carryOver_cons_eq_ok hcarry
    have hafter := mem_documentAfter hreplays.2 hb hlast
    have hconflict := mem_conflicts_of_takes hdistinct.head hdistinct.tail.documentAfter hreplays.1
      happly hafter hwrites hputBack hrebase
      (takes_of_carryOver hreplays.2 hdistinct.tail hb hlast hrest htakes)
    refine mem_losers_of_carryOver hrest ?_
    have hsome : rebased.conflicts.isEmpty = false :=
      List.isEmpty_eq_false_iff_exists_mem.2 ⟨b.id, hconflict⟩
    rw [if_neg (by simp [hsome]), loser?, if_neg horigin]
    exact mem_addLoser_self losers a.origin

/-- The history from the base of a patch on reaches back to each patch that was applied since. -/
theorem exists_front_of_historyFrom {history : List Applied} {base : Nat} {first : Applied}
    {later : List Applied} (hreplays : Replays history current)
    (hhistory : history = front ++ a :: back) (hsince : base ≤ a.before.revision)
    (hfrom : historyFrom base history = first :: later) (hfirst : first.before.revision = base) :
    ∃ known, first :: later = known ++ a :: back := by
  have hpairwise := hreplays.pairwise_revision
  rw [hhistory] at hpairwise hfrom
  rw [historyFrom, List.dropWhile_append] at hfrom
  split at hfrom
  · rw [List.dropWhile_cons] at hfrom
    split at hfrom
    · -- the base would come behind the patch
      have hmem : first ∈ back := by
        refine (List.dropWhile_sublist fun e => decide (e.before.revision ≠ base)).subset ?_
        rw [hfrom]
        exact List.mem_cons_self
      have hlt := (List.pairwise_cons.1 (List.pairwise_append.1 hpairwise).2.1).1 first hmem
      omega
    · exact ⟨[], hfrom.symm⟩
  · exact ⟨_, hfrom.symm⟩

theorem send_mem_acceptEvents {s : Session} {sub : Submission} {next : Document} {peer : PeerId}
    (hloser : peer ∈ carried.losers) (hsubscribed : peer ∈ s.subscribers) :
    .send peer ⟨s.id, .superseded next.revision .conflict⟩ ∈ s.acceptEvents sub carried next := by
  have hsent : .send peer ⟨s.id, .superseded next.revision .conflict⟩ ∈
      carried.losers.flatMap fun peer =>
        s.addressed peer (.superseded next.revision .conflict) :=
    List.mem_flatMap.2 ⟨peer, hloser, by simp [addressed, hsubscribed]⟩
  rw [acceptEvents]
  exact List.mem_append_left _ (List.mem_append_right _ hsent)

/-- A peer is told when a patch of another peer takes a block that it has written last, with a
    patch that was applied since the base of the other one. A patch of it that has deleted the
    block and put it back counts as a deletion only, and no one is told that its content is gone. -/
theorem superseded_of_overwritten [RegexLibrary] {s : Session} {sub : Submission}
    {base next : Document} (h : s.Reachable) (hpolicy : s.config.conflictPolicy = .laterWins)
    (hdoc : s.document = some current) (hbase : s.documentAt? sub.patch.base = some base)
    (happly : base.apply sub.patch = .ok target)
    (hcommit : s.reconcile current sub.origin sub.patch = .ok (carried, next))
    (hhistory : s.history = front ++ a :: back) (hsince : sub.patch.base ≤ a.before.revision)
    (hb : b ∈ current.blocks) (hwrites : ∃ op ∈ a.patch.ops, op.writes b.id = true)
    (hlast : ∀ e ∈ back, ∀ op ∈ e.patch.ops, op.writes b.id = false)
    (horigin : a.origin ≠ sub.origin) (hsubscribed : a.origin ∈ s.subscribers)
    (hoverwritten : ∀ c ∈ next.blocks, c.id = b.id → c.content ≠ b.content)
    (hputBack : Rebase.touched a.patch.ops b.id ≠ some .deleted) :
    ∃ events, (s.process sub).events = s.events ++ events ∧
      .send a.origin ⟨s.id, .superseded next.revision .conflict⟩ ∈ events := by
  obtain ⟨hrecorded, hnamed⟩ := h.recorded_and_wellNamed
  have hreplays : Replays s.history current := hrecorded.replays current hdoc
  have hdistinct : Distinct s.history current := by
    intro d hd
    rcases List.mem_append.1 hd with hd | hd
    · obtain ⟨e, he, rfl⟩ := List.mem_map.1 hd
      exact (hnamed.history e he).nodup
    · rw [List.mem_singleton] at hd
      exact hd ▸ (hnamed.document current hdoc).nodup
  have hnext := apply_of_reconcile hcommit
  have htakes : takes b.id b.content carried.patch.ops = true := by
    by_contra hnot
    obtain ⟨-, blocks, ids, hops, hdocument⟩ := Document.apply_eq_ok_iff.1 hnext
    have hleft := Document.mem_of_takes (hnamed.document current hdoc).nodup hops hb
      (by simpa using hnot)
    rw [hdocument] at hoverwritten
    exact hoverwritten b hleft rfl rfl
  have hbefore : a.before.revision < current.revision := hreplays.revision_lt (by simp [hhistory])
  obtain ⟨hcurrent, -⟩ | ⟨hstale, first, later, hfrom, hafter, -, hlater⟩ :=
    exists_since hrecorded hnamed hdoc hbase
  · omega
  · have hfirst : first.before.revision = sub.patch.base := by
      rw [show first.before = base from hafter]
      exact (revision_of_apply happly).1.symm
    obtain ⟨known, hparts⟩ :=
      exists_front_of_historyFrom hreplays hhistory hsince hfrom hfirst
    have hcarry := carryOver_of_reconcile hstale hfrom hcommit
    have hknown := hdistinct.historyFrom sub.patch.base
    rw [hpolicy, hparts] at hcarry
    rw [hfrom, hparts] at hknown
    rw [hparts] at hlater hafter
    rw [← hafter] at happly
    have hloser := mem_losers_of_takes hlater hknown happly hb hwrites hlast hputBack horigin
      hcarry htakes
    exact ⟨_, congrArg Session.events (process_of_ok hdoc hcommit),
      send_mem_acceptEvents hloser hsubscribed⟩

/-- The peer has put the block back and written it once more, and another patch has come between
    when the block is overwritten. -/
theorem superseded_of_overwritten_rewritten :
    let p : Profile := { id := "python", lineComments := ["#"] }
    let d : Document :=
      ⟨[⟨⟨"b1"⟩, .code, "x = 1\n"⟩, ⟨⟨"b2"⟩, .doc, "# a\n"⟩], 0, p, ⟨none, 2⟩⟩
    let rewriting : Patch := ⟨0, [.delete ⟨"b1"⟩, .insert ⟨⟨"b1"⟩, .code, "y\n"⟩ none,
      .replace ⟨"b1"⟩ "y = 1\n"]⟩
    let s := (new ⟨"s1"⟩ {}).run [.beginOpen, .finishOpen (.ok d), .subscribe ⟨"q"⟩,
      .submit ⟨"q"⟩ rewriting, .submit ⟨"r"⟩ ⟨1, [.replace ⟨"b2"⟩ "# r\n"]⟩]
    let sub : Submission := ⟨⟨"o"⟩, ⟨0, [.replace ⟨"b1"⟩ "z = 1\n"]⟩, false⟩
    s.Reachable ∧ ∃ events, (s.process sub).events = s.events ++ events ∧
      .send ⟨"q"⟩ ⟨s.id, .superseded 3 .conflict⟩ ∈ events := by
  intro p d rewriting s sub
  have hd : d.WellNamed :=
    Document.wellNamed_build p .unseeded [⟨.code, "x = 1\n", ⟨0, 6⟩⟩, ⟨.doc, "# a\n", ⟨6, 10⟩⟩]
  have hreachable : s.Reachable := .run ⟨"s1"⟩ {} (by
    simp only [List.forall_mem_cons]
    exact ⟨trivial, hd, trivial, trivial, trivial, by simp⟩)
  let written : Document := { d with
    blocks := [⟨⟨"b1"⟩, .code, "y = 1\n"⟩, ⟨⟨"b2"⟩, .doc, "# a\n"⟩], revision := 1 }
  let current : Document := { d with
    blocks := [⟨⟨"b1"⟩, .code, "y = 1\n"⟩, ⟨⟨"b2"⟩, .doc, "# r\n"⟩], revision := 2 }
  let next : Document := { d with
    blocks := [⟨⟨"b1"⟩, .code, "z = 1\n"⟩, ⟨⟨"b2"⟩, .doc, "# r\n"⟩], revision := 3 }
  let target : Document := { d with
    blocks := [⟨⟨"b1"⟩, .code, "z = 1\n"⟩, ⟨⟨"b2"⟩, .doc, "# a\n"⟩], revision := 1 }
  have hdoc : s.document = some current := by decide +kernel
  have hbase : s.documentAt? sub.patch.base = some d := by decide +kernel
  have happly : d.apply sub.patch = .ok target := by decide +kernel
  have hcommit : s.reconcile current sub.origin sub.patch =
      .ok (⟨⟨2, [.replace ⟨"b1"⟩ "z = 1\n"]⟩, [⟨"q"⟩]⟩, next) := by
    decide +kernel
  have hhistory : s.history = [] ++ ⟨⟨"q"⟩, d, rewriting⟩ ::
      [⟨⟨"r"⟩, written, ⟨1, [.replace ⟨"b2"⟩ "# r\n"]⟩⟩] := by
    decide +kernel
  have hb : (⟨⟨"b1"⟩, .code, "y = 1\n"⟩ : Block) ∈ current.blocks := List.mem_cons_self
  have hpolicy : s.config.conflictPolicy = .laterWins := by decide +kernel
  have hsubscribed : (⟨"q"⟩ : PeerId) ∈ s.subscribers := by decide +kernel
  exact ⟨hreachable, superseded_of_overwritten hreachable hpolicy hdoc hbase happly hcommit
    hhistory (by decide) hb (by decide) (by decide) (by decide) hsubscribed (by decide)
    (by decide)⟩

/-- Without the second writing, nothing tells the peer that its block is overwritten. -/
example :
    let p : Profile := { id := "python", lineComments := ["#"] }
    let d : Document := ⟨[⟨⟨"b1"⟩, .code, "x = 1\n"⟩], 0, p, ⟨none, 1⟩⟩
    let s := (new ⟨"s1"⟩ {}).run [.beginOpen, .finishOpen (.ok d), .subscribe ⟨"q"⟩,
      .submit ⟨"q"⟩ ⟨0, [.delete ⟨"b1"⟩, .insert ⟨⟨"b1"⟩, .code, "y = 1\n"⟩ none]⟩]
    let t := s.process ⟨⟨"o"⟩, ⟨0, [.replace ⟨"b1"⟩ "z = 1\n"]⟩, false⟩
    t.events.drop s.events.length =
      [.send ⟨"q"⟩ ⟨⟨"s1"⟩, .patch ⟨1, [.replace ⟨"b1"⟩ "z = 1\n"]⟩⟩, .writeFile 2 "z = 1\n"] := by
  decide +kernel

end LiterateSync.Session
