import LiterateSync.Proofs.Document.Restoring
import LiterateSync.Proofs.Session.Always
import LiterateSync.Proofs.Session.Rebasing
import LiterateSync.Text.Pattern.Library

namespace LiterateSync.Session

/-- The documents from a revision on, with the current one at the end. -/
def documentsSince (s : Session) (base : Nat) : List Document :=
  (historyFrom base s.history).map (·.before) ++ s.document.toList

/-- Whether a block is missing in one of some documents and there again in a later one. -/
def comesBack (x : BlockId) : List Document → Bool
  | [] => false
  | d :: docs =>
    !Block.isIn x d.blocks && docs.any (fun later => Block.isIn x later.blocks) ||
      comesBack x docs

/-- Whether a submission inserts no block, and is accepted by the document of its base if that
    is still known. -/
def Adjusts (s : Session) (sub : Submission) : Prop :=
  (∀ op ∈ sub.patch.ops, op.adjusts = true) ∧
    ∀ base ∈ s.documentAt? sub.patch.base, (base.apply sub.patch).isOk = true

/-- Whether a submission replaces the content of a block that has come back since its base. -/
def RevivesAgain (s : Session) (sub : Submission) : Prop :=
  ∃ op ∈ sub.patch.ops, op.writes op.target = true ∧
    comesBack op.target (s.documentsSince sub.patch.base) = true

instance (s : Session) (sub : Submission) : Decidable (s.Adjusts sub) :=
  inferInstanceAs (Decidable (_ ∧ _))

instance (s : Session) (sub : Submission) : Decidable (s.RevivesAgain sub) :=
  inferInstanceAs (Decidable (∃ op ∈ sub.patch.ops, _))

theorem Adjusts.exists_apply {s : Session} {sub : Submission} {base : Document}
    (h : s.Adjusts sub) (hbase : s.documentAt? sub.patch.base = some base) :
    ∃ target, base.apply sub.patch = .ok target := by
  have hok := h.2 base hbase
  cases happly : base.apply sub.patch with
  | error e => simp [happly, Except.isOk, Except.toBool] at hok
  | ok target => exact ⟨target, rfl⟩

theorem comesBack_tail {x : BlockId} {d : Document} {docs : List Document}
    (h : comesBack x (d :: docs) = false) : comesBack x docs = false := by
  rw [comesBack, Bool.or_eq_false_iff] at h
  exact h.2

/-- A block that never comes back and is missing in one document is missing in all later ones. -/
theorem not_mem_of_comesBack {x : BlockId} {d : Document} {docs : List Document}
    (h : comesBack x (d :: docs) = false) (hd : x ∉ d.blocks.map (·.id)) :
    ∀ e ∈ docs, x ∉ e.blocks.map (·.id) := by
  rw [comesBack, Bool.or_eq_false_iff, Block.isIn_eq_false_iff.2 hd, Bool.not_false,
    Bool.true_and] at h
  intro e he
  exact Block.isIn_eq_false_iff.1 (by simpa using List.any_eq_false.1 h.1 e he)

theorem documents_eq_cons (since : List Applied) (current : Document) :
    ∃ docs, since.map (·.before) ++ [current] = documentAfter since current :: docs := by
  cases since with
  | nil => exact ⟨[], rfl⟩
  | cons a since => exact ⟨since.map (·.before) ++ [current], rfl⟩

theorem target_of_writes {op : PatchOp} {x : BlockId} (h : op.writes x = true) : op.target = x := by
  cases op with
  | insert b after => simpa [PatchOp.writes, PatchOp.target] using h
  | delete id => cases h
  | replace id content => simpa [PatchOp.writes, PatchOp.target] using h
  | move id after => cases h

/-- A patch that writes no block which comes back is carried over the history as one that writes
    the same blocks. The blocks that it restores on the way stay missing in the documents that
    come after. -/
theorem writes_of_carryOver {origin : PeerId} {current target : Document} {patch : Patch}
    {losers : List PeerId} {since : List Applied} {carried : Carried}
    (hreplays : Replays since current)
    (hdistinct : Distinct since current)
    (happly : (documentAfter since current).apply patch = .ok target)
    (hstays : ∀ op ∈ patch.ops, ∀ x, op.writes x = true →
      comesBack x (since.map (·.before) ++ [current]) = false)
    (hapart : ∀ b a, .insert b a ∈ patch.ops → ∀ d ∈ since.map (·.before) ++ [current],
      b.id ∉ d.blocks.map (·.id))
    (hcarry : carryOver .laterWins origin current ⟨patch, losers⟩ since = .ok carried) :
    ∀ e ∈ carried.patch.ops, ∀ x, e.writes x = true → ∃ op ∈ patch.ops, op.writes x = true := by
  induction since generalizing patch target losers with
  | nil =>
    cases hcarry
    exact fun e he x hx => ⟨e, he, hx⟩
  | cons a since ih =>
    obtain ⟨docs, hdocs⟩ := documents_eq_cons since current
    have hafter : documentAfter since current ∈ since.map (·.before) ++ [current] := by
      rw [hdocs]
      exact List.mem_cons_self
    obtain ⟨rebased, hrebase, hrest⟩ := carryOver_cons_eq_ok hcarry
    obtain ⟨hwrites, hmissing⟩ := Patch.writes_of_rebase hdistinct.head
      hdistinct.tail.documentAfter happly hrebase fun b place hmem =>
        hapart b place hmem _ (List.mem_cons_of_mem _ hafter)
    have hstays' : ∀ e ∈ rebased.patch.ops, ∀ x, e.writes x = true →
        comesBack x (since.map (·.before) ++ [current]) = false := by
      intro e he x hx
      obtain ⟨op, hop, hwrites⟩ := hwrites e he x hx
      exact comesBack_tail (hstays op hop x hwrites)
    obtain ⟨next, hnext⟩ := Patch.exists_apply_of_rebase hrebase
    have hcarried := ih hreplays.2 hdistinct.tail hnext hstays' (fun b place hmem d hd => ?_) hrest
    · intro e he x hx
      obtain ⟨op, hop, hwritten⟩ := hcarried e he x hx
      exact hwrites op hop x hwritten
    · have hmissing := hmissing b place hmem
      have hstay := hstays' _ hmem b.id (by simp [PatchOp.writes])
      rw [hdocs] at hstay hd
      rcases List.mem_cons.1 hd with rfl | hd
      · exact hmissing
      · exact not_mem_of_comesBack hstay hmissing d hd

/-- The document at the base of a patch is known when a part of the history begins with it. -/
theorem documentAt?_of_historyFrom {s : Session} {current : Document} {base : Nat} {a : Applied}
    {later : List Applied} (hdoc : s.document = some current) (hne : current.revision ≠ base)
    (h : historyFrom base s.history = a :: later) : s.documentAt? base = some a.before := by
  have hfind : ∀ history : List Applied, historyFrom base history = a :: later →
      (history.map (·.before)).find? (fun d => d.revision = base) = some a.before := by
    intro history hfrom
    induction history with
    | nil => cases hfrom
    | cons b history ih =>
      rw [historyFrom, List.dropWhile_cons] at hfrom
      by_cases hbase : b.before.revision = base
      · simp only [hbase, ne_eq, not_true_eq_false, decide_false, Bool.false_eq_true,
          if_false] at hfrom
        cases hfrom
        simp [hbase]
      · simp only [ne_eq, hbase, not_false_eq_true, decide_true, if_true] at hfrom
        rw [List.map_cons, List.find?_cons, decide_eq_false hbase]
        exact ih hfrom
  rw [documentAt?, hdoc]
  simp only [if_neg hne]
  exact hfind s.history h

/-- What holds of a session that has made no new block since its document was opened with the
    blocks `ids`. -/
structure Original (ids : List BlockId) (s : Session) : Prop where
  laterWins : s.config.conflictPolicy = .laterWins
  documents : ∀ d ∈ s.history.map (·.before) ++ s.document.toList,
    (d.blocks.map (·.id)).Nodup ∧ ∀ x ∈ d.blocks.map (·.id), x ∈ ids
  begun : s.document.isSome ∨ s.phase = .closed

namespace Original

variable {ids : List BlockId} {s : Session}

theorem distinct (h : Original ids s) {current : Document} (hdoc : s.document = some current) :
    Distinct s.history current := by
  intro d hd
  refine (h.documents d ?_).1
  rw [hdoc]
  exact hd

/-- A patch that inserts nothing writes what is there at its base. -/
theorem mem_of_writes (h : Original ids s) {sub : Submission} {base : Document}
    (hmem : base ∈ s.history.map (·.before) ++ s.document.toList)
    (hbase : s.documentAt? sub.patch.base = some base) (hadjusts : s.Adjusts sub)
    {op : PatchOp} (hop : op ∈ sub.patch.ops) {x : BlockId} (hx : op.writes x = true) :
    x ∈ ids := by
  obtain ⟨target, haccepts⟩ := hadjusts.exists_apply hbase
  obtain ⟨-, blocks, last, hops, -⟩ := Document.apply_eq_ok_iff.1 haccepts
  obtain ⟨hnodup, hsub⟩ := h.documents base hmem
  exact hsub x (Document.mem_of_adjusts hnodup hops hadjusts.1 hop hx)

/-- The form in which it is carried writes nothing else. -/
theorem mem_of_carried_writes (h : Original ids s) (hrecorded : s.Recorded) {current next : Document}
    {sub : Submission} {carried : Carried} (hdoc : s.document = some current)
    (hreconcile : s.reconcile current sub.origin sub.patch = .ok (carried, next))
    (hadjusts : s.Adjusts sub) (hrevives : ¬ s.RevivesAgain sub) {e : PatchOp}
    (he : e ∈ carried.patch.ops) {x : BlockId} (hx : e.writes x = true) : x ∈ ids := by
  have hcarried := carryToCurrent_of_reconcile hreconcile
  rw [carryToCurrent] at hcarried
  by_cases hstale : sub.patch.base < current.revision
  · rw [if_pos hstale] at hcarried
    cases hsince : historyFrom sub.patch.base s.history with
    | nil => simp [hsince] at hcarried
    | cons a later =>
      have hsub : (a :: later).Sublist s.history := hsince ▸ historyFrom_sublist _ _
      have hknown := documentAt?_of_historyFrom hdoc (by omega) hsince
      have hmem : a.before ∈ s.history.map (·.before) ++ s.document.toList :=
        List.mem_append_left _ (List.mem_map_of_mem (hsub.subset List.mem_cons_self))
      have hreplays : Replays (a :: later) current :=
        hsince ▸ (hrecorded.replays current hdoc).historyFrom _
      have hdistinct : Distinct (a :: later) current :=
        hsince ▸ (h.distinct hdoc).historyFrom sub.patch.base
      obtain ⟨target, haccepts⟩ := hadjusts.exists_apply hknown
      have hcarry := carryOver_of_reconcile hstale hsince hreconcile
      rw [h.laterWins] at hcarry
      have hstays : ∀ op ∈ sub.patch.ops, ∀ y, op.writes y = true →
          comesBack y ((a :: later).map (·.before) ++ [current]) = false := by
        intro op hop y hy
        rw [← Bool.not_eq_true]
        intro hback
        refine hrevives ⟨op, hop, (target_of_writes hy).symm ▸ hy, ?_⟩
        rw [target_of_writes hy, documentsSince, hsince, hdoc]
        exact hback
      obtain ⟨op, hop, hwrites⟩ := writes_of_carryOver hreplays hdistinct haccepts hstays
        (fun b place hb => by simpa [PatchOp.adjusts] using hadjusts.1 _ hb) hcarry e he x hx
      exact h.mem_of_writes hmem hknown hadjusts hop hwrites
  · rw [if_neg hstale] at hcarried
    cases hcarried
    have hrevision := (revision_of_apply (apply_of_reconcile hreconcile)).1
    have hcurrent : current ∈ s.history.map (·.before) ++ s.document.toList := by simp [hdoc]
    refine h.mem_of_writes hcurrent ?_ hadjusts he hx
    rw [documentAt?, hdoc]
    exact if_pos hrevision.symm

theorem process (h : Original ids s) (hrecorded : s.Recorded) {sub : Submission}
    (hadjusts : s.Adjusts sub) (hrevives : ¬ s.RevivesAgain sub) :
    Original ids (s.process sub) := by
  cases hdoc : s.document with
  | none =>
    rw [process_of_document_none hdoc]
    exact h
  | some current =>
    have hcurrent : current ∈ s.history.map (·.before) ++ s.document.toList := by simp [hdoc]
    cases hreconcile : s.reconcile current sub.origin sub.patch with
    | error e =>
      rw [process_of_error hdoc hreconcile, reject_eq]
      exact ⟨h.laterWins, h.documents, h.begun⟩
    | ok result =>
      obtain ⟨carried, next⟩ := result
      rw [process_of_ok hdoc hreconcile]
      refine ⟨h.laterWins, fun d hd => ?_, by simp⟩
      rcases List.mem_append.1 hd with hd | hd
      · obtain ⟨a, ha, rfl⟩ := List.mem_map.1 hd
        rcases List.mem_append.1 (List.mem_of_mem_drop ha) with ha | ha
        · exact h.documents _ (List.mem_append_left _ (List.mem_map_of_mem ha))
        · rw [List.mem_singleton] at ha
          rw [ha]
          exact h.documents current hcurrent
      · obtain rfl : d = next := by simpa using hd
        obtain ⟨hnodup, hsub⟩ := h.documents current hcurrent
        obtain ⟨-, blocks, last, hops, rfl⟩ :=
          Document.apply_eq_ok_iff.1 (apply_of_reconcile hreconcile)
        refine ⟨Document.nodup_of_applyOps hnodup hops, fun x hx => ?_⟩
        obtain hold | ⟨e, he, hwrites⟩ := Document.mem_or_writes_of_applyOps hnodup hops hx
        · exact hsub x hold
        · exact h.mem_of_carried_writes hrecorded hdoc hreconcile hadjusts hrevives he hwrites

theorem preserves (ids : List BlockId) :
    Preserves (fun s sub => s.Adjusts sub ∧ ¬ s.RevivesAgain sub) (Original ids) := by
  refine .of_congr (fun hrecorded h hsub => h.process hrecorded hsub.1 hsub.2)
    (fun hconfig hdocument hhistory hphase h => ⟨hconfig ▸ h.laterWins, ?_, ?_⟩)
    (fun _ hnone hopen h => absurd h.begun (by simp [hnone, hopen]))
    (fun _ hnone _ hopen _ _ _ h => absurd h.begun (by simp [hnone, hopen]))
    fun h => ⟨h.laterWins, by simp [Session.close], .inr rfl⟩
  · rw [hdocument, hhistory]
    exact h.documents
  · obtain hsome | hsame := hphase
    · exact .inl hsome
    · rw [hdocument, hsame]
      exact h.begun

end Original

/-- As long as no patch inserts a block, and none replaces the content of a block that has come
    back since the base of the patch, the blocks of each revision are blocks of the document that
    was opened. A block that is brought back keeps its name. -/
theorem ids_subset_of_opened [RegexLibrary] (id : SessionId) (config : SyncConfig)
    (earlier : List Command) (opening : Command) {d : Document}
    (hpolicy : config.conflictPolicy = .laterWins)
    (hnone : ((new id config).run earlier).document = none)
    (hopened : (((new id config).run earlier).step opening).1.document = some d)
    (hnodup : (d.blocks.map (·.id)).Nodup) {commands : List Command}
    (hsubmitted : Always (fun s sub => s.Adjusts sub ∧ ¬ s.RevivesAgain sub)
      (((new id config).run earlier).step opening).1 commands) :
    Always (fun s sub => ∀ e ∈ (s.process sub).document,
        ∀ x ∈ e.blocks.map (·.id), x ∈ d.blocks.map (·.id))
      (((new id config).run earlier).step opening).1 commands ∧
    ∀ e ∈ ((((new id config).run earlier).step opening).1.run commands).document,
      ∀ x ∈ e.blocks.map (·.id), x ∈ d.blocks.map (·.id) := by
  have hconsistent := (consistent_new id config).run earlier
  have hstart : Original (d.blocks.map (·.id)) (((new id config).run earlier).step opening).1 := by
    refine ⟨?_, fun e he => ?_, .inl (by simp [hopened])⟩
    · have hconfig := config_run id config (earlier ++ [opening])
      rw [run, List.foldl_append] at hconfig
      exact (congrArg SyncConfig.conflictPolicy hconfig).trans hpolicy
    · rw [history_of_opened hconsistent hnone opening, hopened] at he
      obtain rfl : e = d := by simpa using he
      exact ⟨hnodup, fun x hx => hx⟩
  have hopen := hconsistent.step opening
  refine ⟨(Original.preserves _).always (fun hrecorded h hsub e he => ?_) hopen hstart hsubmitted,
    fun e he => ?_⟩
  · exact ((h.process hrecorded hsub.1 hsub.2).documents e (by simp [Option.mem_def.1 he])).2
  · have hend := (Original.preserves _).run hopen hstart hsubmitted
    exact (hend.documents e (by simp [Option.mem_def.1 he])).2

/-- A deleted block is brought back by a patch that does not know of the deletion, and stays what
    it is when others move it, change it and wait behind an acknowledgement. -/
theorem ids_subset_of_opened_restored :
    let p : Profile := { id := "sh", lineComments := ["#"] }
    let d : Document := ⟨[⟨⟨"b1"⟩, .doc, "# a\n"⟩, ⟨⟨"b2"⟩, .code, "x\n"⟩,
      ⟨⟨"b3"⟩, .doc, "# c\n"⟩], 0, p, ⟨none, 3⟩⟩
    let s := ((new ⟨"s1"⟩ {}).run [.beginOpen]).step (.finishOpen (.ok d))
    let commands : List Command := [
      .submit ⟨"u"⟩ ⟨0, [.delete ⟨"b1"⟩]⟩,
      .submit ⟨"v"⟩ ⟨0, [.replace ⟨"b1"⟩ "# v\n", .delete ⟨"b3"⟩]⟩,
      .localEdit 0 ⟨2, [.replace ⟨"b2"⟩ "y\n"]⟩,
      .submit ⟨"w"⟩ ⟨0, [.move ⟨"b2"⟩ none, .replace ⟨"b3"⟩ "# w\n"]⟩,
      .submit ⟨"u"⟩ ⟨2, [.replace ⟨"b1"⟩ "# u\n", .delete ⟨"b2"⟩]⟩, .ack .fileSystem 3]
    Always (fun s sub => s.Adjusts sub ∧ ¬ s.RevivesAgain sub) s.1 commands ∧
      (s.1.run commands).revision? = some 5 ∧
      ∀ e ∈ (s.1.run commands).document, ∀ x ∈ e.blocks.map (·.id), x ∈ d.blocks.map (·.id) := by
  intro p d s commands
  have hsubmitted : Always (fun s sub => s.Adjusts sub ∧ ¬ s.RevivesAgain sub) s.1 commands := by
    decide +kernel
  obtain ⟨-, hend⟩ := ids_subset_of_opened ⟨"s1"⟩ {} [.beginOpen] (.finishOpen (.ok d)) rfl rfl rfl
    (by decide) hsubmitted
  exact ⟨hsubmitted, by decide +kernel, hend⟩

/-- The third peer does not know that the block was deleted and has come back: its replacement is
    carried over the deletion as an insertion, which then makes a second block. -/
example :
    let p : Profile := { id := "sh", lineComments := ["#"] }
    let d : Document := ⟨[⟨⟨"b1"⟩, .doc, "# a\n"⟩, ⟨⟨"b2"⟩, .code, "x\n"⟩], 0, p, ⟨none, 2⟩⟩
    let s := (new ⟨"s1"⟩ {}).run [.beginOpen, .finishOpen (.ok d),
      .submit ⟨"u"⟩ ⟨0, [.delete ⟨"b1"⟩]⟩, .submit ⟨"v"⟩ ⟨0, [.replace ⟨"b1"⟩ "# v\n"]⟩]
    s.RevivesAgain ⟨⟨"w"⟩, ⟨0, [.replace ⟨"b1"⟩ "# w\n"]⟩, false⟩ ∧
      (s.step (.submit ⟨"w"⟩ ⟨0, [.replace ⟨"b1"⟩ "# w\n"]⟩)).1.document.map (·.blocks) =
        some [⟨⟨"b3"⟩, .doc, "# w\n"⟩, ⟨⟨"b1"⟩, .doc, "# v\n"⟩, ⟨⟨"b2"⟩, .code, "x\n"⟩] := by
  decide +kernel

end LiterateSync.Session
