import LiterateSync.Proofs.Document.Cut
import LiterateSync.Proofs.Session.Always
import LiterateSync.Proofs.Session.Rebasing
import LiterateSync.Text.Pattern.Library

namespace LiterateSync.Session

variable {s t : Session} {d : Document} {text : String} {sub : Submission}

/-- Whether a patch starts from the current document and leads to one that has the blocks which its
    text is cut into. -/
def Recuts [RegexLibrary] (s : Session) (sub : Submission) : Prop :=
  ∀ d ∈ s.document, sub.patch.base = d.revision ∧
    ∀ next ∈ (d.apply sub.patch).toOption, next.IsCut ∧ next.AvoidsFile

instance [RegexLibrary] (s : Session) (sub : Submission) : Decidable (s.Recuts sub) :=
  inferInstanceAs (Decidable (∀ d ∈ s.document, _))

theorem toOption_eq_some_iff {ε α : Type} {x : Except ε α} {a : α} :
    x.toOption = some a ↔ x = .ok a := by
  cases x <;> simp [Except.toOption]

/-- What holds of a session whose document has had the blocks that its text is cut into, and has
    got patches to such documents only since then. -/
structure Cut [RegexLibrary] (s : Session) : Prop where
  document : ∀ d ∈ s.document, d.IsCut ∧ d.AvoidsFile
  begun : s.document.isSome ∨ s.phase = .closed

namespace Cut

variable [RegexLibrary]

theorem process (h : s.Cut) (hrecuts : s.Recuts sub) : (s.process sub).Cut := by
  cases hdoc : s.document with
  | none =>
    rw [process_of_document_none hdoc]
    exact h
  | some current =>
    cases hreconcile : s.reconcile current sub.origin sub.patch with
    | error e =>
      rw [process_of_error hdoc hreconcile, reject_eq]
      exact ⟨h.document, h.begun⟩
    | ok result =>
      obtain ⟨carried, next⟩ := result
      obtain ⟨hbase, hnext⟩ := hrecuts current hdoc
      obtain rfl := carried_of_reconcile hbase.ge hreconcile
      have happly := apply_of_reconcile hreconcile
      rw [process_of_ok hdoc hreconcile]
      refine ⟨fun d hd => ?_, by simp⟩
      cases hd
      exact hnext next (toOption_eq_some_iff.2 happly)

theorem preserves : Preserves Recuts Cut := by
  refine .of_congr (fun _ h hrecuts => h.process hrecuts)
    (fun _ hdocument _ hphase h => ⟨hdocument ▸ h.document, ?_⟩)
    (fun _ hnone hopen h => absurd h.begun (by simp [hnone, hopen]))
    (fun _ hnone _ hopen _ _ _ h => absurd h.begun (by simp [hnone, hopen]))
    fun _ => ⟨by simp [Session.close], .inr rfl⟩
  obtain hsome | hsame := hphase
  · exact .inl hsome
  · rw [hdocument, hsame]
    exact h.begun

end Cut

/-- A text that is written late, when the document has gone on, is passed over. -/
theorem fileChanged_of_text_ne [RegexLibrary] (hconsistent : s.Consistent)
    (hdoc : s.document = some d) (hmem : text ∈ s.recentWrites) (hne : d.text ≠ text) :
    s.fileChanged text = .ok s := by
  rw [fileChanged, hconsistent.openDocument hdoc]
  exact if_pos (by simp [hmem, hne])

/-- The text of the document is passed over where it is cut into the blocks of the document. -/
theorem fileChanged_of_isCut [RegexLibrary] (hconsistent : s.Consistent) (hnamed : s.WellNamed)
    (hdoc : s.document = some d) (hroom : d.ids.count + d.text.length < 2 ^ 64)
    (havoids : d.AvoidsFile) (hcut : d.IsCut) : s.fileChanged d.text = .ok s := by
  obtain ⟨candidate, hcandidate, -⟩ := (Document.isCut_iff (.seeded "fs")).1 hcut
  have hlength := Document.length_le_of_openWith hcandidate
  have hnil := (Document.diff_ops_eq_nil_iff (hnamed.document d hdoc) havoids hcandidate
    (by omega)).2 hcut
  rw [fileChanged, hconsistent.openDocument hdoc]
  simp [bind, Except.bind, hcandidate, hnil]

/-- And it is taken for a change where it is not. -/
theorem isCut_of_fileChanged [RegexLibrary] (hconsistent : s.Consistent) (hnamed : s.WellNamed)
    (hdoc : s.document = some d) (hroom : d.ids.count + d.text.length < 2 ^ 64)
    (havoids : d.AvoidsFile) (h : s.fileChanged d.text = .ok t)
    (hdocument : t.document = s.document) (hqueue : t.queue = s.queue) : d.IsCut := by
  obtain ⟨d', hopen, ⟨-, -, hne⟩ | ⟨candidate, hcandidate, hcase⟩⟩ := fileChanged_eq_ok h
  · cases hdoc.symm.trans (openDocument_eq_ok_iff.1 hopen).1
    exact absurd rfl hne
  · cases hdoc.symm.trans (openDocument_eq_ok_iff.1 hopen).1
    have hlength := Document.length_le_of_openWith hcandidate
    have hwell := hnamed.document d hdoc
    have hroom' : d.ids.count + candidate.blocks.length < 2 ^ 64 := by omega
    obtain ⟨-, hnil⟩ | hsubmit := hcase
    · exact (Document.diff_ops_eq_nil_iff hwell havoids hcandidate hroom').1 hnil
    · obtain ⟨e, he, ⟨hwaits, rfl⟩ | ⟨hpending, rfl⟩⟩ := enqueue_eq_ok hsubmit
      · simp at hqueue
      · obtain ⟨next, hreconcile, -⟩ := reconcile_diff hwell hroom' s .fileSystem
        rw [drain_of_queue_nil (hconsistent.queue_nil hpending) hpending (by simp [hdoc]),
          process_of_ok hdoc hreconcile, hdoc] at hdocument
        have hrevision := (revision_of_apply (apply_of_reconcile hreconcile)).2
        rw [Option.some.inj hdocument] at hrevision
        omega

/-- The patches from the file and from views of the current revision lead to blocks that a text is
    cut into. -/
theorem recuts_diff [RegexLibrary] (hnamed : s.WellNamed) (hdoc : s.document = some d)
    (havoids : d.AvoidsFile) {candidate : Document} {ids : IdSource}
    (hcandidate : Document.openWith d.profile ids text = .ok candidate)
    (hroom : d.ids.count + text.length < 2 ^ 64) (origin : PeerId) (resync : Bool) :
    s.Recuts ⟨origin, d.diff candidate, resync⟩ := by
  intro d' hd'
  cases hdoc.symm.trans hd'
  have hlength := Document.length_le_of_openWith hcandidate
  exact ⟨rfl, fun next hnext => Document.isCut_of_apply_diff (hnamed.document d hdoc) havoids
    hcandidate (by omega) (toOption_eq_some_iff.1 hnext)⟩

theorem recuts_of_fileChanged [RegexLibrary] (hnamed : s.WellNamed) (hdoc : s.document = some d)
    (havoids : d.AvoidsFile) (hroom : d.ids.count + text.length < 2 ^ 64)
    (h : s.arrival? (.fileChanged text) = some sub) : s.Recuts sub := by
  simp only [arrival?, hdoc, Option.bind_eq_bind, Option.bind_some] at h
  split at h
  · cases h
  · obtain ⟨candidate, hcandidate, h⟩ := Option.bind_eq_some_iff.1 h
    split at h
    · cases h
    · cases h
      exact recuts_diff hnamed hdoc havoids (toOption_eq_some_iff.1 hcandidate) hroom _ _

theorem recuts_of_viewEdit [RegexLibrary] (hnamed : s.WellNamed) (hdoc : s.document = some d)
    (havoids : d.AvoidsFile) {origin : PeerId} {view : List ViewBlock}
    (hroom : d.ids.count + (d.viewText view).length < 2 ^ 64)
    (h : s.arrival? (.viewEdit origin d.revision view) = some sub) : s.Recuts sub := by
  have hshown : s.documentAt? d.revision = some d := by
    rw [documentAt?, hdoc]
    exact if_pos rfl
  simp only [arrival?, hshown, Option.bind_eq_bind, Option.bind_some] at h
  obtain ⟨candidate, hcandidate, h⟩ := Option.bind_eq_some_iff.1 h
  obtain ⟨opened, hopened, rfl⟩ := Document.ofView_eq_ok_iff.1 (toOption_eq_some_iff.1 hcandidate)
  split at h
  · cases h
  · cases h
    exact recuts_diff hnamed hdoc havoids hopened hroom _ _

/-- A text that the session has written is passed over when the document has gone on since. The
    text of the document is passed over exactly where it is cut into the blocks that the document
    has. A document that is opened has these blocks (`Document.isCut_of_ofText`) and keeps to them
    as long as all patches do, as those from the file and from views of the current revision do. -/
theorem fileChanged_of_own_write [RegexLibrary] (id : SessionId) (config : SyncConfig)
    {commands : List Command} (hcommands : ∀ c ∈ commands, c.Admissible)
    (hdoc : ((new id config).run commands).document = some d) :
    let s := (new id config).run commands
    (∀ w ∈ s.recentWrites, d.text ≠ w → s.fileChanged w = .ok s) ∧
    (d.AvoidsFile → d.ids.count + d.text.length < 2 ^ 64 →
      (d.IsCut → s.fileChanged d.text = .ok s) ∧
      ∀ t, s.fileChanged d.text = .ok t → t.document = s.document → t.queue = s.queue →
        d.IsCut) ∧
    (∀ front back first, commands = front ++ back →
      ((new id config).run front).document = some first → first.IsCut → first.AvoidsFile →
      Always Recuts ((new id config).run front) back → d.IsCut ∧ d.AvoidsFile) ∧
    ∀ sub text, d.AvoidsFile → d.ids.count + text.length < 2 ^ 64 →
      (s.arrival? (.fileChanged text) = some sub ∨ ∃ origin view, d.viewText view = text ∧
        s.arrival? (.viewEdit origin d.revision view) = some sub) → s.Recuts sub := by
  intro s
  have hconsistent : s.Consistent := (consistent_new id config).run commands
  have hnamed : s.WellNamed := (wellNamed_new id config).run hcommands
  refine ⟨fun w hw hne => fileChanged_of_text_ne hconsistent hdoc hw hne,
    fun havoids hroom => ⟨fileChanged_of_isCut hconsistent hnamed hdoc hroom havoids, fun t =>
      isCut_of_fileChanged hconsistent hnamed hdoc hroom havoids⟩, ?_, ?_⟩
  · rintro front back first rfl hfirst hcut havoids hrecuts
    have hstart : ((new id config).run front).Cut := by
      refine ⟨fun e he => ?_, .inl (by simp [hfirst])⟩
      cases hfirst.symm.trans he
      exact ⟨hcut, havoids⟩
    have hend := Cut.preserves.run ((consistent_new id config).run front) hstart hrecuts
    rw [run, List.foldl_append] at hdoc
    exact hend.document d hdoc
  · rintro sub text havoids hroom (harrival | ⟨origin, view, rfl, harrival⟩)
    · exact recuts_of_fileChanged hnamed hdoc havoids hroom harrival
    · exact recuts_of_viewEdit hnamed hdoc havoids hroom harrival

/-- A view of the opened text is edited, and then the file, and a peer changes the code. -/
theorem fileChanged_of_own_write_edited :
    let p : Profile := { id := "python", lineComments := ["#"], strings := [.spanning "\""] }
    let d := Document.build p .unseeded [⟨.doc, "# a\n", ⟨0, 4⟩⟩, ⟨.code, "x = 1\n", ⟨4, 10⟩⟩]
    let front : List Command := [.beginOpen, .finishOpen (.ok d)]
    let back : List Command := [
      .viewEdit ⟨"v"⟩ 0 [⟨.doc, "python", "a\n"⟩, ⟨.code, "python", "x = 1\n# b\n"⟩],
      .fileChanged "# c\ny = 1\n# b\n", .submit ⟨"u"⟩ ⟨2, [.replace ⟨"b2"⟩ "y = 2\n"]⟩]
    let s := (new ⟨"s1"⟩ {}).run (front ++ back)
    s.recentWrites = ["# a\nx = 1\n# b\n", "# c\ny = 2\n# b\n"] ∧
      ∀ w ∈ s.recentWrites, s.fileChanged w = .ok s := by
  intro p d front back s
  have hd : d.WellNamed := Document.wellNamed_build p .unseeded _
  have hcommands : ∀ c ∈ front ++ back, c.Admissible := by
    simp only [front, back, List.cons_append, List.nil_append, List.forall_mem_cons]
    exact ⟨trivial, hd, trivial, trivial, trivial, by simp⟩
  let last : Document := { d with
    blocks := [⟨⟨"b1"⟩, .doc, "# c\n"⟩, ⟨⟨"b2"⟩, .code, "y = 2\n"⟩, ⟨⟨"b3"⟩, .doc, "# b\n"⟩]
    revision := 3
    ids := ⟨none, 3⟩ }
  have hlast : s.document = some last := by decide +kernel
  have hwrites : s.recentWrites = ["# a\nx = 1\n# b\n", "# c\ny = 2\n# b\n"] := by
    decide +kernel
  obtain ⟨hlate, hcurrent, hkept, -⟩ := fileChanged_of_own_write ⟨"s1"⟩ {} hcommands hlast
  obtain ⟨hcut, havoids⟩ := hkept front back d rfl (by decide +kernel) (by decide +kernel)
    (by decide +kernel) (by decide +kernel)
  obtain ⟨hsilent, -⟩ := hcurrent havoids (by decide +kernel)
  refine ⟨hwrites, fun w hw => ?_⟩
  by_cases htext : last.text = w
  · exact htext ▸ hsilent hcut
  · exact hlate w hw htext

end LiterateSync.Session
