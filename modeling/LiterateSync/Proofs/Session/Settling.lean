import LiterateSync.Proofs.Session.Backing
import LiterateSync.Proofs.Session.Consistency
import LiterateSync.Proofs.Session.Naming

namespace LiterateSync.Backing

open Session (Carried)

variable {r : Nat} {st : Standing} {file : String} {rest : List Submission} {sub : Submission}
  {s : Session} {d : Document}

/-- One patch that waits comes from the file, and leads from the document to what it holds. -/
def Due (d : Document) (rest : List Submission) (file : String) : Prop :=
  ∃ front sub back candidate, rest = front ++ sub :: back ∧ OfPeers (front ++ back) ∧
    sub.patch = d.diff candidate ∧ d.ids.count + candidate.blocks.length < 2 ^ 64 ∧
    file = candidate.text

/-- The file holds the text of the document, or the last change came from the file, or a patch
    that waits leads from the document to another one. -/
def Traced (d : Document) (rest : List Submission) (s : Session) (file : String) : Prop :=
  file = d.text ∨ FromFile s ∨ ∃ sub ∈ rest, ∃ candidate, sub.patch = d.diff candidate ∧
    d.ids.count + candidate.blocks.length < 2 ^ 64

/-- The file is to hold the text of the document. No patch that waits was made from the document
    for the file. The text is to be written, unless the document has gained one revision at most
    since `r`, when the file was level with it. -/
structure Level (r : Nat) (st : Standing) (file : String) (rest : List Submission) (s : Session)
    (d : Document) : Prop where
  text_eq : written file s.events = d.text
  base_ne : st ≠ .unknown → ∀ sub ∈ rest, sub.origin = .fileSystem → sub.patch.base ≠ d.revision
  writes : st = .level ∧ d.revision ≤ r + 1 ∨ ∃ text, .writeFile d.revision text ∈ s.events

/-- The text of the document is not to be written, and unless nothing is known about the file it
    lacks the last change of the document. -/
structure Behind (r : Nat) (st : Standing) (file : String) (rest : List Submission) (s : Session)
    (d : Document) : Prop where
  writes_ne : ∀ revision text, .writeFile revision text ∈ s.events → revision ≠ d.revision
  lacks : st = .unknown ∨ (st = .behind ∨ r + 1 < d.revision) ∧ OfPeers rest ∧
    Lacks s.history (written file s.events)

/-- A session that is settling its queue since the revision `r`, with the submissions that are
    still to be settled. The file had the text `file` then, and stood as `st`; the writes since are
    still to be carried out. Unless nothing is known, one of the submissions at most comes from the
    file. -/
structure Settling (r : Nat) (st : Standing) (file : String) (rest : List Submission)
    (s : Session) (d : Document) : Prop where
  document : s.document = some d
  named : d.WellNamed
  recorded : s.Recorded
  revision_le : r ≤ d.revision
  base_eq : st ≠ .unknown → ∀ sub ∈ rest, sub.origin = .fileSystem → sub.patch.base = r
  single : st ≠ .unknown → rest.Pairwise fun sub other =>
    sub.origin = .fileSystem → other.origin ≠ .fileSystem
  writes_le : ∀ revision text, .writeFile revision text ∈ s.events → revision ≤ d.revision
  traced : Traced d rest s (written file s.events)
  state : Level r st file rest s d ∨ st = .level ∧ Due d rest (written file s.events) ∨
    Behind r st file rest s d

theorem OfPeers.tail (h : OfPeers (sub :: rest)) : OfPeers rest :=
  fun other hother => h other (List.mem_cons_of_mem sub hother)

/-- The patch that is due is the next one, or it is among the others. -/
theorem Due.cases (h : Due d (sub :: rest) file) :
    (∃ candidate, OfPeers rest ∧ sub.patch = d.diff candidate ∧
      d.ids.count + candidate.blocks.length < 2 ^ 64 ∧ file = candidate.text) ∨
    sub.origin ≠ .fileSystem ∧ Due d rest file := by
  obtain ⟨front, due, back, candidate, hrest, hothers, hpatch, hroom, hfile⟩ := h
  cases front with
  | nil =>
    rw [List.nil_append, List.cons.injEq] at hrest
    obtain ⟨rfl, rfl⟩ := hrest
    exact .inl ⟨candidate, hothers, hpatch, hroom, hfile⟩
  | cons first front =>
    rw [List.cons_append, List.cons.injEq] at hrest
    obtain ⟨rfl, rfl⟩ := hrest
    exact .inr ⟨hothers _ List.mem_cons_self, front, due, back, candidate, rfl, hothers.tail,
      hpatch, hroom, hfile⟩

namespace Settling

/-- A submission that is settled leaves the others with what holds of them all. -/
theorem next (h : Settling r st file (sub :: rest) s d) {next : Document} {t : Session}
    (hdoc : t.document = some next) (hnamed : next.WellNamed) (hrecorded : t.Recorded)
    (hle : d.revision ≤ next.revision)
    (hwrites : ∀ revision text, .writeFile revision text ∈ t.events → revision ≤ next.revision)
    (htraced : Traced next rest t (written file t.events))
    (hstate : Level r st file rest t next ∨ st = .level ∧ Due next rest (written file t.events) ∨
      Behind r st file rest t next) : Settling r st file rest t next :=
  ⟨hdoc, hnamed, hrecorded, Nat.le_trans h.revision_le hle,
    fun hst other hother => h.base_eq hst other (List.mem_cons_of_mem sub hother),
    fun hst => (h.single hst).of_cons, hwrites, htraced, hstate⟩

/-- A rejection leaves things as they are. It cannot hit the patch that is due. -/
theorem process_of_error (h : Settling r st file (sub :: rest) s d) {e : PatchError}
    (hreconcile : s.reconcile d sub.origin sub.patch = .error e) :
    Settling r st file rest (s.process sub) d := by
  have hrecorded := (Session.settles_process s sub).recorded h.recorded
  rw [Session.process_of_error h.document hreconcile, Session.reject_eq] at hrecorded ⊢
  have hquiet := quiet_rejectEvents s sub.origin e.reason
  have hwritten : written file (s.events ++ s.rejectEvents sub.origin e.reason) =
      written file s.events := by rw [written_append, written_of_quiet hquiet]
  have hwrites : ∀ {revision text}, .writeFile revision text ∈
      s.events ++ s.rejectEvents sub.origin e.reason → .writeFile revision text ∈ s.events :=
    fun hmem => (List.mem_append.1 hmem).resolve_right (hquiet _ _)
  refine h.next h.document h.named hrecorded (Nat.le_refl _)
    (fun revision text hmem => h.writes_le revision text (hwrites hmem)) ?_ ?_
  · rw [hwritten]
    obtain htext | hfrom | ⟨other, hother, candidate, hpatch, hroom⟩ := h.traced
    · exact .inl htext
    · exact .inr (.inl hfrom)
    · obtain rfl | hother := List.mem_cons.1 hother
      · obtain ⟨next, hok, -⟩ := Session.reconcile_diff h.named hroom s other.origin
        rw [hpatch, hok] at hreconcile
        cases hreconcile
      · exact .inr (.inr ⟨other, hother, candidate, hpatch, hroom⟩)
  obtain hlevel | ⟨hst, hdue⟩ | hbehind := h.state
  · exact .inl ⟨hwritten.trans hlevel.text_eq,
      fun hst other hother => hlevel.base_ne hst other (List.mem_cons_of_mem sub hother),
      hlevel.writes.imp_right fun ⟨text, hmem⟩ => ⟨text, List.mem_append_left _ hmem⟩⟩
  · obtain ⟨candidate, -, hpatch, hroom, -⟩ | ⟨-, hdue⟩ := hdue.cases
    · obtain ⟨next, hok, -⟩ := Session.reconcile_diff h.named hroom s sub.origin
      rw [hpatch, hok] at hreconcile
      cases hreconcile
    · exact .inr (.inl ⟨hst, hwritten.symm ▸ hdue⟩)
  · exact .inr (.inr ⟨fun revision text hmem => hbehind.writes_ne revision text (hwrites hmem),
      hbehind.lacks.imp_right fun ⟨hgone, hpeers, hlacks⟩ =>
        ⟨hgone, hpeers.tail, hwritten.symm ▸ hlacks⟩⟩)

/-- A commit for a peer is written to the file, which is level with the document then. -/
theorem process_of_peer (h : Settling r st file (sub :: rest) s d)
    {carried : Carried} {next : Document}
    (hreconcile : s.reconcile d sub.origin sub.patch = .ok (carried, next))
    (hpeer : sub.origin ≠ .fileSystem) : Settling r st file rest (s.process sub) next := by
  have happly := Session.apply_of_reconcile hreconcile
  have hrevision := (Session.revision_of_apply happly).2
  have hle := h.revision_le
  obtain ⟨before, after, hbefore, hafter, hevents⟩ := acceptEvents_parts s sub carried next
  rw [if_neg hpeer] at hevents
  have hrecorded := (Session.settles_process s sub).recorded h.recorded
  rw [Session.process_of_ok h.document hreconcile, hevents] at hrecorded ⊢
  have hwritten : written file (s.events ++ (before ++ [.writeFile next.revision next.text] ++
      after)) = next.text := by
    rw [written_append, written_append, written_of_quiet hafter, written_append]
    rfl
  refine h.next rfl (Document.wellNamed_of_apply h.named happly).1 hrecorded (by omega)
    (fun revision text hmem => ?_) (.inl hwritten)
    (.inl ⟨hwritten, fun hst other hother hfile => ?_, .inr ?_⟩)
  · simp only [List.mem_append] at hmem
    obtain hmem | (hmem | hmem) | hmem := hmem
    · exact Nat.le_trans (h.writes_le revision text hmem) (by omega)
    · exact absurd hmem (hbefore revision text)
    · cases List.mem_singleton.1 hmem
      exact Nat.le_refl _
    · exact absurd hmem (hafter revision text)
  · have hbase := h.base_eq hst other (List.mem_cons_of_mem sub hother) hfile
    omega
  · exact ⟨next.text, by simp⟩

/-- A commit for the file is level with it when the patch was due, and leaves it behind when the
    patch was carried over another one. -/
theorem process_of_file (h : Settling r st file (sub :: rest) s d)
    {carried : Carried} {next : Document}
    (hreconcile : s.reconcile d sub.origin sub.patch = .ok (carried, next))
    (hfile : sub.origin = .fileSystem) : Settling r st file rest (s.process sub) next := by
  have happly := Session.apply_of_reconcile hreconcile
  have hrevision := (Session.revision_of_apply happly).2
  have hle := h.revision_le
  have hquiet := quiet_acceptEvents s hfile carried next
  have hwritten : written file (s.events ++ s.acceptEvents sub carried next) =
      written file s.events := by rw [written_append, written_of_quiet hquiet]
  have hwrites : ∀ {revision text}, .writeFile revision text ∈
      s.events ++ s.acceptEvents sub carried next → revision ≤ d.revision :=
    fun hmem => h.writes_le _ _ ((List.mem_append.1 hmem).resolve_right (hquiet _ _))
  have hrecorded := (Session.settles_process s sub).recorded h.recorded
  rw [Session.process_of_ok h.document hreconcile] at hrecorded ⊢
  refine h.next rfl (Document.wellNamed_of_apply h.named happly).1 hrecorded (by omega)
    (fun revision text hmem => Nat.le_trans (hwrites hmem) (by omega)) (.inr (.inl ?_)) ?_
  · exact (Nat.eq_zero_or_pos s.config.historyDepth).imp_right fun hdepth =>
      ⟨_, Session.getLast?_keepLast hdepth _ _, hfile⟩
  have hlater : ∀ revision text, .writeFile revision text ∈
      s.events ++ s.acceptEvents sub carried next → revision ≠ next.revision := by
    intro revision text hmem
    have := hwrites hmem
    omega
  by_cases hst : st = .unknown
  · exact .inr (.inr ⟨hlater, .inl hst⟩)
  have hbase := h.base_eq hst sub List.mem_cons_self hfile
  have hpeers : OfPeers rest := fun other hother =>
    (List.pairwise_cons.1 (h.single hst)).1 other hother hfile
  -- The patch was made at `r`: a file that is level has got there by a commit since then, which the
  -- patch has been carried over, and a file to which the patch is due holds what it leads to.
  obtain hlevel | ⟨hlevel, hdue⟩ | hbehind := h.state
  · have hcarried := hlevel.base_ne hst sub List.mem_cons_self hfile
    have hdepth := Session.historyDepth_pos h.recorded (by omega) hreconcile
    exact .inr (.inr ⟨hlater, .inr ⟨.inr (by omega), hpeers, _,
      Session.getLast?_keepLast hdepth _ _, hfile, hwritten.trans hlevel.text_eq⟩⟩)
  · obtain ⟨candidate, -, hpatch, hroom, htext⟩ | ⟨hpeer, -⟩ := hdue.cases
    · have hnow : r = d.revision := by rw [← hbase, hpatch]; rfl
      obtain ⟨next', hok, hnext⟩ := Session.reconcile_diff h.named hroom s sub.origin
      rw [hpatch, hok] at hreconcile
      cases hreconcile
      exact .inl ⟨hwritten.trans (htext.trans hnext.symm),
        fun _ other hother hother' => absurd hother' (hpeers other hother),
        .inl ⟨hlevel, by omega⟩⟩
    · exact absurd hfile hpeer
  · obtain hunknown | ⟨-, hnone, -⟩ := hbehind.lacks
    · exact absurd hunknown hst
    · exact absurd hfile (hnone sub List.mem_cons_self)

theorem process (h : Settling r st file (sub :: rest) s d) :
    ∃ next, Settling r st file rest (s.process sub) next := by
  cases hreconcile : s.reconcile d sub.origin sub.patch with
  | error e => exact ⟨d, h.process_of_error hreconcile⟩
  | ok result =>
    obtain ⟨carried, next⟩ := result
    by_cases hfile : sub.origin = .fileSystem
    · exact ⟨next, h.process_of_file hreconcile hfile⟩
    · exact ⟨next, h.process_of_peer hreconcile hfile⟩

theorem foldl_process (h : Settling r st file rest s d) :
    ∃ last, Settling r st file [] (rest.foldl Session.process s) last := by
  induction rest generalizing s d with
  | nil => exact ⟨d, h⟩
  | cons sub rest ih =>
    obtain ⟨next, hnext⟩ := h.process
    exact ih hnext

/-- Once all is settled the file is level with the document or behind it. -/
theorem level_or_behind (h : Settling r st file [] s d) :
    Level r st file [] s d ∨ Behind r st file [] s d := by
  obtain hlevel | ⟨-, front, sub, back, candidate, hrest, -⟩ | hbehind := h.state
  · exact .inl hlevel
  · simp at hrest
  · exact .inr hbehind

end Settling

end LiterateSync.Backing
