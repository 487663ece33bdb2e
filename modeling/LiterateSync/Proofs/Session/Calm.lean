import LiterateSync.Proofs.Session.Saving

namespace LiterateSync.Backing

open Session (Command)

variable {b : Backing} {s : Session} {r : Nat}

/-- Whether a move leaves the file's own patches with nothing to be carried over. A save is made
    while no patch waits, and peers submit nothing in the name of the file. -/
def Calm (b : Backing) : Move → Prop
  | .submit origin _ => origin ≠ .fileSystem
  | .viewEdit origin _ _ => origin ≠ .fileSystem
  | .save _ => b.session.queue = []
  | _ => True

def CalmAll [RegexLibrary] : Backing → List Move → Prop
  | _, [] => True
  | b, m :: moves => b.Calm m ∧ CalmAll (b.step m) moves

/-- The text of the current revision is to be written, or the document is at most one revision
    past `r`. -/
def Keeps (r : Nat) (s : Session) : Prop :=
  ∀ d ∈ s.document, d.revision ≤ r + 1 ∨ ∃ text, .writeFile d.revision text ∈ s.events

/-- Patches of peers are written when they are committed. -/
theorem Keeps.process (h : Keeps r s) {sub : Submission} (hpeer : sub.origin ≠ .fileSystem) :
    Keeps r (s.process sub) := by
  cases hdoc : s.document with
  | none =>
    rw [Session.process_of_document_none hdoc]
    exact h
  | some d =>
    cases hreconcile : s.reconcile d sub.origin sub.patch with
    | error e =>
      rw [Session.process_of_error hdoc hreconcile, Session.reject_eq]
      exact fun d hd => (h d hd).imp_right fun ⟨text, hmem⟩ =>
        ⟨text, List.mem_append_left _ hmem⟩
    | ok result =>
      obtain ⟨carried, next⟩ := result
      obtain ⟨before, after, -, -, hevents⟩ := acceptEvents_parts s sub carried next
      rw [Session.process_of_ok hdoc hreconcile, hevents, if_neg hpeer]
      intro d hd
      cases hd
      exact .inr ⟨next.text, by simp⟩

theorem Keeps.foldl_process (h : Keeps r s) {subs : List Submission} (hpeers : OfPeers subs) :
    Keeps r (subs.foldl Session.process s) := by
  induction subs generalizing s with
  | nil => exact h
  | cons sub subs ih =>
    exact ih (h.process (hpeers sub (by simp))) fun other hother => hpeers other (by simp [hother])

/-- Whatever comes first in a queue, the document gets one revision further by it at most. -/
theorem keeps_process {d : Document} (hdoc : s.document = some d) (sub : Submission) :
    Keeps d.revision (s.process sub) := by
  cases hreconcile : s.reconcile d sub.origin sub.patch with
  | error e =>
    rw [Session.process_of_error hdoc hreconcile, Session.reject_eq]
    intro d' hd
    cases hdoc.symm.trans hd
    exact .inl (Nat.le_succ _)
  | ok result =>
    obtain ⟨carried, next⟩ := result
    have hrevision := (Session.revision_of_apply (Session.apply_of_reconcile hreconcile)).2
    rw [Session.process_of_ok hdoc hreconcile]
    intro d' hd
    cases hd
    exact .inl (Nat.le_of_eq hrevision)

/-- The settling of a queue in which only the first patch can be the file's own. -/
theorem keeps_foldl_process {d : Document} (hdoc : s.document = some d) {subs : List Submission}
    (hpeers : OfPeers subs.tail) : Keeps d.revision (subs.foldl Session.process s) := by
  cases subs with
  | nil =>
    intro d' hd
    cases hdoc.symm.trans hd
    exact .inl (Nat.le_succ _)
  | cons sub subs => exact (keeps_process hdoc sub).foldl_process hpeers

theorem standsAfter_of_keeps [RegexLibrary] {c : Command} {d : Document}
    (hdoc : b.session.document = some d) (h : Keeps d.revision (b.session.step c).1) :
    b.standsAfter .level c = .level := by
  rw [standsAfter]
  split
  · rfl
  · rename_i hwrites
    refine if_neg fun hcarried => ?_
    have hgone := hcarried.2
    rw [revision_eq hdoc] at hgone
    cases hlater : (b.session.step c).1.document with
    | none =>
      rw [revision, Session.revision?, show (b.ask c).session.document = none from hlater] at hgone
      exact absurd hgone (Nat.not_lt_zero _)
    | some d' =>
      rw [revision_eq (show (b.ask c).session.document = some d' from hlater)] at hgone
      obtain hle | ⟨text, hmem⟩ := h d' hlater
      · exact Nat.not_lt.2 hle hgone
      · exact hwrites (writesCurrent_of_mem hlater hmem)

theorem ofPeers_tail_append {queue more : List Submission} (hqueue : OfPeers queue.tail)
    (hmore : OfPeers more) : OfPeers (queue ++ more).tail := by
  cases queue with
  | nil => exact fun sub hsub => hmore sub (List.mem_of_mem_tail hsub)
  | cons first queue => exact hqueue.append hmore

/-- What a peer does while only the first patch of the queue can be the file's own. -/
theorem stands_of_effect [RegexLibrary] (hpeers : OfPeers b.session.queue.tail) {c : Command}
    {asFile : Prop} (hfile : ¬ asFile) (heffect : b.session.Effect asFile (b.session.step c).1) :
    b.standsAfter .level c = .level ∧ OfPeers (b.ask c).session.queue.tail := by
  cases heffect with
  | quiet more hmore hdoc hhistory hconfig hqueue hquiet =>
    refine ⟨standsAfter_of_quiet hdoc hquiet, ?_⟩
    rw [show (b.ask c).session.queue = b.session.queue ++ more from hqueue]
    exact ofPeers_tail_append hpeers (hmore hfile)
  | settled d start last more hmore hdoc hsame hhistory hconfig hempty hquiet hlast heq =>
    have hkeeps : Keeps d.revision last :=
      hlast ▸ keeps_foldl_process hsame (ofPeers_tail_append hpeers (hmore hfile))
    refine ⟨standsAfter_of_keeps hdoc (by rw [heq]; exact hkeeps), ?_⟩
    have hqueue : last.queue = [] := hlast ▸ Session.queue_foldl_process hempty _
    rw [show (b.ask c).session.queue = [] from (congrArg Session.queue heq).trans hqueue]
    exact ofPeers_nil
  | written d next hdoc happly hrevision hqueue before hevents =>
    refine ⟨standsAfter_of_keeps hdoc fun d' hd' => ?_, ?_⟩
    · cases happly.symm.trans hd'
      exact .inl (Nat.le_of_eq hrevision)
    · rw [show (b.ask c).session.queue = [] from hqueue]
      exact ofPeers_nil

/-- A save while no patch waits leaves its own patch in the queue at most. -/
theorem stands_of_save [RegexLibrary] {text : String} (h : Mirrors b .level)
    (hadmits : b.Admits (.save text)) (hempty : b.session.queue = []) :
    b.stands .level (.save text) = .level ∧
      OfPeers (b.step (.save text)).session.queue.tail := by
  refine ⟨if_pos (.inr ⟨rfl, by simp [hempty]⟩), ?_⟩
  change OfPeers (b.session.step (.fileChanged text)).1.queue.tail
  cases hdoc : b.session.document with
  | none =>
    rw [Session.step_fileChanged_of_document_none hdoc, hempty]
    exact ofPeers_nil
  | some d =>
    obtain ⟨candidate, -, -, ⟨heq, -⟩ | ⟨phase, heq⟩ | ⟨start, last, -, -, hstart, hlast, heq⟩⟩ :=
      save_cases h hadmits hdoc
    · rw [heq, hempty]
      exact ofPeers_nil
    · rw [heq, hempty]
      exact ofPeers_nil
    · have hqueue : last.queue = [] := by
        rw [← hlast, (Session.settles_process start _).queue_eq, hstart]
      rw [heq]
      change OfPeers last.queue.tail
      rw [hqueue]
      exact ofPeers_nil

theorem Mirrors.stands_of_calm [RegexLibrary] (h : Mirrors b .level)
    (hpeers : OfPeers b.session.queue.tail) {m : Move} (hadmits : b.Admits m) (hcalm : b.Calm m) :
    b.stands .level m = .level ∧ OfPeers (b.step m).session.queue.tail := by
  cases m with
  | submit origin patch =>
    have hstands := stands_of_effect (c := .submit origin patch) hpeers hcalm
      (.submit h.events_nil origin patch)
    rwa [stands, if_neg hcalm]
  | viewEdit origin base view =>
    have hstands := stands_of_effect (c := .viewEdit origin base view) hpeers hcalm
      (.viewEdit h.events_nil origin base view)
    rwa [stands, if_neg hcalm]
  | localEdit now patch =>
    exact stands_of_effect (c := .localEdit now patch) hpeers not_false
      (.localEdit h.consistent h.events_nil now patch)
  | ack peer revision =>
    exact stands_of_effect (c := .ack peer revision) hpeers not_false
      (.ack h.consistent h.events_nil peer revision)
  | tick now =>
    exact stands_of_effect (c := .tick now) hpeers not_false
      (.tick h.consistent h.events_nil now)
  | save text => exact stands_of_save h hadmits hcalm

end LiterateSync.Backing
