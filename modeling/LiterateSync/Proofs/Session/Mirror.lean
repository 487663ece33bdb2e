import LiterateSync.Proofs.Session.Effect
import LiterateSync.Proofs.Session.Settling

namespace LiterateSync.Backing

open Session (Command)

variable {b : Backing} {st : Standing} {d : Document} {file : String}
  {queue more : List Submission} {history : List Applied}

/-- What a standing says between two moves, when all that was to be done is carried out. -/
def Agrees (d : Document) (queue : List Submission) (history : List Applied) (file : String) :
    Standing → Prop
  | .level => file = d.text ∧ OfPeers queue ∨ Due d queue file
  | .behind => Lacks history file ∧ OfPeers queue
  | .unknown => True

/-- What holds of a session and its file between two moves. -/
structure Mirrors (b : Backing) (st : Standing) : Prop where
  consistent : b.session.Consistent
  named : b.session.WellNamed
  events_nil : b.session.events = []
  traced : ∀ d ∈ b.session.document, Traced d b.session.queue b.session b.file
  agrees : ∀ d ∈ b.session.document, Agrees d b.session.queue b.session.history b.file st

theorem OfPeers.append (h : OfPeers queue) (hmore : OfPeers more) : OfPeers (queue ++ more) := by
  intro sub hsub
  rcases List.mem_append.1 hsub with hsub | hsub
  · exact h sub hsub
  · exact hmore sub hsub

theorem Due.append (h : Due d queue file) (hmore : OfPeers more) : Due d (queue ++ more) file := by
  obtain ⟨front, sub, back, candidate, rfl, hothers, hrest⟩ := h
  refine ⟨front, sub, back ++ more, candidate, by simp, ?_, hrest⟩
  rw [← List.append_assoc]
  exact hothers.append hmore

theorem Due.base_eq (h : Due d queue file) {sub : Submission} (hsub : sub ∈ queue)
    (hfile : sub.origin = .fileSystem) : sub.patch.base = d.revision := by
  obtain ⟨front, due, back, candidate, rfl, hothers, hpatch, -⟩ := h
  simp only [List.mem_append, List.mem_cons] at hsub
  obtain hsub | rfl | hsub := hsub
  · exact absurd hfile (hothers sub (List.mem_append_left _ hsub))
  · rw [hpatch]
    rfl
  · exact absurd hfile (hothers sub (List.mem_append_right _ hsub))

theorem OfPeers.single (h : OfPeers queue) :
    queue.Pairwise fun sub other => sub.origin = .fileSystem → other.origin ≠ .fileSystem :=
  List.pairwise_iff_forall_sublist.2 fun hsub hfile =>
    absurd hfile (h _ (hsub.subset List.mem_cons_self))

theorem Due.single (h : Due d queue file) :
    queue.Pairwise fun sub other => sub.origin = .fileSystem → other.origin ≠ .fileSystem := by
  obtain ⟨front, sub, back, candidate, rfl, hothers, -⟩ := h
  have hfront : OfPeers front := fun other hother => hothers other (List.mem_append_left _ hother)
  have hback : OfPeers back := fun other hother => hothers other (List.mem_append_right _ hother)
  exact List.pairwise_append.2 ⟨hfront.single,
    List.pairwise_cons.2 ⟨fun other hother _ => hback other hother, hback.single⟩,
    fun other hother _ _ hfile => absurd hfile (hfront other hother)⟩

theorem FromFile.congr {s t : Session} (h : FromFile s) (hhistory : t.history = s.history)
    (hconfig : t.config = s.config) : FromFile t := by
  rwa [FromFile, hhistory, hconfig]

theorem Traced.append {s t : Session} (h : Traced d queue s file) (hhistory : t.history = s.history)
    (hconfig : t.config = s.config) (more : List Submission) : Traced d (queue ++ more) t file :=
  h.imp_right <| Or.imp (fun hfrom => hfrom.congr hhistory hconfig)
    fun ⟨sub, hsub, hmade⟩ => ⟨sub, List.mem_append_left _ hsub, hmade⟩

namespace Agrees

theorem append (h : Agrees d queue history file st) (hmore : st ≠ .unknown → OfPeers more) :
    Agrees d (queue ++ more) history file st := by
  cases st with
  | level =>
    have hpeers := hmore (by decide)
    exact h.imp (fun hlevel => ⟨hlevel.1, hlevel.2.append hpeers⟩) fun hdue => hdue.append hpeers
  | behind => exact ⟨h.1, OfPeers.append h.2 (hmore (by decide))⟩
  | unknown => trivial

theorem ofPeers_or_due (h : Agrees d queue history file st) (hst : st ≠ .unknown) :
    OfPeers queue ∨ Due d queue file := by
  cases st with
  | level => exact h.imp_left And.right
  | behind => exact .inl h.2
  | unknown => exact absurd rfl hst

/-- What the session and the file are when it begins to settle its queue. -/
theorem settling {s : Session} (h : Agrees d queue s.history file st) (hnamed : d.WellNamed)
    (hrecorded : s.Recorded) (hdoc : s.document = some d) (hquiet : Quiet s.events)
    (htraced : Traced d queue s file) : Settling d.revision st file queue s d := by
  refine ⟨hdoc, hnamed, hrecorded, Nat.le_refl _, fun hst sub hsub hfile => ?_, fun hst => ?_,
    fun revision text hmem => absurd hmem (hquiet revision text),
    by rwa [written_of_quiet hquiet], ?_⟩
  · obtain hpeers | hdue := h.ofPeers_or_due hst
    · exact absurd hfile (hpeers sub hsub)
    · exact hdue.base_eq hsub hfile
  · obtain hpeers | hdue := h.ofPeers_or_due hst
    · exact hpeers.single
    · exact hdue.single
  · have hwritten : written file s.events = file := written_of_quiet hquiet
    have hnever : ∀ revision text, .writeFile revision text ∈ s.events → revision ≠ d.revision :=
      fun revision text hmem => absurd hmem (hquiet revision text)
    cases st with
    | level =>
      obtain ⟨htext, hpeers⟩ | hdue := h
      · exact .inl ⟨hwritten.trans htext,
          fun _ sub hsub hfile => absurd hfile (hpeers sub hsub), .inl ⟨rfl, Nat.le_succ _⟩⟩
      · exact .inr (.inl ⟨rfl, hwritten.symm ▸ hdue⟩)
    | behind => exact .inr (.inr ⟨hnever, .inr ⟨.inl rfl, h.2, hwritten.symm ▸ h.1⟩⟩)
    | unknown => exact .inr (.inr ⟨hnever, .inl rfl⟩)

end Agrees

theorem revision_eq (h : b.session.document = some d) : b.revision = d.revision := by
  rw [revision, Session.revision?, h]
  rfl

theorem writesCurrent_eq_false {s : Session} (hdoc : s.document = some d)
    (h : ∀ revision text, .writeFile revision text ∈ s.events → revision ≠ d.revision) :
    writesCurrent s = false := by
  rw [writesCurrent, List.any_eq_false]
  intro e he
  cases e with
  | send peer message => simp
  | writeFile revision text => simpa [Session.revision?, hdoc, eq_comm] using h revision text he

theorem writesCurrent_of_mem {s : Session} (hdoc : s.document = some d) {text : String}
    (h : .writeFile d.revision text ∈ s.events) : writesCurrent s = true := by
  rw [writesCurrent, List.any_eq_true]
  exact ⟨_, h, by simp [Session.revision?, hdoc]⟩

/-- A step that writes nothing and leaves the document does not change how the file stands. -/
theorem standsAfter_of_quiet [RegexLibrary] {c : Command}
    (hdoc : (b.session.step c).1.document = b.session.document)
    (hquiet : Quiet (b.session.step c).1.events) : b.standsAfter st c = st := by
  have hrevision : (b.ask c).revision = b.revision := by
    rw [revision, revision, Session.revision?, Session.revision?, ← hdoc]
    rfl
  have hwrites : writesCurrent (b.session.step c).1 = false := by
    rw [writesCurrent, List.any_eq_false]
    intro e he
    cases e with
    | send peer message => simp
    | writeFile revision text => exact absurd he (hquiet revision text)
  simp [standsAfter, hwrites, hrevision]

/-- How the file stands shows in the step when a queue has been settled. -/
theorem Settling.agrees [RegexLibrary] {c : Command} {last : Session} {d' : Document}
    (hdoc : b.session.document = some d) (h : Settling d.revision st b.file [] last d')
    (hlast : (b.session.step c).1 = { last with phase := .synced }) :
    Agrees d' [] last.history (written b.file last.events) (b.standsAfter st c) := by
  have hlater : (b.session.step c).1.document = some d' := by rw [hlast, ← h.document]
  have hrevision : (b.ask c).revision = d'.revision := revision_eq hlater
  rw [standsAfter, hrevision, revision_eq hdoc]
  obtain hlevel | hbehind := h.level_or_behind
  · have hagrees : Agrees d' [] last.history (written b.file last.events) .level :=
      .inl ⟨hlevel.text_eq, ofPeers_nil⟩
    split
    · exact hagrees
    · rename_i hwrites
      obtain ⟨rfl, hle⟩ | ⟨text, hmem⟩ := hlevel.writes
      · rw [if_neg (fun hgone => Nat.not_lt.2 hle hgone.2)]
        exact hagrees
      · exact absurd (writesCurrent_of_mem hlater (by rw [hlast]; exact hmem)) hwrites
  · rw [writesCurrent_eq_false hlater (by rw [hlast]; exact hbehind.writes_ne),
      if_neg Bool.false_ne_true]
    split
    · rename_i hgone
      obtain rfl | ⟨-, hlacks⟩ := hbehind.lacks
      · exact absurd hgone.1 (by decide)
      · exact hlacks.symm
    · rename_i hstays
      obtain rfl | ⟨rfl | hlt, hlacks⟩ := hbehind.lacks
      · trivial
      · exact hlacks.symm
      · cases st with
        | level => exact absurd ⟨rfl, hlt⟩ hstays
        | behind => exact hlacks.symm
        | unknown => trivial

namespace Mirrors

theorem unknown (h : Mirrors b st) : Mirrors b .unknown :=
  ⟨h.consistent, h.named, h.events_nil, h.traced, fun _ _ => trivial⟩

/-- Carrying out what is to be done leaves the session in order. -/
theorem of_ask [RegexLibrary] (hconsistent : b.session.Consistent) (hnamed : b.session.WellNamed)
    {c : Command} (hc : c.Admissible) {st' : Standing}
    (htraced : ∀ d ∈ (b.session.step c).1.document, Traced d (b.session.step c).1.queue
      (b.session.step c).1 (written b.file (b.session.step c).1.events))
    (hagrees : ∀ d ∈ (b.session.step c).1.document, Agrees d (b.session.step c).1.queue
      (b.session.step c).1.history (written b.file (b.session.step c).1.events) st') :
    Mirrors (b.ask c) st' :=
  ⟨(hconsistent.step c).congr rfl rfl rfl rfl rfl rfl, (hnamed.step hc).congr rfl rfl, rfl,
    htraced, hagrees⟩

theorem of_effect [RegexLibrary] (h : Mirrors b st) {c : Command} (hc : c.Admissible)
    {asFile : Prop} (hfile : asFile → st = .unknown)
    (heffect : b.session.Effect asFile (b.session.step c).1) :
    Mirrors (b.ask c) (b.standsAfter st c) := by
  suffices hboth : ∀ e ∈ (b.session.step c).1.document,
      Traced e (b.session.step c).1.queue (b.session.step c).1
        (written b.file (b.session.step c).1.events) ∧
      Agrees e (b.session.step c).1.queue (b.session.step c).1.history
        (written b.file (b.session.step c).1.events) (b.standsAfter st c) from
    .of_ask h.consistent h.named hc (fun e he => (hboth e he).1) fun e he => (hboth e he).2
  intro e he
  cases heffect with
  | quiet more hmore hdoc hhistory hconfig hqueue hquiet =>
    rw [standsAfter_of_quiet hdoc hquiet, hqueue, hhistory, written_of_quiet hquiet]
    rw [hdoc] at he
    exact ⟨(h.traced e he).append hhistory hconfig more,
      (h.agrees e he).append fun hst => hmore (mt hfile hst)⟩
  | settled d start last more hmore hdoc hsame hhistory hconfig hempty hquiet hlast heq =>
    have hagrees := (h.agrees d hdoc).append fun hst => hmore (mt hfile hst)
    have hrecorded : start.Recorded :=
      h.consistent.recorded.congr (hsame.trans hdoc.symm) hhistory hconfig
    rw [← hhistory] at hagrees
    obtain ⟨d', hsettling⟩ := (hagrees.settling (h.named.document d hdoc) hrecorded hsame hquiet
      ((h.traced d hdoc).append hhistory hconfig more)).foldl_process
    rw [hlast] at hsettling
    have hqueue : last.queue = [] := hlast ▸ Session.queue_foldl_process hempty _
    have hafter := hsettling.agrees hdoc heq
    rw [heq] at he ⊢
    have hsame' : d' = e := by simpa [hsettling.document] using he
    rw [hsame', ← hqueue] at hafter
    refine ⟨?_, hafter⟩
    have htraced := hsettling.traced
    rw [hsame', ← hqueue] at htraced
    exact htraced
  | written d next hdoc happly hrevision hqueue before hevents =>
    have hmem : .writeFile next.revision next.text ∈ (b.session.step c).1.events := by
      rw [hevents]
      exact List.mem_append_right _ List.mem_cons_self
    rw [happly, Option.mem_some] at he
    have hwritten : written b.file (b.session.step c).1.events = e.text := by
      rw [hevents, written_append, ← he]
      rfl
    rw [standsAfter, if_pos (writesCurrent_of_mem happly hmem), hqueue]
    exact ⟨.inl hwritten, .inl ⟨hwritten, ofPeers_nil⟩⟩

end Mirrors

end LiterateSync.Backing
