import LiterateSync.Proofs.Session.Calm
import LiterateSync.Text.Pattern.Library

namespace LiterateSync.Backing

variable {b : Backing} {st : Standing} {text : String}

section Moves

variable [RegexLibrary]

theorem Mirrors.step (h : Mirrors b st) {m : Move} (hadmits : b.Admits m) :
    Mirrors (b.step m) (b.stands st m) := by
  have hclaimed : ∀ origin : PeerId,
      Mirrors b (if origin = .fileSystem then .unknown else st) := fun origin => by
    split
    · exact h.unknown
    · exact h
  cases m with
  | submit origin patch =>
    exact (hclaimed origin).of_effect (c := .submit origin patch) trivial
      (fun hfile => if_pos hfile) (.submit h.events_nil origin patch)
  | viewEdit origin base view =>
    exact (hclaimed origin).of_effect (c := .viewEdit origin base view) trivial
      (fun hfile => if_pos hfile) (.viewEdit h.events_nil origin base view)
  | localEdit now patch =>
    exact h.of_effect (c := .localEdit now patch) trivial False.elim
      (.localEdit h.consistent h.events_nil now patch)
  | ack peer revision =>
    exact h.of_effect (c := .ack peer revision) trivial False.elim
      (.ack h.consistent h.events_nil peer revision)
  | tick now =>
    exact h.of_effect (c := .tick now) trivial False.elim
      (.tick h.consistent h.events_nil now)
  | save text => exact h.save hadmits

theorem Mirrors.run {moves : List Move} (h : Mirrors b st) (hadmits : b.AdmitsAll moves) :
    Mirrors (b.run moves) (b.standsAll st moves) := by
  induction moves generalizing b st with
  | nil => exact h
  | cons m moves ih =>
    obtain ⟨hm, hmoves⟩ := hadmits
    exact ih (h.step hm) hmoves

/-- Peers that subscribe before there is a document are sent nothing. -/
theorem subscribe_of_document_none {s : Session} (hdoc : s.document = none) (hnil : s.events = [])
    (peers : List PeerId) : (s.run (peers.map .subscribe)).document = none ∧
      (s.run (peers.map .subscribe)).events = [] := by
  induction peers generalizing s with
  | nil => exact ⟨hdoc, hnil⟩
  | cons peer peers ih =>
    have hsubscribe : (s.subscribe peer).document = none ∧ (s.subscribe peer).events = [] := by
      rw [Session.subscribe]
      split
      · exact ⟨hdoc, hnil⟩
      · rw [Session.sendDocument_eq, Session.emitAll, Session.snapshotFor]
        simp only [hdoc, hnil, List.append_nil, and_self]
    exact ih hsubscribe.1 hsubscribe.2

/-- A document that a session has after it was opened with a text is the one of the text, and it is
    not written. -/
theorem openText_of_document_none {s : Session} (hdoc : s.document = none)
    (hqueue : s.queue = []) (hnil : s.events = []) (p : Profile) (text : String) :
    (s.openText p text).1.queue = [] ∧ ∀ d ∈ (s.openText p text).1.document,
      Quiet (s.openText p text).1.events ∧ d.text = text := by
  obtain heq | ⟨t, hbegin, heq⟩ := Session.openText_cases s p text
  · rw [heq, hdoc]
    exact ⟨hqueue, nofun⟩
  · obtain ⟨-, rfl⟩ := Session.beginOpen_eq_ok hbegin
    obtain ⟨d', hd', -, hfinish⟩ | ⟨-, hfinish⟩ | ⟨-, hfinish⟩ :=
      Session.finishOpen_cases { s with phase := .loading } (Document.ofText p text)
    · rw [heq, hfinish, Session.sendAll_eq, Session.emitAll]
      refine ⟨hqueue, fun d hd => ⟨?_, ?_⟩⟩
      · rw [hnil]
        exact .flatMap fun peer _ => quiet_addressed _ peer _
      · cases hd
        exact Document.text_of_openWith hd'
    · rw [heq, hfinish]
      exact ⟨hqueue, fun d hd => by simp [hdoc] at hd⟩
    · rw [heq, hfinish]
      exact ⟨hqueue, fun d hd => by simp [hdoc] at hd⟩

/-- A session that was opened with the text of its file is level with it. -/
theorem mirrors_opened (id : SessionId) (config : SyncConfig) (peers : List PeerId) (p : Profile)
    (text : String) : Mirrors (opened id config peers p text) .level ∧
      (opened id config peers p text).session.queue = [] := by
  have hconsistent := (Session.consistent_new id config).run (peers.map .subscribe)
  have hnamed : ((Session.new id config).run (peers.map .subscribe)).WellNamed :=
    (Session.wellNamed_new id config).run (by simp [Session.Command.Admissible])
  obtain ⟨hdoc, hnil⟩ := subscribe_of_document_none (s := Session.new id config) rfl rfl peers
  rw [opened]
  generalize (Session.new id config).run (peers.map .subscribe) = s at *
  have hqueue : s.queue = [] := by
    refine hconsistent.queue_nil (Option.not_isSome_iff_eq_none.1 fun hpending => ?_)
    have hsome := hconsistent.isSome_document hpending
    rw [hdoc] at hsome
    cases hsome
  obtain ⟨hempty, hopened⟩ := openText_of_document_none hdoc hqueue hnil p text
  have hwritten : ∀ d ∈ (s.openText p text).1.document,
      written text (s.openText p text).1.events = d.text := fun d hd =>
    (written_of_quiet (hopened d hd).1).trans (hopened d hd).2.symm
  refine ⟨.of_ask (b := ⟨s, text⟩) (c := .openText p text) hconsistent hnamed trivial
    (fun d hd => .inl (hwritten d hd)) fun d hd => .inl ⟨hwritten d hd, ?_⟩, hempty⟩
  rw [show (s.step (.openText p text)).1.queue = [] from hempty]
  exact ofPeers_nil

theorem standsAll_of_calm {moves : List Move} (h : Mirrors b .level)
    (hpeers : OfPeers b.session.queue.tail) (hadmits : b.AdmitsAll moves)
    (hcalm : b.CalmAll moves) : b.standsAll .level moves = .level := by
  induction moves generalizing b with
  | nil => rfl
  | cons m moves ih =>
    obtain ⟨hm, hmoves⟩ := hadmits
    obtain ⟨hstands, htail⟩ := h.stands_of_calm hpeers hm hcalm.1
    have hnext := h.step hm
    rw [hstands] at hnext
    rw [standsAll, hstands]
    exact ih hnext htail hmoves hcalm.2

end Moves

/-- While no acknowledgement is outstanding, the file holds the text of the document, unless the
    last change of the document came from the file. It does if it is level, it lacks just this
    change if it is behind, and it is always level when saves are made while no patch waits. -/
theorem file_eq_text [RegexLibrary] (id : SessionId) (config : SyncConfig) (peers : List PeerId)
    (p : Profile) (text : String) {moves : List Move}
    (hadmits : (opened id config peers p text).AdmitsAll moves) :
    let start := opened id config peers p text
    let stop := start.run moves
    (stop.session.pending = none → ∀ d ∈ stop.session.document,
      (stop.file = d.text ∨ FromFile stop.session) ∧
      (start.standsAll .level moves = .level → stop.file = d.text) ∧
      (start.standsAll .level moves = .behind →
        Lacks stop.session.history stop.file)) ∧
    (start.CalmAll moves → start.standsAll .level moves = .level) := by
  intro start stop
  obtain ⟨hopened, hempty⟩ := mirrors_opened id config peers p text
  have hmirrors : Mirrors stop (start.standsAll .level moves) := hopened.run hadmits
  refine ⟨fun hpending d hd => ?_, fun hcalm =>
    standsAll_of_calm hopened (by rw [hempty]; exact ofPeers_nil) hadmits hcalm⟩
  have hagrees := hmirrors.agrees d hd
  have htraced := hmirrors.traced d hd
  rw [hmirrors.consistent.queue_nil hpending] at hagrees htraced
  refine ⟨?_, fun hlevel => ?_, fun hbehind => ?_⟩
  · obtain htext | hfrom | ⟨sub, hsub, -⟩ := htraced
    · exact .inl htext
    · exact .inr hfrom
    · exact absurd hsub List.not_mem_nil
  · rw [hlevel] at hagrees
    obtain ⟨htext, -⟩ | ⟨front, sub, back, candidate, hnil, -⟩ := hagrees
    · exact htext
    · simp at hnil
  · rw [hbehind] at hagrees
    exact hagrees.1

/-- A save that waits before the patch of a peer. -/
theorem file_eq_text_first_in_queue :
    let start := opened ⟨"s1"⟩ {} [⟨"v"⟩]
      { id := "sh", lineComments := ["#"], strings := [.escaped "\""] } "# a\nx = 1\n"
    let moves : List Move := [.localEdit 0 ⟨0, [.replace ⟨"b1"⟩ "# b\n"]⟩, .save "# b\nx = 2\n",
      .submit ⟨"v"⟩ ⟨1, [.replace ⟨"b1"⟩ "# c\n"]⟩, .ack .fileSystem 1]
    start.AdmitsAll moves ∧ (start.run moves).session.pending = none ∧
      start.standsAll .level moves = .level ∧
      ∀ d ∈ (start.run moves).session.document, (start.run moves).file = d.text := by
  intro start moves
  have hadmits : start.AdmitsAll moves := by decide +kernel
  have hpending : (start.run moves).session.pending = none := by decide +kernel
  have hlevel : start.standsAll .level moves = .level := by decide +kernel
  exact ⟨hadmits, hpending, hlevel, fun d hd =>
    ((file_eq_text _ _ _ _ _ hadmits).1 hpending d hd).2.1 hlevel⟩

/-- The same save behind the patch of the peer is lost on the file. -/
example :
    let start := opened ⟨"s1"⟩ {} [⟨"v"⟩]
      { id := "sh", lineComments := ["#"], strings := [.escaped "\""] } "# a\nx = 1\n"
    let moves : List Move := [.localEdit 0 ⟨0, [.replace ⟨"b1"⟩ "# b\n"]⟩,
      .submit ⟨"v"⟩ ⟨1, [.replace ⟨"b1"⟩ "# c\n"]⟩, .save "# b\nx = 2\n", .ack .fileSystem 1]
    start.AdmitsAll moves ∧ (start.run moves).session.pending = none ∧
      start.standsAll .level moves = .behind ∧ (start.run moves).file = "# c\nx = 1\n" ∧
      (start.run moves).session.document.map (·.text) = some "# c\nx = 2\n" := by
  decide +kernel

end LiterateSync.Backing
