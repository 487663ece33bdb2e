import Mathlib
import LiterateSync.Text.Pattern.Library
import LiterateSync.Proofs.Files.Replace
import LiterateSync.Proofs.Session.Writing
import LiterateSync.Proofs.Workspace.Backing

namespace LiterateSync

open Session (Underway)

/-- Whether a request comes from a peer that is not the file. -/
def Request.IsOfPeer : Request → Prop
  | .message sender _ | .viewEdit sender _ _ => sender ≠ .fileSystem
  | .fileChanged _ | .close => False
  | .subscribe .. | .unsubscribe _ | .localEdit _ | .snapshot | .phase => True

namespace Task

variable {t : Task} {h : Host} {source : String} {backing : Option String} {files : Files}
  {log : List Event}

/-- Whether the file of a task can be written, and holds what was last written to it, or what it
    held at first. -/
def Holds (backing : Option String) (files : Files) (log : List Event) (t : Task) (h : Host) :
    Prop :=
  t.backing = backing ∧ ∀ path ∈ backing, h.files.IsWritable path ∧
    h.files.read path = ((revisionsIn log).getLast?.map (·.2)).elim (files.read path) .ok

theorem Holds.writeThrough (hfile : t.Holds backing files log h) (text : String) :
    (t.writeThrough h text).2 = true ∧ ∀ path ∈ backing,
      (t.writeThrough h text).1.files.IsWritable path ∧
        (t.writeThrough h text).1.files.read path = .ok text := by
  obtain ⟨hbacking, hwritable⟩ := hfile
  rw [Task.writeThrough, hbacking]
  cases backing with
  | none => simp
  | some path =>
    obtain ⟨hok, hread, hagain⟩ := (hwritable path rfl).1.replace text
    refine ⟨by simp [hok], fun other hother => ?_⟩
    cases hother
    simp only
    exact ⟨hagain, hread⟩

/-- Whatever is asked for, the file holds what was last written. -/
theorem keeps_holds [RegexLibrary] (backing : Option String) (files : Files) :
    Keeps (fun _ => True) (fun change => ∀ h, (change h).files = h.files)
      (Holds backing files) where
  obey _ _ hinv := hinv
  subscribe _ _ _ hinv := ⟨hinv.1, by simpa [subscribe] using hinv.2⟩
  dismiss _ _ hinv := ⟨hinv.1, by simpa [dismiss] using hinv.2⟩
  dropOutboxes _ hinv := ⟨hinv.1, by simpa [dropOutboxes] using hinv.2⟩
  carryOut := by
    rintro log t h e rest - hinv
    have hrest : (t.withEvents rest).Holds backing files log h := hinv
    refine ⟨(backing_carryOut _ h e).trans hinv.1, ?_⟩
    cases e with
    | send peer m =>
      rw [carryOut, files_deliver, revisionsIn_append]
      simpa [revisionsIn] using hinv.2
    | writeFile revision text =>
      rw [((t.withEvents rest).carryOut_writeFile h revision text).2, revisionsIn_append]
      simpa [revisionsIn] using (hrest.writeThrough text).2
  drop _ _ hinv := hinv
  meanwhile change hchange hinv := ⟨hinv.1, by rw [hchange]; exact hinv.2⟩

theorem underway_acknowledged {revision : Nat} {text : String} {rest : List Event} {s : Session}
    (hevents : s.events = .writeFile revision text :: rest) (hs : s.Underway source log) :
    (acknowledged { s with events := rest } revision).Underway source
      (log ++ [.writeFile revision text]) := by
  have hwritten : ∃ d, s.document = some d ∧
      d.WrittenBy source (revisionsIn (log ++ [.writeFile revision text] ++ rest)) := by
    rw [List.append_assoc, List.singleton_append, ← hevents]
    exact hs.document
  have hopen : s.phase ≠ .closed := by
    obtain ⟨hphase, -⟩ | ⟨hphase, -⟩ := hs.outstanding <;> simp [hphase]
  obtain ⟨hphase, hpending⟩ | ⟨hphase, p, last, other, hp, hawaiting, hle, hmem⟩ := hs.outstanding
  · have hack : { s with events := rest }.ack .fileSystem revision =
        .ok { s with events := rest } := by
      simp [Session.ack, hopen, hpending]
    rw [acknowledged, hack]
    exact ⟨hs.queue_nil, hwritten, .inl ⟨hphase, hpending⟩⟩
  · by_cases hnow : p.revision ≤ revision
    · have hack : { s with events := rest }.ack .fileSystem revision =
          .ok { s with events := rest, pending := none }.drain := by
        simp [Session.ack, hopen, hp, hawaiting, hnow]
      have hidle : { s with events := rest, pending := none }.drain =
          { s with events := rest, pending := none, phase := .synced } :=
        Session.drain_idle hs.queue_nil rfl hs.isSome_document
      rw [acknowledged, hack, hidle]
      exact ⟨hs.queue_nil, hwritten, .inl ⟨rfl, rfl⟩⟩
    · have hack : { s with events := rest }.ack .fileSystem revision =
          .ok { s with events := rest } := by
        simp [Session.ack, hopen, hp, hnow]
      have hlater : .writeFile last other ∈ rest := by
        rw [hevents, List.mem_cons] at hmem
        refine hmem.resolve_left fun heq => ?_
        cases heq
        exact hnow hle
      rw [acknowledged, hack]
      exact ⟨hs.queue_nil, hwritten, .inr ⟨hphase, p, last, other, hp, hawaiting, hle, hlater⟩⟩

/-- With each event that is carried out, the work goes on. -/
theorem underway_carryOut {e : Event} {rest : List Event} (hevents : t.session.events = e :: rest)
    (ht : t.session.Underway source log) (hfile : t.Holds backing files log h) :
    ((t.withEvents rest).carryOut h e).1.session.Underway source (log ++ [e]) := by
  cases e with
  | send peer m =>
    have hrest : (t.withEvents rest).session.Underway source (log ++ [.send peer m]) := by
      refine ⟨ht.queue_nil, ?_, ?_⟩
      · rw [List.append_assoc, List.singleton_append, withEvents, ← hevents]
        exact ht.document
      · refine ht.outstanding.imp_right (And.imp_right ?_)
        rintro ⟨p, revision, text, hp, hawaiting, hle, hmem⟩
        rw [hevents, List.mem_cons] at hmem
        exact ⟨p, revision, text, hp, hawaiting, hle, hmem.resolve_left nofun⟩
    rw [carryOut, deliver]
    split
    · exact hrest
    · split
      · exact hrest
      · exact hrest.unsubscribe peer
  | writeFile revision text =>
    have hrest : (t.withEvents rest).Holds backing files log h := hfile
    rw [((t.withEvents rest).carryOut_writeFile h revision text).1,
      if_pos (hrest.writeThrough text).1]
    exact underway_acknowledged hevents ht

/-- The first of the things to do is done, if there is one. -/
def perform (x : Task × Host) : Task × Host :=
  match x.1.session.events with
  | [] => x
  | e :: rest => (x.1.withEvents rest).carryOut x.2 e

/-- All things are done one after the other, also those that come up meanwhile. -/
theorem exists_iterate_perform (t : Task) (h : Host) : ∃ n, perform^[n] (t, h) = t.flush h := by
  induction t, h using flush.induct with
  | case1 t h hrest => exact ⟨0, (flush_of_nil hrest).symm⟩
  | case2 t h e rest hevents next =>
    rename_i ih
    obtain ⟨n, hn⟩ := ih
    refine ⟨n + 1, ?_⟩
    rw [Function.iterate_succ_apply, flush_of_cons hevents, ← hn, perform, hevents]

theorem underway_flush [RegexLibrary] (ht : t.session.Underway source log)
    (hfile : t.Holds backing files log h) :
    (t.flush h).1.session.Underway source (log ++ t.flushed h) := by
  induction t, h using flush.induct generalizing log with
  | case1 t h hrest =>
    rw [flush_of_nil hrest, flushed_of_nil hrest, List.append_nil]
    exact ht
  | case2 t h e rest hevents next =>
    rename_i ih
    rw [flush_of_cons hevents, flushed_of_cons hevents, List.append_cons]
    exact ih (underway_carryOut hevents ht hfile)
      ((keeps_holds backing files).carryOut hevents hfile)

variable {r : Request}

theorem underway_accept [RegexLibrary] (ht : t.session.Underway source log)
    (hrest : t.session.events = []) (hr : r.IsOfPeer) (now : Nat) (h : Host) :
    (t.accept now h r).1.session.Underway source log := by
  cases r with
  | subscribe peer outbox => exact ht.subscribe peer
  | unsubscribe peer => exact ht.unsubscribe peer
  | message sender m => exact ht.step hrest hr
  | viewEdit sender base view => exact ht.step hrest hr
  | localEdit patch => exact ht.step hrest trivial
  | snapshot => exact ht
  | phase => exact ht
  | fileChanged | close => exact hr.elim

/-- A task with nothing left to do, whose patches were all those of peers. -/
structure Level (source : String) (backing : Option String) (files : Files) (log : List Event)
    (t : Task) (h : Host) : Prop where
  underway : t.session.Underway source log
  events_nil : t.session.events = []
  holds : t.Holds backing files log h

theorem level_flush [RegexLibrary] (ht : t.session.Underway source log)
    (hfile : t.Holds backing files log h) :
    (t.flush h).1.Level source backing files (log ++ t.flushed h) (t.flush h).2 :=
  ⟨underway_flush ht hfile, events_flush t h, (keeps_holds backing files).flush hfile⟩

namespace Level

theorem isRunning (ht : t.Level source backing files log h) : t.isRunning = true := by
  simp [Task.isRunning, (ht.underway.synced ht.events_nil).1]

variable [RegexLibrary]

theorem handle (ht : t.Level source backing files log h) (hr : r.IsOfPeer) (now : Nat) :
    (t.handle now h r).1.Level source backing files (log ++ t.carried now h r)
      (t.handle now h r).2.1 := by
  have hflushed := level_flush (underway_accept ht.underway ht.events_nil hr now h)
    ((keeps_holds backing files).accept ht.holds now trivial)
  rw [← handle_eq ht.events_nil now h r] at hflushed
  exact hflushed

theorem handleAll (ht : t.Level source backing files log h) (now : Nat) {requests : List Request}
    (hrequests : ∀ r ∈ requests, r.IsOfPeer) :
    (t.handleAll now h requests).1.Level source backing files
      (log ++ t.carriedAll now h requests) (t.handleAll now h requests).2.1 := by
  induction requests generalizing log t h with
  | nil =>
    rw [carriedAll, List.append_nil]
    exact ht
  | cons r requests ih =>
    obtain ⟨hr, hrequests⟩ := List.forall_mem_cons.1 hrequests
    have hnext := ih (ht.handle hr now) hrequests
    rw [carriedAll, Task.handleAll, if_pos ht.isRunning, if_pos ht.isRunning, ← List.append_assoc]
    exact hnext

theorem tick (ht : t.Level source backing files log h) (now : Nat) :
    (t.tick h now).1.Level source backing files (log ++ (t.obey (.tick now)).flushed h)
      (t.tick h now).2 := by
  rw [tick_eq ht.events_nil]
  exact level_flush (ht.underway.step ht.events_nil trivial) ht.holds

end Level

end Task

/-- What holds of a task whose document is being made, as long as no end is asked for. -/
structure Loading.Waits (spec : SessionSpec) (l : Loading) : Prop where
  session_eq : ∃ subscribers, l.task.session =
    { Session.new spec.id spec.config with phase := .loading, subscribers }
  deferred : ∀ r ∈ l.deferred, r.IsOfPeer

namespace Loading.Waits

variable {spec : SessionSpec} {l : Loading} {r : Request} {d : Document} [RegexLibrary]

theorem receive (hl : l.Waits spec) (h : Host) (hr : r.IsOfPeer) :
    (l.receive h r).1.Waits spec := by
  obtain ⟨subscribers, hsession⟩ := hl.session_eq
  obtain ⟨-, hnow, heq⟩ | ⟨-, heq⟩ | ⟨-, heq⟩ := l.receive_cases 0 h r
  · rw [heq]
    cases r with
    | subscribe peer outbox =>
      refine ⟨?_, hl.deferred⟩
      change ∃ subscribers, l.task.session.subscribe peer = _
      rw [hsession, Session.subscribe]
      split
      · exact ⟨subscribers, rfl⟩
      · exact ⟨_, rfl⟩
    | close => exact hr.elim
    | _ => exact absurd trivial hnow
  · rw [heq]
    exact ⟨hl.session_eq, List.forall_mem_append.2 ⟨hl.deferred, List.forall_mem_singleton.2 hr⟩⟩
  · rw [heq]
    exact hl

/-- The document that is made is what the task starts from. -/
theorem underway (hl : l.Waits spec) (hmade : Document.ofText spec.profile spec.text = .ok d) :
    (l.task.session.finishOpen (.ok d)).2 = .ok () ∧
      (l.task.obey (.finishOpen (.ok d))).session.Underway spec.text [] := by
  obtain ⟨subscribers, hsession⟩ := hl.session_eq
  change _ ∧ (l.task.session.finishOpen (.ok d)).1.Underway spec.text []
  rw [hsession]
  have hopened : Underway spec.text []
      { Session.new spec.id spec.config with
        phase := .synced, document := some d, subscribers } :=
    ⟨rfl, ⟨d, rfl, .nil, nofun, .inl ⟨rfl, Document.text_of_openWith hmade⟩⟩, .inl ⟨rfl, rfl⟩⟩
  refine ⟨rfl, ?_⟩
  rw [Session.finishOpen]
  simp only
  rw [Session.sendAll_eq]
  exact hopened.quiet (.flatMap fun peer _ => Backing.quiet_addressed _ peer _) rfl rfl rfl rfl rfl

end Loading.Waits

/-- Whether something that others do leaves the files alone. -/
def Host.KeepsFiles (change : Host → Host) : Prop :=
  ∀ h, (change h).files = h.files

namespace Scene

/-- What holds of a task, with the events that it has carried out, when no request is being
    handled. -/
structure InOrder (spec : SessionSpec) (files : Files) (log : List Event) (s : Scene) : Prop where
  /-- The texts that are written are of later and later revisions. -/
  increasing : (revisionsIn log).Pairwise (·.1 < ·.1)
  /-- Once the document is made, nothing waits and nothing is left to be done, and the file holds
      the text of the document, unless it held another text at first and has not been written. -/
  ready : ∀ t, s.stage = .ready t → t.session.phase = .synced ∧ t.session.pending = none ∧
    t.session.queue = [] ∧ t.session.events = [] ∧
    ∃ d, t.session.document = some d ∧ ∀ path ∈ spec.backing,
      files.read path = .ok spec.text ∨ revisionsIn log ≠ [] →
      s.host.files.read path = .ok d.text

/-- How far a task has come whose patches were all those of peers. -/
inductive Follows (spec : SessionSpec) (files : Files) : List Event → Scene → Prop where
  | loading {l : Loading} {h : Host} (hl : l.Waits spec)
      (hfile : l.task.Holds spec.backing files [] h) : Follows spec files [] ⟨.loading l, h⟩
  | ready {log : List Event} {t : Task} {h : Host}
      (ht : t.Level spec.text spec.backing files log h) : Follows spec files log ⟨.ready t, h⟩

namespace Follows

variable {spec : SessionSpec} {files : Files} {log : List Event} {s : Scene} {d : Document}
  {l : Loading} {h : Host} {r : Request}

theorem inOrder (hs : s.Follows spec files log) : s.InOrder spec files log := by
  cases hs with
  | loading hl hfile => exact ⟨.nil, fun _ ht => by cases ht⟩
  | ready ht =>
    obtain ⟨d, hdoc, hwritten⟩ := ht.underway.document
    rw [ht.events_nil, List.append_nil] at hwritten
    refine ⟨hwritten.increasing, fun t' ht' => ?_⟩
    cases ht'
    obtain ⟨hphase, hpending⟩ := ht.underway.synced ht.events_nil
    refine ⟨hphase, hpending, ht.underway.queue_nil, ht.events_nil, d, hdoc,
      fun path hpath hfile => ?_⟩
    rw [(ht.holds.2 path hpath).2]
    obtain ⟨hnone, htext⟩ | hlast := hwritten.last
    · rw [hnone, htext]
      exact hfile.resolve_right (absurd hnone ·)
    · rw [hlast]
      rfl

variable [RegexLibrary]

theorem receive (hl : l.Waits spec) (hfile : l.task.Holds spec.backing files [] h)
    (hr : r.IsOfPeer) :
    Follows spec files [] ⟨.loading (l.receive h r).1, (l.receive h r).2⟩ := by
  refine .loading (hl.receive h hr) ?_
  obtain ⟨-, -, heq⟩ | ⟨-, heq⟩ | ⟨-, heq⟩ := l.receive_cases 0 h r
  · rw [heq]
    exact (Task.keeps_holds spec.backing files).accept hfile 0 trivial
  · rw [heq]
    exact hfile
  · rw [heq]
    exact hfile

theorem made (hl : l.Waits spec) (hfile : l.task.Holds spec.backing files [] h)
    (hmade : Document.ofText spec.profile spec.text = .ok d) (now : Nat) :
    Follows spec files (carried ⟨.loading l, h⟩ (.made now (.ok d)))
      (step ⟨.loading l, h⟩ (.made now (.ok d))) := by
  obtain ⟨houtcome, hopened⟩ := hl.underway hmade
  have hflushed := Task.level_flush hopened ((Task.keeps_holds spec.backing files).obey
    (.finishOpen (.ok d)) trivial hfile)
  have hall := hflushed.handleAll now hl.deferred
  simp only [carried, step, houtcome, l.finish_of_ok now h houtcome]
  exact .ready hall

theorem step (hs : s.Follows spec files log) {x : Happening}
    (hmade : Document.ofText spec.profile spec.text = .ok d)
    (hx : x.Allowed Request.IsOfPeer Host.KeepsFiles)
    (hresult : ∀ now result, x = .made now result → result = .ok d) :
    (s.step x).Follows spec files (log ++ s.carried x) := by
  cases hs with
  | loading hl hfile =>
    rw [List.nil_append]
    cases x with
    | request now r => exact receive hl hfile hx
    | made now result =>
      cases hresult now result rfl
      exact made hl hfile hmade now
    | tick now => exact .loading hl hfile
    | meanwhile change =>
      exact .loading hl ((Task.keeps_holds spec.backing files).meanwhile change hx hfile)
  | ready ht =>
    cases x with
    | request now r =>
      simp only [Scene.step, carried, ht.isRunning, if_true]
      exact .ready (ht.handle hx now)
    | made now result =>
      rw [carried, List.append_nil]
      exact .ready ht
    | tick now => exact .ready (ht.tick now)
    | meanwhile change =>
      rw [carried, List.append_nil]
      exact .ready ⟨ht.underway, ht.events_nil,
        (Task.keeps_holds spec.backing files).meanwhile change hx ht.holds⟩

theorem run (hs : s.Follows spec files log) {happenings : List Happening}
    (hmade : Document.ofText spec.profile spec.text = .ok d)
    (hallowed : ∀ x ∈ happenings, x.Allowed Request.IsOfPeer Host.KeepsFiles)
    (hresults : ∀ now result, .made now result ∈ happenings → result = .ok d) :
    (s.run happenings).Follows spec files (log ++ s.log happenings) := by
  induction happenings generalizing s log with
  | nil =>
    rw [Scene.log, List.append_nil]
    exact hs
  | cons x happenings ih =>
    obtain ⟨hx, hallowed⟩ := List.forall_mem_cons.1 hallowed
    have hnext := hs.step hmade hx fun now result heq =>
      hresults now result (heq ▸ List.mem_cons_self)
    rw [Scene.log, ← List.append_assoc]
    exact ih hnext hallowed fun now result hmem => hresults now result (List.mem_cons_of_mem _ hmem)

/-- The requests that wait for the document are handled one after the other. -/
theorem between (hs : s.Follows spec files log) (hstage : s.stage = .loading l)
    (hmade : Document.ofText spec.profile spec.text = .ok d) {front : List Request}
    (hfront : front <+: l.deferred) (now : Nat) :
    let start : Scene := ⟨.loading { l with deferred := front }, s.host⟩
    (start.step (.made now (.ok d))).Follows spec files (start.carried (.made now (.ok d))) := by
  cases hs with
  | loading hl hfile =>
    cases hstage
    have hwaits : Loading.Waits spec { l with deferred := front } :=
      ⟨hl.session_eq, fun r hr => hl.deferred r (hfront.subset hr)⟩
    exact made hwaits hfile hmade now
  | ready ht => cases hstage

end Follows

/-- The effects of what is asked for come before the answers. Nobody but the task writes to its
    file, all messages and edits come from peers, and writes succeed.

  - The things that a session wants are all done one after the other, until none is left.
  - The session and the file are in order after each request, also between the requests that have
    waited for the document. -/
theorem effects_before_replies [RegexLibrary] (spec : SessionSpec) (h : Host)
    (hmade : ∃ d, Document.ofText spec.profile spec.text = .ok d)
    (hwrites : ∀ path ∈ spec.backing, ∀ text, (h.files.replace path text).2 = .ok ())
    (happenings : List Happening)
    (hallowed : ∀ x ∈ happenings, x.Allowed Request.IsOfPeer Host.KeepsFiles)
    (hresults : ∀ now result, .made now result ∈ happenings →
      result = Document.ofText spec.profile spec.text) :
    let last := (start spec h).run happenings
    (∀ (t : Task) (h : Host), ∃ n, Task.perform^[n] (t, h) = t.flush h ∧
        (t.flush h).1.session.events = []) ∧
      last.InOrder spec h.files ((start spec h).log happenings) ∧
      ∀ l, last.stage = .loading l → ∀ front, front <+: l.deferred → ∀ now,
        let waiting : Scene := ⟨.loading { l with deferred := front }, last.host⟩
        let finished : Happening := .made now (Document.ofText spec.profile spec.text)
        (waiting.step finished).InOrder spec h.files (waiting.carried finished) := by
  intro last
  obtain ⟨d, hmade⟩ := hmade
  have hstart : Follows spec h.files [] (start spec h) :=
    .loading ⟨⟨[], rfl⟩, nofun⟩
      ⟨rfl, fun path hpath => ⟨Files.isWritable_iff.2 ⟨"", hwrites path hpath ""⟩, rfl⟩⟩
  have hlast := hstart.run hmade hallowed fun now result hmem =>
    (hresults now result hmem).trans hmade
  refine ⟨fun t h => ?_, hlast.inOrder, fun l hstage front hfront now => ?_⟩
  · obtain ⟨n, hn⟩ := Task.exists_iterate_perform t h
    exact ⟨n, hn, t.events_flush h⟩
  · rw [hmade]
    exact (hlast.between hstage hmade hfront now).inOrder

/-- An edit and the patch of a peer come while the document is being made. -/
theorem effects_before_replies_early_edits :
    let p : Profile := { id := "sh", lineComments := ["#"], strings := [.escaped "\""] }
    let spec : SessionSpec := ⟨⟨"s1"⟩, "x\n", p, {}, some "a.sh"⟩
    let h : Host := { files := { entries := [(["a.sh"], .text "x\n")] } }
    let happenings : List Happening := [.request 0 (.localEdit ⟨0, [.replace ⟨"b1"⟩ "y\n"]⟩),
      .request 1 (.message ⟨"v"⟩ ⟨⟨"s1"⟩, .patch ⟨1, [.replace ⟨"b1"⟩ "z\n"]⟩⟩),
      .made 2 (Document.ofText p "x\n"), .tick 3]
    let last := (start spec h).run happenings
    (revisionsIn ((start spec h).log happenings)).Pairwise (·.1 < ·.1) ∧
      ∃ t d, last.stage = .ready t ∧ t.session.phase = .synced ∧ t.session.document = some d ∧
        last.host.files.read "a.sh" = .ok d.text := by
  intro p spec h happenings
  have hmade : ∃ d, Document.ofText p "x\n" = .ok d :=
    ⟨⟨[⟨⟨"b1"⟩, .code, "x\n"⟩], 0, p, ⟨none, 1⟩⟩, by decide +kernel⟩
  have hwritable : h.files.IsWritable "a.sh" := Files.isWritable_iff.2 ⟨"", by decide +kernel⟩
  have hread : h.files.read "a.sh" = .ok "x\n" := by decide +kernel
  obtain ⟨-, ⟨hincreasing, hready⟩, -⟩ := effects_before_replies spec h hmade
    (by rintro path ⟨⟩ text; exact (hwritable.replace text).1) happenings
    (by simp [happenings, Happening.Allowed, Request.IsOfPeer, PeerId.fileSystem])
    (by simp [happenings, spec])
  have hstage : ∃ t, ((start spec h).run happenings).stage = .ready t := ⟨_, rfl⟩
  intro last
  obtain ⟨t, ht⟩ := hstage
  obtain ⟨hphase, -, -, -, d, hdoc, hfile⟩ := hready t ht
  exact ⟨hincreasing, t, d, ht, hphase, hdoc, hfile "a.sh" rfl (.inl hread)⟩

set_option maxRecDepth 20000 in
/-- A task that is given another text than its file holds does not write it before there is a
    change. -/
theorem file_of_unwritten :
    let p : Profile := { id := "sh", lineComments := ["#"], strings := [.escaped "\""] }
    let spec : SessionSpec := ⟨⟨"s1"⟩, "x\n", p, {}, some "a.sh"⟩
    let h : Host := { files := { entries := [(["a.sh"], .text "y\n")] } }
    let last := (start spec h).run [.made 0 (Document.ofText p "x\n"), .request 1 .phase]
    (∀ text, (h.files.replace "a.sh" text).2 = .ok ()) ∧
      last.task.session.phase = .synced ∧
      last.task.session.document.map (·.text) = some "x\n" ∧
      last.host.files.read "a.sh" = .ok "y\n" := by
  intro p spec h
  have hmade : Document.ofText p "x\n" =
      .ok ⟨[⟨⟨"b1"⟩, .code, "x\n"⟩], 0, p, ⟨none, 1⟩⟩ := by decide +kernel
  have hwritable : h.files.IsWritable "a.sh" := Files.isWritable_iff.2 ⟨"", by decide +kernel⟩
  rw [hmade]
  refine ⟨fun text => (hwritable.replace text).1, ?_⟩
  subst p spec h
  refine ⟨?_, ?_, ?_⟩ <;> cbv

end Scene

end LiterateSync
