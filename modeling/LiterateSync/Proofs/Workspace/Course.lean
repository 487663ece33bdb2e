import LiterateSync.Workspace.Basic

namespace LiterateSync

namespace Task

/-- The task after a command to its session, before anything is done that the session wants. -/
def obey [RegexLibrary] (t : Task) (c : Session.Command) : Task :=
  { t with session := (t.session.step c).1 }

/-- The task and the host after a peer has left. -/
def dismiss (t : Task) (h : Host) (peer : PeerId) : Task × Host :=
  ({ t.release peer with session := t.session.unsubscribe peer }, (t.dropOutbox h peer).2)

/-- The task and the host after a request, before anything is done that the session wants. -/
def accept [RegexLibrary] (now : Nat) (t : Task) (h : Host) : Request → Task × Host
  | .subscribe peer outbox => t.subscribe h peer outbox
  | .unsubscribe peer => t.dismiss h peer
  | .message sender m => (t.obey (.message sender m), h)
  | .viewEdit sender base view => (t.obey (.viewEdit sender base view), h)
  | .localEdit patch => (t.obey (.localEdit now patch), h)
  | .fileChanged text => (t.obey (.fileChanged text), h)
  | .snapshot | .phase => (t, h)
  | .close => (t.obey .close).dropOutboxes h

/-- The events that are carried out until all is done that the session wants, in order. -/
def flushed (t : Task) (h : Host) : List Event :=
  match _hevents : t.session.events with
  | [] => []
  | e :: rest =>
    let next := (t.withEvents rest).carryOut h e
    e :: flushed next.1 next.2
termination_by t.workload
decreasing_by exact workload_carryOut_lt t h e rest ‹_›

/-- The events that are carried out for a request. -/
def carried [RegexLibrary] (now : Nat) (t : Task) (h : Host) (r : Request) : List Event :=
  let (t, h) := t.accept now h r
  t.flushed h

/-- The events that are carried out for several requests in order. -/
def carriedAll [RegexLibrary] (now : Nat) (t : Task) (h : Host) : List Request → List Event
  | [] => []
  | r :: requests =>
    if t.isRunning then
      let (next, host, _) := t.handle now h r
      t.carried now h r ++ next.carriedAll now host requests
    else t.carriedAll now h requests

variable {t : Task} {h : Host} {e : Event} {rest : List Event} {now : Nat}

theorem flush_of_nil (hrest : t.session.events = []) : t.flush h = (t, h) := by
  rw [flush]
  split
  · rfl
  · simp_all

theorem flush_of_cons (hevents : t.session.events = e :: rest) :
    t.flush h = (((t.withEvents rest).carryOut h e).1).flush
      ((t.withEvents rest).carryOut h e).2 := by
  rw [flush]
  split
  · simp_all
  · simp_all

theorem flushed_of_nil (hrest : t.session.events = []) : t.flushed h = [] := by
  rw [flushed]
  split
  · rfl
  · simp_all

theorem flushed_of_cons (hevents : t.session.events = e :: rest) :
    t.flushed h = e :: (((t.withEvents rest).carryOut h e).1).flushed
      ((t.withEvents rest).carryOut h e).2 := by
  rw [flushed]
  split
  · simp_all
  · simp_all

theorem isRunning_eq_false_iff :
    t.isRunning = false ↔ t.session.phase = .idle ∨ t.session.phase = .closed := by
  rw [isRunning]
  by_cases hidle : t.session.phase = .idle <;> simp [hidle]

/-- Nothing is left to be done behind a request. -/
theorem events_flush (t : Task) (h : Host) : (t.flush h).1.session.events = [] := by
  induction t, h using flush.induct with
  | case1 t h hrest => rw [flush_of_nil hrest, hrest]
  | case2 t h e rest hevents next ih => rw [flush_of_cons hevents, ih]

/-- Each request is accepted, and then all is done that the session wants. -/
theorem handle_eq [RegexLibrary] (hrest : t.session.events = []) (now : Nat) (h : Host)
    (r : Request) :
    ((t.handle now h r).1, (t.handle now h r).2.1) =
      (t.accept now h r).1.flush (t.accept now h r).2 := by
  cases r with
  | subscribe peer outbox => rfl
  | unsubscribe peer => exact (flush_of_nil (t := (t.dismiss h peer).1) hrest).symm
  | message sender m => rfl
  | viewEdit sender base view => rfl
  | localEdit patch => rfl
  | fileChanged text => rfl
  | snapshot => exact (flush_of_nil hrest).symm
  | phase => exact (flush_of_nil hrest).symm
  | close => exact (flush_of_nil (t := ((t.obey .close).dropOutboxes h).1) hrest).symm

theorem tick_eq [RegexLibrary] (hrest : t.session.events = []) (h : Host) (now : Nat) :
    t.tick h now = (t.obey (.tick now)).flush h := by
  have hobey : t.obey (.tick now) = { t with session := (t.session.tick now).1 } := rfl
  rw [hobey, tick]
  by_cases hexpired : (t.session.tick now).2 = true
  · simp only [hexpired, if_true]
  · have hsame : (t.session.tick now).1 = t.session := by
      rw [Session.tick] at hexpired ⊢
      split
      · split
        · simp_all
        · rfl
      · rfl
    simp only [hexpired, hsame]
    exact (flush_of_nil hrest).symm

theorem events_handle [RegexLibrary] (hrest : t.session.events = []) (now : Nat) (h : Host)
    (r : Request) : (t.handle now h r).1.session.events = [] := by
  rw [show (t.handle now h r).1 = ((t.accept now h r).1.flush (t.accept now h r).2).1 from
    congrArg Prod.fst (handle_eq hrest now h r)]
  exact events_flush _ _

end Task

/-- How far a task has come: whether its document is still being made. -/
inductive Stage where
  | loading (l : Loading)
  | ready (t : Task)

def Stage.task : Stage → Task
  | .loading l => l.task
  | .ready t => t

/-- The requests that wait for the document. -/
def Stage.deferred : Stage → List Request
  | .loading l => l.deferred
  | .ready _ => []

/-- A task at some time, and what it acts on. -/
structure Scene where
  stage : Stage
  host : Host

/-- What can happen to a task. -/
inductive Happening where
  | request (now : Nat) (r : Request)
  /-- The attempt to make the document has come to an end. -/
  | made (now : Nat) (result : Except SegmentError Document)
  | tick (now : Nat)
  /-- Others do something to the files and to the outboxes. -/
  | meanwhile (change : Host → Host)

namespace Scene

/-- A task at its start. -/
def start (spec : SessionSpec) (h : Host) : Scene :=
  ⟨.loading (.ofSpec spec), h⟩

def task (s : Scene) : Task :=
  s.stage.task

def step [RegexLibrary] (s : Scene) : Happening → Scene
  | .request now r =>
    match s.stage with
    | .loading l =>
      let (l, h) := l.receive s.host r
      ⟨.loading l, h⟩
    | .ready t =>
      if t.isRunning then
        let (t, h, _) := t.handle now s.host r
        ⟨.ready t, h⟩
      else { s with host := Workspace.refuse s.host r }
  | .made now result =>
    match s.stage with
    | .loading l =>
      let (t, h, _) := l.finish now s.host result
      ⟨.ready t, h⟩
    | .ready _ => s
  | .tick now =>
    match s.stage with
    | .loading _ => s
    | .ready t =>
      let (t, h) := t.tick s.host now
      ⟨.ready t, h⟩
  | .meanwhile change => { s with host := change s.host }

/-- The events that a task carries out when something happens. -/
def carried [RegexLibrary] (s : Scene) : Happening → List Event
  | .request now r =>
    match s.stage with
    | .loading _ => []
    | .ready t => if t.isRunning then t.carried now s.host r else []
  | .made now result =>
    match s.stage with
    | .loading l =>
      match (l.task.session.finishOpen result).2 with
      | .error _ => []
      | .ok () =>
        let t := l.task.obey (.finishOpen result)
        let (next, host) := t.flush s.host
        t.flushed s.host ++ next.carriedAll now host l.deferred
    | .ready _ => []
  | .tick now =>
    match s.stage with
    | .loading _ => []
    | .ready t => (t.obey (.tick now)).flushed s.host
  | .meanwhile _ => []

/-- The scene after several things have happened in order. -/
def run [RegexLibrary] (s : Scene) (happenings : List Happening) : Scene :=
  happenings.foldl step s

/-- The events that a task carries out while several things happen in order. -/
def log [RegexLibrary] (s : Scene) : List Happening → List Event
  | [] => []
  | x :: happenings => s.carried x ++ (s.step x).log happenings

/-- Requests that come before the document is made are received one after the other. -/
theorem run_requests [RegexLibrary] (now : Nat) (l : Loading) (h : Host) (requests : List Request) :
    (⟨.loading l, h⟩ : Scene).run (requests.map (.request now)) =
      ⟨.loading (l.receiveAll h requests).1, (l.receiveAll h requests).2⟩ := by
  induction requests generalizing l h with
  | nil => rfl
  | cons r requests ih => exact ih (l.receive h r).1 (l.receive h r).2

/-- A start to which some requests come at once is a course like any other. -/
theorem run_start [RegexLibrary] (now : Nat) (h : Host) (spec : SessionSpec)
    (early : List Request) :
    (start spec h).run (early.map (.request now) ++
      [.made now (Document.ofText spec.profile spec.text)]) =
      ⟨.ready (Loading.run now h spec early).1, (Loading.run now h spec early).2.1⟩ := by
  have hrequests := run_requests now (.ofSpec spec) h early
  rw [run] at hrequests ⊢
  rw [List.foldl_append, start, hrequests]
  rfl

end Scene

/-- Whether a request that comes while the document is being made is put off. -/
def Request.CanWait : Request → Prop
  | .subscribe .. | .close => False
  | _ => True

/-- The commands by which neither a peer comes or goes nor a document is asked for. -/
def Session.Command.IsPlain : Session.Command → Prop
  | .beginOpen | .openText .. | .subscribe _ | .unsubscribe _ => False
  | _ => True

/-- A property of a task, of what it acts on and of what it has carried out that is kept by all
    that happens, if the requests and what others do are allowed. -/
structure Keeps [RegexLibrary] (P : Request → Prop) (Q : (Host → Host) → Prop)
    (I : List Event → Task → Host → Prop) : Prop where
  obey : ∀ {log : List Event} {t : Task} {h : Host} (c : Session.Command), c.IsPlain →
    I log t h → I log (t.obey c) h
  subscribe : ∀ {log : List Event} {t : Task} {h : Host} (peer : PeerId) (outbox : OutboxId),
    P (.subscribe peer outbox) → I log t h →
      I log (t.subscribe h peer outbox).1 (t.subscribe h peer outbox).2
  dismiss : ∀ {log : List Event} {t : Task} {h : Host} (peer : PeerId),
    P (.unsubscribe peer) → I log t h → I log (t.dismiss h peer).1 (t.dismiss h peer).2
  dropOutboxes : ∀ {log : List Event} {t : Task} {h : Host}, t.isRunning = false → I log t h →
    I log (t.dropOutboxes h).1 (t.dropOutboxes h).2
  carryOut : ∀ {log : List Event} {t : Task} {h : Host} {e : Event} {rest : List Event},
    t.session.events = e :: rest → I log t h →
      I (log ++ [e]) ((t.withEvents rest).carryOut h e).1 ((t.withEvents rest).carryOut h e).2
  /-- A task that has ended lets go of an outbox at once. -/
  drop : ∀ {log : List Event} {t : Task} {h : Host} (outbox : OutboxId), t.isRunning = false →
    I log t h → I log t (h.drop outbox)
  meanwhile : ∀ {log : List Event} {t : Task} {h : Host} (change : Host → Host), Q change →
    I log t h → I log t (change h)

/-- Whether what happens is allowed. -/
def Happening.Allowed (P : Request → Prop) (Q : (Host → Host) → Prop) : Happening → Prop
  | .request _ r => P r
  | .meanwhile change => Q change
  | _ => True

namespace Loading

variable [RegexLibrary]

/-- What holds while the document is being made: there is none, and what waits for it is
    allowed. -/
structure IsEarly (P : Request → Prop) (l : Loading) : Prop where
  document_none : l.task.session.document = none
  phase_eq : l.task.session.phase = .loading ∨ l.task.session.phase = .closed
  deferred : ∀ r ∈ l.deferred, r.CanWait ∧ P r

/-- What a request can do while the document is being made. -/
theorem receive_cases (now : Nat) (l : Loading) (h : Host) (r : Request) :
    (l.task.isRunning = true ∧ ¬ r.CanWait ∧
      l.receive h r = ({ l with task := (l.task.accept now h r).1 }, (l.task.accept now h r).2)) ∨
    (r.CanWait ∧ l.receive h r = ({ l with deferred := l.deferred ++ [r] }, h)) ∨
    (l.task.isRunning = false ∧ l.receive h r = (l, h)) := by
  cases hrunning : l.task.isRunning with
  | true =>
    cases r with
    | subscribe peer outbox => exact .inl ⟨rfl, id, by simp only [receive, if_pos hrunning]; rfl⟩
    | close => exact .inl ⟨rfl, id, by simp only [receive, if_pos hrunning]; rfl⟩
    | _ => exact .inr (.inl ⟨trivial, by simp [receive, hrunning]⟩)
  | false => exact .inr (.inr ⟨rfl, by simp [receive, hrunning]⟩)

/-- While there is no document, nothing is to be done. -/
theorem IsEarly.receive {P : Request → Prop} {l : Loading} (hl : l.IsEarly P)
    (hrest : l.task.session.events = []) (h : Host) {r : Request} (hr : r.CanWait → P r) :
    (l.receive h r).1.IsEarly P ∧ (l.receive h r).1.task.session.events = [] := by
  obtain ⟨-, hnow, heq⟩ | ⟨hwait, heq⟩ | ⟨-, heq⟩ := l.receive_cases 0 h r
  · rw [heq]
    cases r with
    | subscribe peer outbox =>
      have hsubscribe : l.task.session.subscribe peer = l.task.session ∨
          l.task.session.subscribe peer = { l.task.session with
            subscribers := Session.insertPeer peer l.task.session.subscribers } := by
        rw [Session.subscribe]
        split
        · exact .inl rfl
        · exact .inr (by simp [Session.sendDocument, hl.document_none])
      have hsame : (l.task.session.subscribe peer).document = l.task.session.document ∧
          (l.task.session.subscribe peer).phase = l.task.session.phase ∧
          (l.task.session.subscribe peer).events = l.task.session.events := by
        rcases hsubscribe with heq | heq <;> simp [heq]
      exact ⟨⟨hsame.1.trans hl.document_none, hsame.2.1.symm ▸ hl.phase_eq, hl.deferred⟩,
        hsame.2.2.trans hrest⟩
    | close => exact ⟨⟨rfl, .inr rfl, hl.deferred⟩, hrest⟩
    | _ => exact absurd trivial hnow
  · rw [heq]
    exact ⟨⟨hl.document_none, hl.phase_eq,
      List.forall_mem_append.2 ⟨hl.deferred, by simpa using ⟨hwait, hr hwait⟩⟩⟩, hrest⟩
  · rw [heq]
    exact ⟨hl, hrest⟩

variable {result : Except SegmentError Document} {e : SessionError}

theorem finish_of_error (l : Loading) (now : Nat) (h : Host)
    (houtcome : (l.task.session.finishOpen result).2 = .error e) :
    l.finish now h result = (((l.task.obey (.finishOpen result)).dropOutboxes h).1,
      ((l.task.obey (.finishOpen result)).dropOutboxes h).2, .error e,
      l.deferred.map fun _ => none) := by
  rw [finish]
  simp only [houtcome]
  rfl

theorem finish_of_ok (l : Loading) (now : Nat) (h : Host)
    (houtcome : (l.task.session.finishOpen result).2 = .ok ()) :
    l.finish now h result =
      let opened := (l.task.obey (.finishOpen result)).flush h
      let last := opened.1.handleAll now opened.2 l.deferred
      (last.1, last.2.1, .ok (), last.2.2) := by
  rw [finish]
  simp only [houtcome]
  rfl

/-- A document that cannot be made is the end of the task, and leaves nothing to be done. -/
theorem IsEarly.fail {P : Request → Prop} {l : Loading} (hl : l.IsEarly P)
    (houtcome : (l.task.session.finishOpen result).2 = .error e) :
    (l.task.obey (.finishOpen result)).isRunning = false ∧
      (l.task.obey (.finishOpen result)).session.events = l.task.session.events := by
  rw [Task.isRunning_eq_false_iff]
  change ((l.task.session.finishOpen result).1.phase = .idle ∨
      (l.task.session.finishOpen result).1.phase = .closed) ∧
    (l.task.session.finishOpen result).1.events = l.task.session.events
  rcases hl.phase_eq with hphase | hphase
  · cases result with
    | ok d => simp [Session.finishOpen, hphase] at houtcome
    | error e => simp [Session.finishOpen, hphase]
  · simp [Session.finishOpen, hphase]

end Loading

/-- A property of a scene between two happenings: all is done that the session wanted. -/
structure Scene.Holds (P : Request → Prop) (I : List Event → Task → Host → Prop)
    (log : List Event) (s : Scene) : Prop where
  inv : I log s.task s.host
  events_nil : s.task.session.events = []
  early : ∀ l, s.stage = .loading l → l.IsEarly P

namespace Keeps

variable [RegexLibrary] {P : Request → Prop} {Q : (Host → Host) → Prop}
    {I : List Event → Task → Host → Prop}
  {log : List Event} {t : Task} {h : Host} {s : Scene} {r : Request}

theorem flush (hk : Keeps P Q I) (hinv : I log t h) :
    I (log ++ t.flushed h) (t.flush h).1 (t.flush h).2 := by
  induction t, h using Task.flush.induct generalizing log with
  | case1 t h hrest =>
    rw [Task.flush_of_nil hrest, Task.flushed_of_nil hrest, List.append_nil]
    exact hinv
  | case2 t h e rest hevents next =>
    rename_i ih
    rw [Task.flush_of_cons hevents, Task.flushed_of_cons hevents, List.append_cons]
    exact ih (hk.carryOut hevents hinv)

theorem accept (hk : Keeps P Q I) (hinv : I log t h) (now : Nat) (hr : P r) :
    I log (t.accept now h r).1 (t.accept now h r).2 := by
  cases r with
  | subscribe peer outbox => exact hk.subscribe peer outbox hr hinv
  | unsubscribe peer => exact hk.dismiss peer hr hinv
  | message sender m => exact hk.obey _ trivial hinv
  | viewEdit sender base view => exact hk.obey _ trivial hinv
  | localEdit patch => exact hk.obey _ trivial hinv
  | fileChanged text => exact hk.obey _ trivial hinv
  | snapshot => exact hinv
  | phase => exact hinv
  | close => exact hk.dropOutboxes rfl (hk.obey .close trivial hinv)

theorem handle (hk : Keeps P Q I) (hrest : t.session.events = []) (now : Nat)
    (haccepted : I log (t.accept now h r).1 (t.accept now h r).2) :
    I (log ++ t.carried now h r) (t.handle now h r).1 (t.handle now h r).2.1 := by
  have hflushed := hk.flush haccepted
  rw [← Task.handle_eq hrest] at hflushed
  exact hflushed

theorem handleAll (hk : Keeps P Q I) (hrest : t.session.events = []) (hinv : I log t h)
    (now : Nat) {requests : List Request} (hrequests : ∀ r ∈ requests, P r) :
    I (log ++ t.carriedAll now h requests) (t.handleAll now h requests).1
      (t.handleAll now h requests).2.1 ∧
    (t.handleAll now h requests).1.session.events = [] := by
  induction requests generalizing log t h with
  | nil =>
    rw [Task.carriedAll, List.append_nil]
    exact ⟨hinv, hrest⟩
  | cons r requests ih =>
    obtain ⟨hr, hrequests⟩ := List.forall_mem_cons.1 hrequests
    rw [Task.carriedAll, Task.handleAll]
    split
    · have hnext := ih (Task.events_handle hrest now h r)
        (hk.handle hrest now (hk.accept hinv now hr)) hrequests
      rw [List.append_assoc] at hnext
      exact hnext
    · exact ih hrest hinv hrequests

theorem finish (hk : Keeps P Q I) {l : Loading} (hinv : I log l.task h)
    (hrest : l.task.session.events = []) (hl : l.IsEarly P) (now : Nat)
    (result : Except SegmentError Document) :
    I (log ++ (Scene.carried ⟨.loading l, h⟩ (.made now result))) (l.finish now h result).1
      (l.finish now h result).2.1 ∧ (l.finish now h result).1.session.events = [] := by
  have hopened := hk.obey (.finishOpen result) trivial hinv
  cases houtcome : (l.task.session.finishOpen result).2 with
  | error e =>
    obtain ⟨hover, hsame⟩ := hl.fail houtcome
    simp only [Scene.carried, houtcome, l.finish_of_error now h houtcome, List.append_nil]
    exact ⟨hk.dropOutboxes hover hopened, hsame.trans hrest⟩
  | ok =>
    have hall := hk.handleAll (Task.events_flush _ _) (hk.flush hopened) now
      fun r hr => (hl.deferred r hr).2
    rw [List.append_assoc] at hall
    simp only [Scene.carried, houtcome, l.finish_of_ok now h houtcome]
    exact hall

/-- A request is put off, passed over, or accepted. -/
theorem request (hk : Keeps P Q I) (hrest : s.task.session.events = [])
    (hearly : ∀ l, s.stage = .loading l → l.IsEarly P) (now : Nat)
    (haccepted : s.task.isRunning = true →
      I log (s.task.accept now s.host r).1 (s.task.accept now s.host r).2)
    (hidle : s.task.isRunning = false → I log s.task s.host)
    (hwaits : r.CanWait → P r ∧ I log s.task s.host) :
    (s.step (.request now r)).Holds P I (log ++ s.carried (.request now r)) := by
  obtain ⟨stage, h⟩ := s
  cases stage with
  | loading l =>
    obtain ⟨hl, hevents⟩ := (hearly l rfl).receive hrest h fun hr => (hwaits hr).1
    rw [Scene.carried, List.append_nil]
    refine ⟨?_, hevents, fun next hnext => ?_⟩
    · change I log (l.receive h r).1.task (l.receive h r).2
      obtain ⟨hrunning, -, heq⟩ | ⟨hr, heq⟩ | ⟨hover, heq⟩ := l.receive_cases now h r
      · rw [heq]
        exact haccepted hrunning
      · rw [heq]
        exact (hwaits hr).2
      · rw [heq]
        exact hidle hover
    · cases hnext
      exact hl
  | ready t =>
    simp only [Scene.step, Scene.carried]
    cases hrunning : t.isRunning with
    | true =>
      exact ⟨hk.handle hrest now (haccepted hrunning), Task.events_handle hrest now h r,
        fun _ hl => by cases hl⟩
    | false =>
      refine ⟨?_, hrest, fun _ hl => by cases hl⟩
      simp only [Bool.false_eq_true, if_false, List.append_nil]
      cases r with
      | subscribe peer outbox => exact hk.drop outbox hrunning (hidle hrunning)
      | _ => exact hidle hrunning

theorem step (hk : Keeps P Q I) (hs : s.Holds P I log) {x : Happening} (hx : x.Allowed P Q) :
    (s.step x).Holds P I (log ++ s.carried x) := by
  obtain ⟨hinv, hrest, hearly⟩ := hs
  cases x with
  | request now r =>
    exact hk.request hrest hearly now (fun _ => hk.accept hinv now hx) (fun _ => hinv)
      fun _ => ⟨hx, hinv⟩
  | meanwhile change =>
    rw [Scene.carried, List.append_nil]
    exact ⟨hk.meanwhile change hx hinv, hrest, hearly⟩
  | made now result =>
    obtain ⟨stage, h⟩ := s
    cases stage with
    | loading l =>
      obtain ⟨hfinished, hevents⟩ := hk.finish hinv hrest (hearly l rfl) now result
      exact ⟨hfinished, hevents, fun _ hl => by cases hl⟩
    | ready t =>
      rw [Scene.carried, List.append_nil]
      exact ⟨hinv, hrest, fun _ hl => by cases hl⟩
  | tick now =>
    obtain ⟨stage, h⟩ := s
    cases stage with
    | loading l =>
      rw [Scene.carried, List.append_nil]
      exact ⟨hinv, hrest, hearly⟩
    | ready t =>
      have hticked := hk.flush (hk.obey (.tick now) trivial hinv)
      have hevents := Task.events_flush (t.obey (.tick now)) h
      have heq : t.tick h now = (t.obey (.tick now)).flush h := Task.tick_eq hrest h now
      simp only [Scene.step, heq]
      exact ⟨hticked, hevents, fun _ hl => by cases hl⟩

/-- What all that a course is made of keeps is kept by the course. -/
theorem run (hk : Keeps P Q I) (hs : s.Holds P I log) {happenings : List Happening}
    (hallowed : ∀ x ∈ happenings, x.Allowed P Q) :
    (s.run happenings).Holds P I (log ++ s.log happenings) := by
  induction happenings generalizing s log with
  | nil =>
    rw [Scene.log, List.append_nil]
    exact hs
  | cons x happenings ih =>
    obtain ⟨hx, hallowed⟩ := List.forall_mem_cons.1 hallowed
    have hnext := ih (hk.step hs hx) hallowed
    rw [List.append_assoc] at hnext
    exact hnext

end Keeps

end LiterateSync
