import LiterateSync.Proofs.Workspace.Schedules
import LiterateSync.Workspace.Opening

namespace LiterateSync

deriving instance DecidableEq for Call

/-- What holds of a task between two requests: nothing is left to be done, and there is a document
    for as long as requests are served. -/
structure Task.IsSettled (t : Task) : Prop where
  orderly : t.Orderly
  events_nil : t.session.events = []
  isSome_document : t.isRunning = true → t.session.document.isSome

namespace Task.IsSettled

variable [RegexLibrary] {t : Task} {h : Host} {now : Nat} {r : Request}

theorem isRunning_handle (ht : t.IsSettled) (hrunning : t.isRunning = true) (hclose : r ≠ .close) :
    (t.handle now h r).1.session.document.isSome ∧ (t.handle now h r).1.isRunning = true := by
  have hdocument : (t.handle now h r).1.session.document.isSome :=
    ht.orderly.isSome_document_handle ht.events_nil (ht.isSome_document hrunning) hclose
  have horderly : (t.handle now h r).1.Orderly := by
    rw [(Prod.mk.inj (handle_eq ht.events_nil now h r)).1]
    exact (ht.orderly.accept now h r).flush _
  exact ⟨hdocument, isRunning_of_isSome horderly hdocument⟩

theorem handle (ht : t.IsSettled) (hrunning : t.isRunning = true) (now : Nat) (h : Host)
    (r : Request) : (t.handle now h r).1.IsSettled where
  orderly := by
    rw [(Prod.mk.inj (handle_eq ht.events_nil now h r)).1]
    exact (ht.orderly.accept now h r).flush _
  events_nil := events_handle ht.events_nil now h r
  isSome_document hafter := by
    refine (ht.isRunning_handle hrunning ?_).1
    rintro rfl
    cases hafter

/-- The time that passes does not end a task, nor begin one. -/
theorem tick (ht : t.IsSettled) (h : Host) (now : Nat) :
    (t.tick h now).1.IsSettled ∧ (t.tick h now).1.isRunning = t.isRunning := by
  have hobeyed : (t.obey (.tick now)).Orderly := ht.orderly.obey trivial
  rw [tick_eq ht.events_nil]
  cases hrunning : t.isRunning with
  | true =>
    have hdocument : ((t.obey (.tick now)).flush h).1.session.document.isSome :=
      isSome_document_flush hobeyed
        ((Session.responds_step ht.orderly.consistent _).isSome_document
          (ht.isSome_document hrunning) nofun)
    exact ⟨⟨hobeyed.flush h, events_flush _ _, fun _ => hdocument⟩,
      isRunning_of_isSome (hobeyed.flush h) hdocument⟩
  | false =>
    have hover := isRunning_eq_false_iff.1 hrunning
    obtain ⟨-, -, -, hpending⟩ := ht.orderly.consistent.nil_of_phase (hover.imp_right .inr)
    have hsame : t.obey (.tick now) = t := by
      have hstep : (t.session.step (.tick now)).1 = t.session := by
        simp [Session.step, Session.tick, hpending]
      rw [obey, hstep]
    rw [hsame, flush_of_nil ht.events_nil]
    exact ⟨ht, hrunning⟩

end Task.IsSettled

/-- A task that has just been given its document, and no request before. -/
def Task.opened (spec : SessionSpec) (d : Document) : Task where
  session := { Session.new spec.id spec.config with document := some d, phase := .synced }
  backing := spec.backing

/-- A task whose document could not be made. -/
def Task.failed (spec : SessionSpec) : Task where
  session := Session.new spec.id spec.config
  backing := spec.backing

namespace Task

theorem isSettled_opened (spec : SessionSpec) (d : Document) : (opened spec d).IsSettled where
  orderly :=
    { consistent := ⟨by simp [opened], by simp [opened, Session.new], fun _ => rfl,
        by simp [opened], Nat.zero_le _, by simp [opened, Session.new],
        by simp [opened, Session.new, Session.Replays], by simp [opened]⟩
      nodup := List.nodup_nil
      subscribed := nofun }
  events_nil := rfl
  isSome_document _ := rfl

theorem isSettled_failed (spec : SessionSpec) : (failed spec).IsSettled where
  orderly := ⟨Session.consistent_new spec.id spec.config, List.nodup_nil, nofun⟩
  events_nil := rfl
  isSome_document := nofun

end Task

theorem Loading.run_nil [RegexLibrary] (now : Nat) (h : Host) (spec : SessionSpec) :
    (∃ d, Document.ofText spec.profile spec.text = .ok d ∧
      Loading.run now h spec [] = (.opened spec d, h, .ok (), [])) ∨
    ∃ e, Document.ofText spec.profile spec.text = .error e ∧
      Loading.run now h spec [] = (.failed spec, h, .error (.segment e), []) := by
  have hrun : Loading.run now h spec [] =
      (ofSpec spec).finish now h (Document.ofText spec.profile spec.text) := rfl
  rw [hrun]
  cases hmade : Document.ofText spec.profile spec.text with
  | ok d =>
    have hobeyed : (ofSpec spec).task.obey (.finishOpen (.ok d)) = .opened spec d := rfl
    refine .inl ⟨d, rfl, ?_⟩
    rw [finish_of_ok _ now h rfl, hobeyed, Task.flush_of_nil rfl]
    rfl
  | error e => exact .inr ⟨e, rfl, finish_of_error _ now h rfl⟩

namespace Workspace

/-- Whether a task serves requests. -/
def serves (w : Workspace) (n : TaskId) : Bool :=
  (w.tasks[n]?).any (·.isRunning)

/-- Between two requests all tasks are settled. -/
def IsSettled (w : Workspace) : Prop :=
  ∀ t ∈ w.tasks, t.IsSettled

variable {w : Workspace} {handle : Handle} {r : Request} {n : TaskId}

theorem find?_eq_some {id : SessionId} (h : w.find? id = some handle) :
    handle ∈ w.roster ∧ handle.session = id :=
  ⟨List.mem_of_find?_eq_some h, by simpa using List.find?_some h⟩

theorem find?_eq_none {id : SessionId} :
    w.find? id = none ↔ id ∉ w.roster.map (·.session) := by
  simp [find?]

theorem serves_set {i : TaskId} {t : Task} (hi : i < w.tasks.length) (host : Host) :
    { w with host, tasks := w.tasks.set i t }.serves n =
      if i = n then t.isRunning else w.serves n := by
  rw [serves, serves, List.getElem?_set]
  split
  · simp
  · rfl

theorem serves_append (w : Workspace) (t : Task) (n : Nat) :
    { w with tasks := w.tasks ++ [t] }.serves n =
      (w.serves n || (decide (n = w.tasks.length) && t.isRunning)) := by
  rw [serves, serves, List.getElem?_append]
  obtain hn | rfl | hn := Nat.lt_trichotomy n w.tasks.length
  · simp [hn, Nat.ne_of_lt hn]
  · simp
  · have hnone : [t][n - w.tasks.length]? = none := by simp; omega
    simp [Nat.not_lt_of_gt hn, Nat.ne_of_gt hn, hnone]

theorem lt_of_serves (h : w.serves n = true) : n < w.tasks.length := by
  rw [serves, Option.any_eq_true] at h
  obtain ⟨t, ht, -⟩ := h
  exact (List.getElem?_eq_some_iff.1 ht).1

/-- A request is turned down because the task has ended, or it is handled by the task. -/
theorem request_cases [RegexLibrary] (w : Workspace) (handle : Handle) (r : Request) :
    (w.serves handle.task = false ∧
      w.request handle r = ({ w with host := refuse w.host r },
        .error (.sessionGone handle.session))) ∨
    ∃ t, w.tasks[handle.task]? = some t ∧ t.isRunning = true ∧
      (w.request handle r).1 = { w with
        host := (t.handle w.now w.host r).2.1
        tasks := w.tasks.set handle.task (t.handle w.now w.host r).1 } ∧
      ∀ id, (w.request handle r).2 ≠ .error (.sessionGone id) := by
  cases hserves : w.serves handle.task with
  | false =>
    have hnone : (w.task? handle).filter (·.isRunning) = none := by
      rw [Option.filter_eq_none_iff]
      intro t ht hrunning
      have hsome : w.serves handle.task = true := Option.any_eq_true _ _ |>.2 ⟨t, ht, hrunning⟩
      cases hserves.symm.trans hsome
    exact .inl ⟨rfl, by rw [request, hnone]⟩
  | true =>
    obtain ⟨t, ht, hrunning⟩ := (Option.any_eq_true _ _).1 hserves
    have hsome : (w.task? handle).filter (·.isRunning) = some t := by
      rw [Option.filter_eq_some_iff]
      exact ⟨ht, hrunning⟩
    refine .inr ⟨t, ht, hrunning, ?_, ?_⟩
    · rw [request, hsome]
      simp only
      split <;> rfl
    · rw [request, hsome]
      simp only
      split <;> simp

theorem roster_request [RegexLibrary] (w : Workspace) (handle : Handle) (r : Request) :
    (w.request handle r).1.roster = w.roster := by
  obtain ⟨-, heq⟩ | ⟨t, -, -, heq, -⟩ := w.request_cases handle r <;> rw [heq]

theorem IsSettled.request [RegexLibrary] (hw : w.IsSettled) (handle : Handle) (r : Request) :
    (w.request handle r).1.IsSettled := by
  obtain ⟨-, heq⟩ | ⟨t, ht, hrunning, heq, -⟩ := w.request_cases handle r
  · rw [heq]
    exact hw
  · rw [heq]
    intro t' ht'
    obtain ht' | rfl := List.mem_or_eq_of_mem_set ht'
    · exact hw t' ht'
    · exact (hw t (List.mem_of_getElem? ht)).handle hrunning _ _ _

/-- Only the request to close ends a task. -/
theorem IsSettled.serves_request [RegexLibrary] (hw : w.IsSettled) (handle : Handle)
    (hclose : r ≠ .close) (n : TaskId) : (w.request handle r).1.serves n = w.serves n := by
  obtain ⟨-, heq⟩ | ⟨t, ht, hrunning, heq, -⟩ := w.request_cases handle r
  · rw [heq]
    rfl
  · have hserves : w.serves handle.task = true := (Option.any_eq_true _ _).2 ⟨t, ht, hrunning⟩
    rw [heq, serves_set (lt_of_serves hserves)]
    split
    · rename_i hn
      rw [← hn, hserves]
      exact ((hw t (List.mem_of_getElem? ht)).isRunning_handle hrunning hclose).2
    · rfl

theorem serves_request_close [RegexLibrary] (w : Workspace) (handle : Handle) (n : TaskId) :
    (w.request handle .close).1.serves n = (w.serves n && decide (handle.task ≠ n)) := by
  obtain ⟨hserves, heq⟩ | ⟨t, ht, hrunning, heq, -⟩ := w.request_cases handle .close
  · have hsame : (w.request handle .close).1.serves n = w.serves n := by rw [heq]; rfl
    rw [hsame]
    by_cases hn : handle.task = n
    · rw [← hn, hserves]
      rfl
    · simp [hn]
  · have hserves : w.serves handle.task = true := (Option.any_eq_true _ _).2 ⟨t, ht, hrunning⟩
    rw [heq, serves_set (lt_of_serves hserves)]
    split
    · rename_i hn
      simp [hn, Task.handle, Task.close, Task.dropOutboxes, Task.isRunning, Session.close]
    · rename_i hn
      simp [hn, serves]

/-- A task serves the requests that come to it, or they are answered that it has ended. -/
theorem serves_iff [RegexLibrary] (w : Workspace) (handle : Handle) (r : Request) :
    w.serves handle.task = true ↔ ∀ id, (w.request handle r).2 ≠ .error (.sessionGone id) := by
  obtain ⟨hserves, heq⟩ | ⟨t, ht, hrunning, -, hanswer⟩ := w.request_cases handle r
  · simp [hserves, heq]
  · exact ⟨fun _ => hanswer, fun _ => (Option.any_eq_true _ _).2 ⟨t, ht, hrunning⟩⟩

theorem tickAll_eq [RegexLibrary] (now : Nat) (h : Host) (tasks : List Task)
    (hsettled : ∀ t ∈ tasks, t.IsSettled) :
    (∀ t ∈ (tickAll now h tasks).1, t.IsSettled) ∧
      (tickAll now h tasks).1.map (·.isRunning) = tasks.map (·.isRunning) := by
  induction tasks generalizing h with
  | nil => exact ⟨fun _ ht => absurd ht List.not_mem_nil, rfl⟩
  | cons t tasks ih =>
    obtain ⟨ht, hsettled⟩ := List.forall_mem_cons.1 hsettled
    obtain ⟨hnext, hrunning⟩ := ht.tick h now
    obtain ⟨hothers, hrest⟩ := ih (t.tick h now).2 hsettled
    rw [tickAll]
    exact ⟨List.forall_mem_cons.2 ⟨hnext, hothers⟩, congrArg₂ List.cons hrunning hrest⟩

theorem serves_eq_map (w : Workspace) (n : TaskId) :
    w.serves n = ((w.tasks.map (·.isRunning))[n]?).any id := by
  rw [serves, List.getElem?_map]
  cases w.tasks[n]? <;> rfl

theorem IsSettled.wait [RegexLibrary] (hw : w.IsSettled) (milliseconds : Nat) :
    (w.wait milliseconds).IsSettled :=
  (tickAll_eq _ _ _ hw).1

theorem IsSettled.serves_wait [RegexLibrary] (hw : w.IsSettled) (milliseconds : Nat) (n : TaskId) :
    (w.wait milliseconds).serves n = w.serves n := by
  rw [serves_eq_map, serves_eq_map w]
  exact congrArg (fun running : List Bool => (running[n]?).any id) (tickAll_eq _ _ _ hw).2

/-- A task is started, whether its document can be made or not. -/
theorem start_cases [RegexLibrary] (w : Workspace) (spec : SessionSpec) :
    (∃ d, Document.ofText spec.profile spec.text = .ok d ∧ w.start spec [] =
      ⟨{ w with tasks := w.tasks ++ [.opened spec d] }, ⟨spec.id, w.tasks.length⟩, .ok (), []⟩) ∨
    ∃ e, w.start spec [] =
      ⟨{ w with tasks := w.tasks ++ [.failed spec] }, ⟨spec.id, w.tasks.length⟩,
        .error (.segment e), []⟩ := by
  obtain ⟨d, hmade, hrun⟩ | ⟨e, -, hrun⟩ := Loading.run_nil w.now w.host spec
  · exact .inl ⟨d, hmade, by rw [start, hrun]⟩
  · exact .inr ⟨e, by rw [start, hrun]⟩

theorem roster_start [RegexLibrary] (w : Workspace) (spec : SessionSpec) :
    (w.start spec []).workspace.roster = w.roster := by
  obtain ⟨d, -, heq⟩ | ⟨e, heq⟩ := w.start_cases spec <;> rw [heq]

theorem IsSettled.append (hw : w.IsSettled) {t : Task} (ht : t.IsSettled) :
    { w with tasks := w.tasks ++ [t] }.IsSettled :=
  List.forall_mem_append.2 ⟨hw, List.forall_mem_singleton.2 ht⟩

end Workspace

end LiterateSync
