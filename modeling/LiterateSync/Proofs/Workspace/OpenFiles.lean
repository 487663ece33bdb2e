import Mathlib.Data.List.Induction
import Mathlib.Logic.Function.Iterate
import LiterateSync.Text.Pattern.Library
import LiterateSync.Proofs.Workspace.Backing
import LiterateSync.Proofs.Workspace.Serving

namespace LiterateSync

namespace Call

variable {w : Workspace} {c : Call} [RegexLibrary]

theorem run_returned (w : Workspace) (result : Except WorkspaceError Handle) :
    (returned result).run w = (w, result) := by
  rw [run]

theorem run_of_ne (h : c.stepsLeft ≠ 0) : c.run w = (c.step w).2.run (c.step w).1 := by
  cases c with
  | returned => exact absurd rfl h
  | _ => rw [run]

def advance (x : Workspace × Call) : Workspace × Call :=
  x.2.step x.1

/-- A call is over after as many steps as it has left at most. -/
theorem iterate_advance {n : Nat} (h : c.stepsLeft ≤ n) :
    advance^[n] (w, c) = ((c.run w).1, .returned (c.run w).2) := by
  induction n generalizing w c with
  | zero =>
    cases c with
    | returned result => rw [run_returned, Function.iterate_zero_apply]
    | _ => simp [stepsLeft] at h
  | succ n ih =>
    rw [Function.iterate_succ_apply]
    by_cases hover : c.stepsLeft = 0
    · cases c with
      | returned result => exact ih (Nat.zero_le n)
      | _ => simp [stepsLeft] at hover
    · rw [run_of_ne hover]
      exact ih (Nat.le_of_lt_succ (Nat.lt_of_lt_of_le (stepsLeft_step_lt w c hover) h))

end Call

theorem Source.spec_file_eq_ok {w : Workspace} {path : String} {spec : SessionSpec}
    (h : (Source.file path).spec w = .ok spec) :
    ∃ text profile, w.host.files.read path = .ok text ∧
      w.languages.detect (some path) text = .ok profile ∧
      spec = ⟨idOfPath path, text, profile, w.config, some path⟩ := by
  rw [Source.spec] at h
  split at h
  · cases h
  · split at h
    · cases h
    · cases h
      exact ⟨_, _, ‹_›, ‹_›, rfl⟩

namespace Workspace

open Source (idOfPath)

variable {w : Workspace} {path : String} {handle : Handle}

/-- Whether a session is started for a file, from the text that is in it. -/
def Begins [RegexLibrary] (w : Workspace) (path : String) (handle : Handle) : Prop :=
  w.find? (idOfPath path) = none ∧ handle = ⟨idOfPath path, w.tasks.length⟩ ∧
    ∃ text profile d, w.host.files.read path = .ok text ∧
      w.languages.detect (some path) text = .ok profile ∧
      Document.ofText profile text = .ok d ∧ d.text = text ∧
      w.openFile path = ({ w with
        tasks := w.tasks ++ [.opened ⟨idOfPath path, text, profile, w.config, some path⟩ d]
        roster := w.roster ++ [handle] }, .ok handle)

/-- A file is opened by finding its session, by starting one, or not at all. -/
theorem openFile_cases [RegexLibrary] (w : Workspace) (path : String) :
    (∃ handle, w.find? (idOfPath path) = some handle ∧ w.openFile path = (w, .ok handle)) ∨
      (∃ handle, w.Begins path handle) ∨
      ∃ e, w.openFile path = (w, .error e) ∨
        ∃ spec, w.openFile path = ({ w with tasks := w.tasks ++ [.failed spec] }, .error e) := by
  have hopen : w.openFile path =
      ((Call.find (.file path)).step w).2.run ((Call.find (.file path)).step w).1 :=
    Call.run_of_ne (by simp [Call.stepsLeft])
  cases hfound : w.find? (idOfPath path) with
  | some handle =>
    have hstep : (Call.find (.file path)).step w = (w, .returned (.ok handle)) := by
      simp [Call.step, Source.id, hfound]
    rw [hstep, Call.run_returned] at hopen
    exact .inl ⟨handle, rfl, hopen⟩
  | none =>
    have hstep : (Call.find (.file path)).step w = (w, .start (.file path)) := by
      simp [Call.step, Source.id, hfound]
    rw [hstep, Call.run_of_ne (by simp [Call.stepsLeft])] at hopen
    refine .inr ?_
    cases hspec : (Source.file path).spec w with
    | error e =>
      have hfail : (Call.start (.file path)).step w = (w, .returned (.error e)) := by
        simp [Call.step, hspec]
      rw [hfail, Call.run_returned] at hopen
      exact .inr ⟨e, .inl hopen⟩
    | ok spec =>
      obtain ⟨d, hmade, hstart⟩ | ⟨e, hstart⟩ := w.start_cases spec
      · obtain ⟨text, profile, hread, hdetect, rfl⟩ := Source.spec_file_eq_ok hspec
        let handle : Handle := ⟨idOfPath path, w.tasks.length⟩
        let started : Workspace := { w with
          tasks := w.tasks ++ [.opened ⟨idOfPath path, text, profile, w.config, some path⟩ d] }
        have hsucceed : (Call.start (.file path)).step w = (started, .register handle) := by
          simp [Call.step, hspec, hstart, started, handle]
        have hregister : (Call.register handle).step started =
            ({ started with roster := w.roster ++ [handle] }, .returned (.ok handle)) := by
          have hnone : started.find? handle.session = none := hfound
          simp [Call.step, hnone, started]
        rw [hsucceed, Call.run_of_ne (by simp [Call.stepsLeft]), hregister,
          Call.run_returned] at hopen
        exact .inl ⟨handle, hfound, rfl, text, profile, d, hread, hdetect, hmade,
          Document.text_of_openWith hmade, hopen⟩
      · have hfail : (Call.start (.file path)).step w =
            ({ w with tasks := w.tasks ++ [.failed spec] },
              .returned (.error (.session (.segment e)))) := by
          simp [Call.step, hspec, hstart]
        rw [hfail, Call.run_returned] at hopen
        exact .inr ⟨_, .inr ⟨spec, hopen⟩⟩

theorem fst_openFile [RegexLibrary] (w : Workspace) (path : String) :
    (w.openFile path).1 = (Call.advance^[4] (w, .find (.file path))).1 :=
  (congrArg Prod.fst (Call.iterate_advance (n := 4) (Nat.le_refl _))).symm

theorem fst_close [RegexLibrary] (w : Workspace) (id : SessionId) :
    (w.close id).1 = (Call.advance^[2] (w, .remove id)).1 :=
  (congrArg Prod.fst (Call.iterate_advance (n := 2) (Nat.le_refl _))).symm

theorem close_cases [RegexLibrary] (w : Workspace) (id : SessionId) :
    (w.close id).1 = w ∨ ∃ handle, w.find? id = some handle ∧ (w.close id).1 =
      ({ w with roster := w.roster.filter (·.session ≠ id) }.request handle .close).1 := by
  have hclose : w.close id =
      ((Call.remove id).step w).2.run ((Call.remove id).step w).1 :=
    Call.run_of_ne (by simp [Call.stepsLeft])
  rw [hclose, Call.step]
  cases w.find? id with
  | none => exact .inl (congrArg Prod.fst (Call.run_returned _ _))
  | some handle =>
    refine .inr ⟨handle, rfl, ?_⟩
    simp only
    rw [Call.run_of_ne (by simp [Call.stepsLeft]), Call.step, Call.run_returned]

/-- The file to which a task writes. -/
def backing? (w : Workspace) (n : TaskId) : Option String :=
  (w.tasks[n]?).bind (·.backing)

theorem IsSettled.rewrites_request [RegexLibrary] (hw : w.IsSettled) (handle : Handle)
    (r : Request) :
    (∀ n, (w.request handle r).1.backing? n = w.backing? n) ∧
      ∃ texts, (w.request handle r).1.host.files =
        (w.backing? handle.task).elim w.host.files fun path =>
          w.host.files.rewritten path texts := by
  obtain ⟨-, heq⟩ | ⟨t, ht, -, heq, -⟩ := w.request_cases handle r
  · rw [heq]
    refine ⟨fun _ => rfl, [], ?_⟩
    have hrefuse : (refuse w.host r).files = w.host.files := by cases r <;> rfl
    rw [hrefuse]
    cases w.backing? handle.task <;> rfl
  · obtain ⟨log, hbacking, texts, hfiles⟩ :=
      Task.rewrites_handle (hw t (List.mem_of_getElem? ht)).events_nil w.now w.host r
    have hmine : w.backing? handle.task = t.backing := by rw [backing?, ht, Option.bind_some]
    rw [heq]
    refine ⟨fun n => ?_, texts, ?_⟩
    · rw [backing?, List.getElem?_set]
      split
      · rename_i hn
        rw [if_pos (List.getElem?_eq_some_iff.1 ht).1, Option.bind_some, hbacking, ← hn, hmine]
      · rfl
    · rw [hmine]
      exact hfiles

theorem map_backing_tickAll [RegexLibrary] (now : Nat) (h : Host) (tasks : List Task)
    (hsettled : ∀ t ∈ tasks, t.IsSettled) :
    (tickAll now h tasks).1.map (·.backing) = tasks.map (·.backing) := by
  induction tasks generalizing h with
  | nil => rfl
  | cons t tasks ih =>
    obtain ⟨ht, hsettled⟩ := List.forall_mem_cons.1 hsettled
    rw [tickAll]
    exact congrArg₂ List.cons (Task.backing_tick ht.events_nil h now) (ih _ hsettled)

theorem backing?_eq_map (w : Workspace) (n : TaskId) :
    w.backing? n = ((w.tasks.map (·.backing))[n]?).join := by
  rw [backing?, List.getElem?_map]
  cases w.tasks[n]? <;> rfl

theorem IsSettled.backing?_wait [RegexLibrary] (hw : w.IsSettled) (milliseconds : Nat)
    (n : TaskId) : (w.wait milliseconds).backing? n = w.backing? n := by
  rw [backing?_eq_map, backing?_eq_map]
  exact congrArg (fun backings : List (Option String) => (backings[n]?).join)
    (map_backing_tickAll _ _ _ hw)

theorem lt_of_backing? {n : TaskId} (h : w.backing? n = some path) : n < w.tasks.length := by
  obtain ⟨t, ht, -⟩ := Option.bind_eq_some_iff.1 h
  exact (List.getElem?_eq_some_iff.1 ht).1

theorem backing?_append {n : TaskId} (h : w.backing? n = some path) (t : Task) :
    { w with tasks := w.tasks ++ [t] }.backing? n = some path := by
  rw [backing?, List.getElem?_append_left (lt_of_backing? h)]
  exact h

/-- What can be done, one thing after the other, with a workspace whose sessions are all those of
    files. -/
inductive Deed where
  | openFile (path : String)
  | close (id : SessionId)
  | closeAll
  | request (handle : Handle) (r : Request)
  | wait (milliseconds : Nat)
  /-- Others do something to the files and to the outboxes. -/
  | meanwhile (change : Host → Host)

/-- Whether something closes the session of a task, and leaves it on the roster. -/
def Deed.Closes (n : TaskId) : Deed → Prop
  | .request handle .close => handle.task = n
  | _ => False

theorem Deed.closes_request {n : TaskId} {r : Request} :
    (Deed.request handle r).Closes n ↔ r = .close ∧ handle.task = n := by
  cases r <;> simp [Closes]

section Deeds

variable [RegexLibrary]

def act (w : Workspace) : Deed → Workspace
  | .openFile path => (w.openFile path).1
  | .close id => (w.close id).1
  | .closeAll => w.closeAll
  | .request handle r => (w.request handle r).1
  | .wait milliseconds => w.wait milliseconds
  | .meanwhile change => { w with host := change w.host }

/-- The workspace after several things were done. -/
def after (w : Workspace) (deeds : List Deed) : Workspace :=
  deeds.foldl act w

theorem after_append (w : Workspace) (deeds more : List Deed) :
    w.after (deeds ++ more) = (w.after deeds).after more :=
  List.foldl_append

theorem after_concat (w : Workspace) (deeds : List Deed) (deed : Deed) :
    w.after (deeds ++ [deed]) = (w.after deeds).act deed :=
  after_append w deeds [deed]

/-- How a session came about that can be found: it was started for a file, and is running unless
    it has been closed since. -/
def Begun (w : Workspace) (past : List Deed) (handle : Handle) (origin : String) : Prop :=
  (w.after past).backing? handle.task = some origin ∧
    ∃ earlier later, past = earlier ++ .openFile origin :: later ∧
      (w.after earlier).Begins origin handle ∧
      ((w.after past).serves handle.task = true ↔ ∀ deed ∈ later, ¬ deed.Closes handle.task)

/-- What holds of a workspace after several things were done. -/
structure Kept (w : Workspace) (past : List Deed) : Prop where
  settled : (w.after past).IsSettled
  tasks : ((w.after past).roster.map (·.task)).Nodup
  begun : ∀ handle ∈ (w.after past).roster, ∃ origin, w.Begun past handle origin

variable {past : List Deed} {deed : Deed} {origin : String}

theorem Begun.concat (h : w.Begun past handle origin)
    (hbacking : ((w.after past).act deed).backing? handle.task = some origin)
    (hserves : ((w.after past).act deed).serves handle.task = true ↔
      (w.after past).serves handle.task = true ∧ ¬ deed.Closes handle.task) :
    w.Begun (past ++ [deed]) handle origin := by
  obtain ⟨-, earlier, later, hpast, hbegins, hrunning⟩ := h
  rw [Begun, after_concat]
  refine ⟨hbacking, earlier, later ++ [deed], by simp [hpast], hbegins, ?_⟩
  rw [hserves, hrunning, List.forall_mem_append, List.forall_mem_singleton]

/-- The sessions that can still be found after something was done have come about as before. -/
theorem Kept.concat (h : w.Kept past) (hsettled : ((w.after past).act deed).IsSettled)
    (hroster : ((w.after past).act deed).roster.Sublist (w.after past).roster)
    (hkept : ∀ handle ∈ ((w.after past).act deed).roster, ∀ origin,
      (w.after past).backing? handle.task = some origin →
      ((w.after past).act deed).backing? handle.task = some origin ∧
        (((w.after past).act deed).serves handle.task = true ↔
          (w.after past).serves handle.task = true ∧ ¬ deed.Closes handle.task)) :
    w.Kept (past ++ [deed]) := by
  refine ⟨?_, ?_, ?_⟩
  · rw [after_concat]
    exact hsettled
  · rw [after_concat]
    exact h.tasks.sublist (hroster.map _)
  · rw [after_concat]
    intro handle hhandle
    obtain ⟨origin, hbegun⟩ := h.begun handle (hroster.subset hhandle)
    obtain ⟨hbacking, hserves⟩ := hkept handle hhandle origin hbegun.1
    exact ⟨origin, hbegun.concat hbacking hserves⟩

theorem Kept.task_lt (h : w.Kept past) (hhandle : handle ∈ (w.after past).roster) :
    handle.task < (w.after past).tasks.length := by
  obtain ⟨origin, hbacking, -⟩ := h.begun handle hhandle
  exact lt_of_backing? hbacking

theorem Kept.begins (h : w.Kept past) (hbegins : (w.after past).Begins path handle) :
    w.Kept (past ++ [.openFile path]) := by
  obtain ⟨-, hhandle, text, profile, d, -, -, -, -, hopen⟩ := id hbegins
  have hact : (w.after past).act (.openFile path) = _ := congrArg Prod.fst hopen
  have hserves : ∀ n, ((w.after past).act (.openFile path)).serves n =
      ((w.after past).serves n || decide (n = (w.after past).tasks.length)) := fun n => by
    rw [hact]
    exact (serves_append _ _ n).trans (by simp [Task.opened, Task.isRunning])
  refine ⟨?_, ?_, ?_⟩
  · rw [after_concat, hact]
    exact h.settled.append (Task.isSettled_opened _ d)
  · rw [after_concat, hact, List.map_append, List.map_singleton, ← List.concat_eq_append,
      List.nodup_concat]
    refine ⟨fun hmem => ?_, h.tasks⟩
    obtain ⟨other, hother, htask⟩ := List.mem_map.1 hmem
    exact Nat.ne_of_lt (h.task_lt hother) (htask.trans (congrArg Handle.task hhandle))
  · rw [after_concat]
    intro other hother
    rw [hact] at hother
    obtain hother | hother := List.mem_append.1 hother
    · obtain ⟨origin, hbegun⟩ := h.begun other hother
      refine ⟨origin, hbegun.concat ?_ ?_⟩
      · rw [hact]
        exact backing?_append hbegun.1 _
      · rw [hserves]
        simp [Deed.Closes, Nat.ne_of_lt (h.task_lt hother)]
    · cases List.mem_singleton.1 hother
      refine ⟨path, ?_, past, [], rfl, hbegins, ?_⟩
      · rw [after_concat, hact, hhandle, backing?]
        simp [Task.opened]
      · rw [after_concat, hserves, hhandle]
        simp

theorem Kept.openFile (h : w.Kept past) (path : String) :
    w.Kept (past ++ [.openFile path]) := by
  obtain ⟨handle, -, heq⟩ | ⟨handle, hbegins⟩ | ⟨e, heq | ⟨spec, heq⟩⟩ :=
    (w.after past).openFile_cases path
  · have hact : (w.after past).act (.openFile path) = w.after past := congrArg Prod.fst heq
    refine h.concat ?_ ?_ ?_
    all_goals rw [hact]
    · exact h.settled
    · exact fun _ _ _ hbacking => ⟨hbacking, by simp [Deed.Closes]⟩
  · exact h.begins hbegins
  · have hact : (w.after past).act (.openFile path) = w.after past := congrArg Prod.fst heq
    refine h.concat ?_ ?_ ?_
    all_goals rw [hact]
    · exact h.settled
    · exact fun _ _ _ hbacking => ⟨hbacking, by simp [Deed.Closes]⟩
  · have hact : (w.after past).act (.openFile path) = _ := congrArg Prod.fst heq
    refine h.concat ?_ ?_ ?_
    all_goals rw [hact]
    · exact h.settled.append (Task.isSettled_failed spec)
    · intro handle _ origin hbacking
      refine ⟨backing?_append hbacking _, ?_⟩
      rw [serves_append]
      simp [Deed.Closes, Nat.ne_of_lt (lt_of_backing? hbacking)]

theorem Kept.close (h : w.Kept past) (id : SessionId) : w.Kept (past ++ [.close id]) := by
  obtain heq | ⟨closed, hfound, heq⟩ := (w.after past).close_cases id
  · have hact : (w.after past).act (.close id) = w.after past := heq
    refine h.concat ?_ ?_ ?_
    all_goals rw [hact]
    · exact h.settled
    · exact fun _ _ _ hbacking => ⟨hbacking, by simp [Deed.Closes]⟩
  · let left : Workspace :=
      { w.after past with roster := (w.after past).roster.filter (·.session ≠ id) }
    have hact : (w.after past).act (.close id) = (left.request closed .close).1 := heq
    have hsettled : left.IsSettled := h.settled
    obtain ⟨hclosed, hsession⟩ := find?_eq_some hfound
    refine h.concat ?_ ?_ ?_
    all_goals rw [hact]
    · exact hsettled.request closed .close
    · rw [roster_request]
      exact List.filter_sublist
    · rw [roster_request]
      intro handle hhandle origin hbacking
      obtain ⟨hmem, hother⟩ := List.mem_filter.1 hhandle
      have htask : closed.task ≠ handle.task := fun htask => by
        rw [List.inj_on_of_nodup_map h.tasks hclosed hmem htask] at hsession
        simp [hsession] at hother
      refine ⟨((hsettled.rewrites_request closed .close).1 _).trans hbacking, ?_⟩
      rw [serves_request_close]
      simp [Deed.Closes, htask, left, serves]

theorem Kept.request (h : w.Kept past) (handle : Handle) (r : Request) :
    w.Kept (past ++ [.request handle r]) := by
  refine h.concat (h.settled.request handle r) ?_ fun other _ origin hbacking => ⟨?_, ?_⟩
  · rw [Workspace.act, roster_request]
  · exact ((h.settled.rewrites_request handle r).1 _).trans hbacking
  · rw [Workspace.act, Deed.closes_request]
    by_cases hclose : r = .close
    · rw [hclose, serves_request_close]
      simp
    · rw [h.settled.serves_request handle hclose]
      simp [hclose]

theorem closeAll_cases (w : Workspace) (hw : w.IsSettled) :
    w.closeAll.IsSettled ∧ w.closeAll.roster = [] := by
  have hall : ∀ (handles : List Handle) (w : Workspace), w.IsSettled → w.roster = [] →
      (handles.foldl (fun w handle => (w.request handle .close).1) w).IsSettled ∧
        (handles.foldl (fun w handle => (w.request handle .close).1) w).roster = [] := by
    intro handles
    induction handles with
    | nil => exact fun w hw hroster => ⟨hw, hroster⟩
    | cons handle handles ih =>
      exact fun w hw hroster =>
        ih _ (hw.request handle .close) ((w.roster_request handle .close).trans hroster)
  exact hall w.roster { w with roster := [] } hw rfl

theorem Kept.act (h : w.Kept past) (deed : Deed) : w.Kept (past ++ [deed]) := by
  cases deed with
  | openFile path => exact h.openFile path
  | close id => exact h.close id
  | closeAll =>
    obtain ⟨hsettled, hroster⟩ := closeAll_cases (w.after past) h.settled
    have hnone : ((w.after past).act .closeAll).roster = [] := hroster
    refine h.concat hsettled ?_ ?_
    · rw [hnone]
      exact List.nil_sublist _
    · rw [hnone]
      nofun
  | request handle r => exact h.request handle r
  | wait milliseconds =>
    exact h.concat (h.settled.wait milliseconds) (.refl _) fun handle _ origin hbacking =>
      ⟨(h.settled.backing?_wait milliseconds _).trans hbacking,
        by simp [Deed.Closes, Workspace.act, h.settled.serves_wait milliseconds]⟩
  | meanwhile change =>
    exact h.concat h.settled (.refl _) fun handle _ origin hbacking =>
      ⟨hbacking, by simp [Deed.Closes, Workspace.act, serves]⟩

theorem kept_nil (htasks : w.tasks = []) (hroster : w.roster = []) : w.Kept [] where
  settled t ht := by simp [after, htasks] at ht
  tasks := by simp [after, hroster]
  begun handle hhandle := by simp [after, hroster] at hhandle

theorem kept_after (htasks : w.tasks = []) (hroster : w.roster = []) (deeds : List Deed) :
    w.Kept deeds := by
  induction deeds using List.reverseRecOn with
  | nil => exact kept_nil htasks hroster
  | append_singleton deeds deed ih => exact ih.act deed

end Deeds

theorem mem_roster_of_openFile [RegexLibrary] (h : (w.openFile path).2 = .ok handle) :
    handle ∈ (w.openFile path).1.roster ∧ handle.session = idOfPath path := by
  obtain ⟨found, hfound, heq⟩ | ⟨new, hbegins⟩ | ⟨e, heq | ⟨spec, heq⟩⟩ := w.openFile_cases path
  · rw [heq] at h ⊢
    cases h
    exact find?_eq_some hfound
  · obtain ⟨-, hnew, text, profile, d, -, -, -, -, heq⟩ := hbegins
    rw [heq] at h ⊢
    cases h
    exact ⟨List.mem_append_right _ (List.mem_singleton.2 rfl), congrArg Handle.session hnew⟩
  · rw [heq] at h
    cases h
  · rw [heq] at h
    cases h

/-- A file is opened after files have been opened, sessions closed and requests made in any order.
    The session that is given back was started for a file whose path has the same name, from the
    text that was in it, and writes to that file alone. It still serves requests if and only if it
    has not been closed by a request of its own since. -/
theorem openFile_origin [RegexLibrary] (w : Workspace) (htasks : w.tasks = [])
    (hroster : w.roster = []) (deeds : List Deed) (path : String) (handle : Handle)
    (h : ((w.after deeds).openFile path).2 = .ok handle) :
    let last := w.after (deeds ++ [.openFile path])
    ∃ earlier origin later, deeds ++ [.openFile path] = earlier ++ .openFile origin :: later ∧
      (w.after earlier).Begins origin handle ∧ documentId origin = documentId path ∧
      ((∀ other, .openFile other ∈ deeds → documentId other = documentId path → other = path) →
        origin = path) ∧
      ∀ r, ((∃ id, (last.request handle r).2 = .error (.sessionGone id)) ↔
          ∃ deed ∈ later, deed.Closes handle.task) ∧
        ∃ texts, (last.request handle r).1.host.files = last.host.files.rewritten origin texts := by
  intro last
  have hkept : w.Kept (deeds ++ [.openFile path]) := kept_after htasks hroster _
  obtain ⟨hmem, hsession⟩ := mem_roster_of_openFile h
  have hlast : last = ((w.after deeds).openFile path).1 := after_concat w deeds _
  obtain ⟨origin, hbacking, earlier, later, hdeeds, hbegins, hserves⟩ :=
    hkept.begun handle (by rw [after_concat]; exact hmem)
  have hname : documentId origin = documentId path := by
    obtain ⟨-, hhandle, -⟩ := id hbegins
    rw [hhandle] at hsession
    exact congrArg SessionId.text hsession
  refine ⟨earlier, origin, later, hdeeds, hbegins, hname, fun hsame => ?_, fun r => ⟨?_, ?_⟩⟩
  · have horigin : Deed.openFile origin ∈ deeds ++ [.openFile path] := by
      rw [hdeeds]
      exact List.mem_append_right _ List.mem_cons_self
    obtain horigin | horigin := List.mem_append.1 horigin
    · exact hsame origin horigin hname
    · cases List.mem_singleton.1 horigin
      rfl
  · have hanswer := last.serves_iff handle r
    rw [hserves] at hanswer
    rw [← not_iff_not]
    push Not
    exact hanswer.symm
  · obtain ⟨texts, htexts⟩ := (hkept.settled.rewrites_request handle r).2
    rw [hbacking] at htexts
    exact ⟨texts, htexts⟩

/-- A file is opened again, after it has been written by others. -/
theorem openFile_origin_reopened :
    let p : Profile :=
      { id := "sh", extensions := ["sh"], lineComments := ["#"], strings := [.escaped "\""] }
    let w : Workspace :=
      { languages := ⟨[p]⟩
        host := { files := { entries := [(["a.sh"], .text "x\n")] } } }
    let handle : Handle := ⟨idOfPath "a.sh", 0⟩
    let deeds : List Deed := [.openFile "a.sh", .wait 20, .close (idOfPath "b.sh"),
      .meanwhile fun h => { h with files := (h.files.replace "a.sh" "y\n").1 }]
    let last := w.after (deeds ++ [.openFile "a.sh"])
    ((w.after deeds).openFile "a.sh").2 = .ok handle ∧
      ∀ r, (∀ id, (last.request handle r).2 ≠ .error (.sessionGone id)) ∧
        ∃ texts, (last.request handle r).1.host.files = last.host.files.rewritten "a.sh" texts := by
  intro p w handle deeds
  have hopen : ((w.after deeds).openFile "a.sh").2 = .ok handle := by
    have hdone : (Call.advance^[4] (w.after deeds, .find (.file "a.sh"))).2 =
        .returned (.ok handle) := by
      simp only [deeds, after, List.foldl, act, fst_openFile, fst_close]
      decide +kernel
    rw [Call.iterate_advance (n := 4) (Nat.le_refl _)] at hdone
    exact Call.returned.inj hdone
  have horigin := openFile_origin w rfl rfl deeds "a.sh" handle hopen
  generalize w.after (deeds ++ [.openFile "a.sh"]) = last at horigin ⊢
  intro last
  obtain ⟨earlier, origin, later, hdeeds, -, -, hsame, hrequests⟩ := horigin
  refine ⟨hopen, fun r => ?_⟩
  obtain ⟨hgone, hfiles⟩ := hrequests r
  have hname : origin = "a.sh" := hsame (by simp [deeds])
  have hlater : ¬ ∃ deed ∈ later, deed.Closes handle.task := by
    rintro ⟨deed, hdeed, hcloses⟩
    have hmem : deed ∈ deeds ++ [.openFile "a.sh"] := by
      rw [hdeeds]
      exact List.mem_append_right _ (List.mem_cons_of_mem _ hdeed)
    simp only [deeds, List.cons_append, List.nil_append, List.mem_cons, List.not_mem_nil] at hmem
    obtain rfl | rfl | rfl | rfl | rfl | hmem := hmem
    all_goals simp_all [Deed.Closes]
  exact ⟨fun id hid => hlater (hgone.1 ⟨id, hid⟩), hname ▸ hfiles⟩

end Workspace

end LiterateSync
