import LiterateSync.Proofs.Workspace.Serving
import LiterateSync.Text.Pattern.Library

namespace LiterateSync

/-- Calls that are under way at the same time, and the workspace that they share. -/
structure Traffic where
  workspace : Workspace
  calls : List Call

namespace Traffic

/-- What can happen next while calls are under way. -/
inductive Turn where
  /-- A call takes its next step. -/
  | call (index : Nat)
  /-- All sessions are forgotten at once, and each is then ended by a step of its own. -/
  | closeAll
  | request (handle : Handle) (r : Request)
  | wait (milliseconds : Nat)
  /-- Others do something to the files and to the outboxes. -/
  | meanwhile (change : Host → Host)

def turn [RegexLibrary] (x : Traffic) : Turn → Traffic
  | .call i =>
    match x.calls[i]? with
    | some c => ⟨(c.step x.workspace).1, x.calls.set i (c.step x.workspace).2⟩
    | none => x
  | .closeAll =>
    ⟨{ x.workspace with roster := [] },
      x.calls ++ x.workspace.roster.map fun handle => .stop handle handle⟩
  | .request handle r => { x with workspace := (x.workspace.request handle r).1 }
  | .wait milliseconds => { x with workspace := x.workspace.wait milliseconds }
  | .meanwhile change =>
    { x with workspace := { x.workspace with host := change x.workspace.host } }

/-- What has come about after several turns. -/
def run [RegexLibrary] (x : Traffic) (turns : List Turn) : Traffic :=
  turns.foldl turn x

end Traffic

namespace Call

/-- Whether a call has not taken a step yet. -/
def IsNew : Call → Prop
  | .find _ | .remove _ => True
  | _ => False

def IsOver : Call → Prop
  | .returned _ => True
  | _ => False

/-- The session that only this call still takes care of: it cannot be found, and has not been
    ended. -/
def charge? : Call → Option Handle
  | .register own => some own
  | .stop handle _ => some handle
  | _ => none

end Call

theorem Source.id_of_spec {source : Source} {w : Workspace} {spec : SessionSpec}
    (h : source.spec w = .ok spec) : spec.id = source.id := by
  cases source with
  | text id content language =>
    rw [Source.spec] at h
    split at h
    · cases h
    · cases h
      rfl
  | file path =>
    rw [Source.spec] at h
    split at h
    · cases h
    · split at h
      · cases h
      · cases h
        rfl

namespace Workspace

variable {w : Workspace} {id : SessionId} {handle : Handle}

/-- What is left of the roster when a name is taken off. -/
theorem perm_roster (hnames : (w.roster.map (·.session)).Nodup) (h : w.find? id = some handle) :
    w.roster.Perm (handle :: w.roster.filter (·.session ≠ id)) := by
  obtain ⟨hsession, before, after, hroster, hbefore⟩ := List.find?_eq_some_iff_append.1 h
  have hid : handle.session = id := by simpa using hsession
  rw [hroster, List.map_append, List.map_cons, hid, List.nodup_middle, List.nodup_cons] at hnames
  have hkeeps : ∀ items : List Handle, id ∉ items.map (·.session) →
      items.filter (·.session ≠ id) = items := fun items hitems => by
    rw [List.filter_eq_self]
    intro item hitem
    simpa using fun heq => hitems (List.mem_map.2 ⟨item, hitem, heq⟩)
  have hnot := hnames.1
  rw [List.mem_append, not_or] at hnot
  rw [hroster, List.filter_append, List.filter_cons_of_neg (by simp [hid]), hkeeps _ hnot.1,
    hkeeps _ hnot.2]
  exact List.perm_middle

end Workspace

namespace Call

variable {w : Workspace} {c : Call}

/-- Names are put on the roster and taken off it by one kind of step each. -/
theorem roster_step_cases [RegexLibrary] (w : Workspace) (c : Call) :
    (c.step w).1.roster = w.roster ∨
      (∃ own, c = .register own ∧ w.find? own.session = none ∧
        c.step w = ({ w with roster := w.roster ++ [own] }, .returned (.ok own))) ∨
      ∃ id handle, c = .remove id ∧ w.find? id = some handle ∧
        c.step w =
          ({ w with roster := w.roster.filter (·.session ≠ id) }, .stop handle handle) := by
  cases c with
  | find source => rw [step]; split <;> exact .inl rfl
  | start source =>
    rw [step]
    split
    · exact .inl rfl
    · rename_i spec hspec
      simp only
      split <;> exact .inl (w.roster_start spec)
  | register own =>
    rw [step]
    split
    · exact .inl rfl
    · exact .inr (.inl ⟨own, rfl, ‹_›, rfl⟩)
  | remove id =>
    rw [step]
    split
    · exact .inr (.inr ⟨id, _, rfl, ‹_›, rfl⟩)
    · exact .inl rfl
  | stop handle result => exact .inl (w.roster_request handle .close)
  | returned result => exact .inl rfl

theorem nodup_step [RegexLibrary] (h : (w.roster.map (·.session)).Nodup) (c : Call) :
    ((c.step w).1.roster.map (·.session)).Nodup := by
  obtain heq | ⟨own, -, hnone, heq⟩ | ⟨id, handle, -, -, heq⟩ := roster_step_cases w c
  · rwa [heq]
  · rw [heq, List.map_append, List.map_singleton, ← List.concat_eq_append, List.nodup_concat]
    exact ⟨Workspace.find?_eq_none.1 hnone, h⟩
  · rw [heq]
    exact h.sublist (List.filter_sublist.map _)

/-- Whether it is settled that a call will give a session back. -/
def Succeeds : Call → Prop
  | .stop _ _ | .returned (.ok _) => True
  | _ => False

theorem Succeeds.step [RegexLibrary] (h : c.Succeeds) (w : Workspace) : (c.step w).2.Succeeds := by
  cases c with
  | stop handle result => trivial
  | returned result => exact h
  | find | start | register | remove => exact h.elim

theorem succeeds_step [RegexLibrary] (h : (c.step w).1.roster ≠ w.roster) :
    (c.step w).2.Succeeds := by
  obtain heq | ⟨own, -, -, heq⟩ | ⟨id, handle, -, -, heq⟩ := roster_step_cases w c
  · exact absurd heq h
  · rw [heq]
    trivial
  · rw [heq]
    trivial

/-- What a call comes to that opens a session under a name, as long as none is closed. -/
def Leads (w : Workspace) (id : SessionId) : Call → Prop
  | .find source | .start source => source.id = id
  | .register own => own.session = id
  | .stop _ result | .returned (.ok result) => result.session = id ∧ result ∈ w.roster
  | .returned (.error _) => True
  | .remove _ => False

variable {id : SessionId}

theorem Leads.mono (h : c.Leads w id) {next : Workspace} (hroster : w.roster ⊆ next.roster) :
    c.Leads next id := by
  cases c with
  | stop handle result => exact h.imp_right (hroster ·)
  | returned result =>
    cases result with
    | ok result => exact h.imp_right (hroster ·)
    | error e => trivial
  | find | start | register | remove => exact h

theorem Leads.subset_step [RegexLibrary] (h : c.Leads w id) : w.roster ⊆ (c.step w).1.roster := by
  obtain heq | ⟨own, -, -, heq⟩ | ⟨id, handle, rfl, -, -⟩ := roster_step_cases w c
  · rw [heq]
    exact List.Subset.refl _
  · rw [heq]
    exact List.subset_append_left _ _
  · exact h.elim

theorem Leads.step [RegexLibrary] (h : c.Leads w id) : (c.step w).2.Leads (c.step w).1 id := by
  cases c with
  | find source =>
    rw [Call.step]
    split
    · rename_i handle hfound
      obtain ⟨hmem, hsession⟩ := Workspace.find?_eq_some hfound
      exact ⟨hsession.trans h, hmem⟩
    · exact h
  | start source =>
    rw [Call.step]
    split
    · trivial
    · rename_i spec hspec
      simp only
      split
      · trivial
      · exact (Source.id_of_spec hspec).trans h
  | register own =>
    rw [Call.step]
    split
    · rename_i existing hfound
      obtain ⟨hmem, hsession⟩ := Workspace.find?_eq_some hfound
      exact ⟨hsession.trans h, hmem⟩
    · exact ⟨h, List.mem_append_right _ (List.mem_singleton.2 rfl)⟩
  | remove => exact h.elim
  | stop handle result => exact h.imp_right ((w.roster_request handle .close).symm ▸ ·)
  | returned result => exact h

end Call

namespace Workspace

variable {w : Workspace} {handle : Handle} {others charges : List Handle}

/-- Whether the sessions that can be found, and those in the charge of a call, are all that are
    running. -/
structure Tended (w : Workspace) (charges : List Handle) : Prop where
  settled : w.IsSettled
  tasks : ((w.roster ++ charges).map (·.task)).Nodup
  serves_iff : ∀ n, w.serves n = true ↔ n ∈ (w.roster ++ charges).map (·.task)

theorem tended_nil (htasks : w.tasks = []) (hroster : w.roster = []) : w.Tended [] where
  settled t ht := by simp [htasks] at ht
  tasks := by simp [hroster]
  serves_iff n := by simp [serves, htasks, hroster]

namespace Tended

variable {next : Workspace}

/-- Who takes care of a session does not count. -/
theorem of_perm (h : w.Tended charges) (hsettled : next.IsSettled) {rest : List Handle}
    (hperm : (w.roster ++ charges).Perm (next.roster ++ rest))
    (hserves : ∀ n, next.serves n = w.serves n) : next.Tended rest where
  settled := hsettled
  tasks := (hperm.map _).nodup_iff.1 h.tasks
  serves_iff n := by rw [hserves, h.serves_iff, (hperm.map _).mem_iff]

theorem congr (h : w.Tended charges) (hsettled : next.IsSettled)
    (hroster : next.roster = w.roster) (hserves : ∀ n, next.serves n = w.serves n) :
    next.Tended charges :=
  h.of_perm hsettled (hroster ▸ .refl _) hserves

variable [RegexLibrary]

theorem request (h : w.Tended charges) (handle : Handle) {r : Request} (hclose : r ≠ .close) :
    (w.request handle r).1.Tended charges :=
  h.congr (h.settled.request handle r) (w.roster_request handle r)
    (h.settled.serves_request handle hclose)

theorem start (h : w.Tended others) (spec : SessionSpec) :
    ((w.start spec []).outcome = .ok () ∧
        (w.start spec []).workspace.Tended ((w.start spec []).handle :: others)) ∨
      ((∃ e, (w.start spec []).outcome = .error e) ∧
        (w.start spec []).workspace.Tended others) := by
  have hnew : w.tasks.length ∉ (w.roster ++ others).map (·.task) := fun hmem =>
    Nat.lt_irrefl _ (lt_of_serves ((h.serves_iff _).2 hmem))
  obtain ⟨d, -, heq⟩ | ⟨e, heq⟩ := w.start_cases spec
  · rw [heq]
    refine .inl ⟨rfl, h.settled.append (Task.isSettled_opened spec d), ?_, fun n => ?_⟩
    · exact (List.perm_middle.map _).nodup_iff.2 (List.nodup_cons.2 ⟨hnew, h.tasks⟩)
    · rw [serves_append, (List.perm_middle.map _).mem_iff, Bool.or_eq_true, h.serves_iff,
        List.map_cons, List.mem_cons, or_comm]
      simp [Task.opened, Task.isRunning]
  · rw [heq]
    refine .inr ⟨⟨_, rfl⟩, h.settled.append (Task.isSettled_failed spec), h.tasks, fun n => ?_⟩
    rw [serves_append, Bool.or_eq_true, h.serves_iff]
    simp [Task.failed, Task.isRunning, Session.new]

theorem stop (h : w.Tended (handle :: others)) :
    (w.request handle .close).1.Tended others := by
  have hperm : (w.roster ++ handle :: others).Perm (handle :: (w.roster ++ others)) :=
    List.perm_middle
  have htasks := (hperm.map (·.task)).nodup_iff.1 h.tasks
  rw [List.map_cons, List.nodup_cons] at htasks
  have hroster := w.roster_request handle .close
  refine ⟨h.settled.request handle .close, hroster ▸ htasks.2, fun n => ?_⟩
  rw [serves_request_close, Bool.and_eq_true, h.serves_iff, (hperm.map _).mem_iff, hroster,
    List.map_cons, List.mem_cons, decide_eq_true_eq]
  constructor
  · rintro ⟨rfl | hn, hne⟩
    · exact absurd rfl hne
    · exact hn
  · intro hn
    exact ⟨.inr hn, fun heq => htasks.1 (heq ▸ hn)⟩

/-- A step of a call hands over at most the session that is in its charge. -/
theorem step (hnames : (w.roster.map (·.session)).Nodup) {c : Call}
    (h : w.Tended (c.charge?.toList ++ others)) :
    (c.step w).1.Tended ((c.step w).2.charge?.toList ++ others) := by
  cases c with
  | find source => rw [Call.step]; split <;> exact h
  | start source =>
    rw [Call.step]
    split
    · exact h
    · rename_i spec hspec
      obtain ⟨houtcome, hnext⟩ | ⟨⟨e, houtcome⟩, hnext⟩ := Tended.start h spec
      · simp only [houtcome]
        exact hnext
      · simp only [houtcome]
        exact hnext
  | register own =>
    rw [Call.step]
    split
    · exact h
    · refine h.of_perm ?_ ?_ fun _ => rfl
      · exact h.settled
      · simp [Call.charge?]
  | remove id =>
    rw [Call.step]
    split
    · rename_i handle hfound
      refine h.of_perm ?_ ?_ fun _ => rfl
      · exact h.settled
      · exact ((perm_roster hnames hfound).append_right _).trans List.perm_middle.symm
    · exact h
  | stop handle result => exact stop h
  | returned result => exact h

end Tended

end Workspace

namespace Traffic

open Workspace

variable {x : Traffic} {i : Nat} {c : Call} {turn : Turn} {turns : List Turn}

theorem turn_call [RegexLibrary] (hc : x.calls[i]? = some c) :
    x.turn (.call i) = ⟨(c.step x.workspace).1, x.calls.set i (c.step x.workspace).2⟩ := by
  rw [Traffic.turn, hc]

/-- At most one session can be found under each name. -/
theorem nodup_turn [RegexLibrary] (h : (x.workspace.roster.map (·.session)).Nodup) (turn : Turn) :
    ((x.turn turn).workspace.roster.map (·.session)).Nodup := by
  cases turn with
  | call i =>
    cases hc : x.calls[i]? with
    | none =>
      rw [Traffic.turn, hc]
      exact h
    | some c =>
      rw [turn_call hc]
      exact Call.nodup_step h c
  | closeAll => exact List.nodup_nil
  | request handle r => exact (roster_request x.workspace handle r) ▸ h
  | wait milliseconds => exact h
  | meanwhile change => exact h

theorem nodup_run [RegexLibrary] (h : (x.workspace.roster.map (·.session)).Nodup)
    (turns : List Turn) : ((x.run turns).workspace.roster.map (·.session)).Nodup := by
  induction turns generalizing x with
  | nil => exact h
  | cons turn turns ih => exact ih (nodup_turn h turn)

/-- The sessions that calls take care of. -/
def charges (x : Traffic) : List Handle :=
  x.calls.filterMap Call.charge?

/-- Only steps of calls end tasks. -/
def Turn.Spares : Turn → Prop
  | .request _ r => r ≠ .close
  | _ => True

theorem perm_charges {calls : List Call} (hc : calls[i]? = some c) (next : Call) :
    ∃ others, (calls.filterMap Call.charge?).Perm (c.charge?.toList ++ others) ∧
      ((calls.set i next).filterMap Call.charge?).Perm (next.charge?.toList ++ others) := by
  have hi := (List.getElem?_eq_some_iff.1 hc).1
  have hsplit : calls = calls.take i ++ c :: calls.drop (i + 1) := by
    rw [← (List.getElem?_eq_some_iff.1 hc).2, List.getElem_cons_drop, List.take_append_drop]
  have hmiddle : ∀ item : Call, (calls.take i ++ item :: calls.drop (i + 1)).filterMap Call.charge?
      |>.Perm (item.charge?.toList ++
        (calls.take i ++ calls.drop (i + 1)).filterMap Call.charge?) := fun item => by
    have hperm : (calls.take i ++ item :: calls.drop (i + 1)).Perm
        (item :: (calls.take i ++ calls.drop (i + 1))) := List.perm_middle
    refine (hperm.filterMap _).trans ?_
    rw [List.filterMap_cons]
    cases item.charge? <;> rfl
  refine ⟨(calls.take i ++ calls.drop (i + 1)).filterMap Call.charge?, ?_, ?_⟩
  · have hold := hmiddle c
    rwa [← hsplit] at hold
  · rw [List.set_eq_take_append_cons_drop, if_pos hi]
    exact hmiddle next

theorem Turn.tended [RegexLibrary] (hnames : (x.workspace.roster.map (·.session)).Nodup)
    (h : x.workspace.Tended x.charges) (hturn : turn.Spares) :
    (x.turn turn).workspace.Tended (x.turn turn).charges := by
  cases turn with
  | call i =>
    cases hc : x.calls[i]? with
    | none =>
      rw [Traffic.turn, hc]
      exact h
    | some c =>
      rw [turn_call hc]
      obtain ⟨others, hold, hnew⟩ := perm_charges hc (c.step x.workspace).2
      have hmine : x.workspace.Tended (c.charge?.toList ++ others) :=
        h.of_perm h.settled (hold.append_left _) fun _ => rfl
      have hnext := hmine.step hnames
      exact hnext.of_perm hnext.settled (hnew.symm.append_left _) fun _ => rfl
  | closeAll =>
    have hstops : (x.workspace.roster.map fun handle => Call.stop handle handle).filterMap
        Call.charge? = x.workspace.roster := by
      rw [List.filterMap_map]
      exact List.filterMap_some
    refine h.of_perm ?_ ?_ fun _ => rfl
    · exact h.settled
    · rw [charges, charges, Traffic.turn, List.filterMap_append, hstops]
      exact List.perm_append_comm
  | request handle r => exact h.request handle hturn
  | wait milliseconds =>
    exact h.congr (h.settled.wait milliseconds) rfl (h.settled.serves_wait milliseconds)
  | meanwhile change => exact h.congr h.settled rfl fun _ => rfl

theorem tended_run [RegexLibrary] (hnames : (x.workspace.roster.map (·.session)).Nodup)
    (h : x.workspace.Tended x.charges) (hturns : ∀ turn ∈ turns, turn.Spares) :
    (x.run turns).workspace.Tended (x.run turns).charges := by
  induction turns generalizing x with
  | nil => exact h
  | cons turn turns ih =>
    obtain ⟨hturn, hturns⟩ := List.forall_mem_cons.1 hturns
    exact ih (nodup_turn hnames turn) (Turn.tended hnames h hturn) hturns

theorem getElem?_turn [RegexLibrary] (hc : x.calls[i]? = some c) (turn : Turn) :
    (x.turn turn).calls[i]? = some c ∨
      turn = .call i ∧ (x.turn turn).calls[i]? = some (c.step x.workspace).2 := by
  cases turn with
  | call j =>
    cases hj : x.calls[j]? with
    | none =>
      rw [Traffic.turn, hj]
      exact .inl hc
    | some other =>
      rw [turn_call hj, List.getElem?_set]
      by_cases heq : j = i
      · subst heq
        cases Option.some.inj (hj.symm.trans hc)
        exact .inr ⟨rfl, by simp [(List.getElem?_eq_some_iff.1 hc).1]⟩
      · exact .inl (by simp [heq, hc])
  | closeAll =>
    exact .inl ((List.getElem?_append_left (List.getElem?_eq_some_iff.1 hc).1).trans hc)
  | request handle r => exact .inl hc
  | wait milliseconds => exact .inl hc
  | meanwhile change => exact .inl hc

theorem succeeds_run [RegexLibrary] (hc : x.calls[i]? = some c) (hsucceeds : c.Succeeds)
    (turns : List Turn) : ∃ c, (x.run turns).calls[i]? = some c ∧ c.Succeeds := by
  induction turns generalizing x c with
  | nil => exact ⟨c, hc, hsucceeds⟩
  | cons turn turns ih =>
    obtain hsame | ⟨-, hstepped⟩ := getElem?_turn hc turn
    · exact ih hsame hsucceeds
    · exact ih hstepped (hsucceeds.step x.workspace)

/-- A call that puts a session on the roster does not fail any more. -/
theorem roster_turn_of_error [RegexLibrary] {e : WorkspaceError} {later : List Turn}
    (hfailed : ((x.turn (.call i)).run later).calls[i]? = some (.returned (.error e))) :
    (x.turn (.call i)).workspace.roster = x.workspace.roster := by
  cases hc : x.calls[i]? with
  | none => rw [Traffic.turn, hc]
  | some c =>
    rw [turn_call hc]
    by_contra hchanged
    have hstepped : (x.turn (.call i)).calls[i]? = some (c.step x.workspace).2 := by
      rw [turn_call hc]
      simp [(List.getElem?_eq_some_iff.1 hc).1]
    obtain ⟨c', hc', hsucceeds⟩ := succeeds_run hstepped (Call.succeeds_step hchanged) later
    cases Option.some.inj (hc'.symm.trans hfailed)
    exact hsucceeds

/-- As long as no session is forgotten, the calls keep to the names they were made for. -/
theorem leads_turn [RegexLibrary] (hleads : ∀ c ∈ x.calls, ∃ id, c.Leads x.workspace id)
    (hturn : turn ≠ .closeAll) {next : Call} (hnext : (x.turn turn).calls[i]? = some next) :
    ∃ c, x.calls[i]? = some c ∧
      ∀ id, c.Leads x.workspace id → next.Leads (x.turn turn).workspace id := by
  cases turn with
  | call j =>
    cases hj : x.calls[j]? with
    | none =>
      rw [Traffic.turn, hj] at hnext ⊢
      exact ⟨next, hnext, fun _ => id⟩
    | some c =>
      rw [turn_call hj] at hnext ⊢
      obtain ⟨id, hid⟩ := hleads c (List.mem_of_getElem? hj)
      rw [List.getElem?_set] at hnext
      split at hnext
      · rename_i hji
        rw [if_pos (List.getElem?_eq_some_iff.1 hj).1] at hnext
        cases hnext
        exact ⟨c, hji ▸ hj, fun _ h => h.step⟩
      · exact ⟨next, hnext, fun _ h => h.mono hid.subset_step⟩
  | closeAll => exact absurd rfl hturn
  | request handle r =>
    exact ⟨next, hnext, fun _ h => h.mono (roster_request x.workspace handle r ▸ .refl _)⟩
  | wait milliseconds => exact ⟨next, hnext, fun _ h => h.mono (.refl _)⟩
  | meanwhile change => exact ⟨next, hnext, fun _ h => h.mono (.refl _)⟩

theorem leads_run [RegexLibrary] (hleads : ∀ c ∈ x.calls, ∃ id, c.Leads x.workspace id)
    (hturns : .closeAll ∉ turns) {next : Call} (hnext : (x.run turns).calls[i]? = some next) :
    ∃ c, x.calls[i]? = some c ∧
      ∀ id, c.Leads x.workspace id → next.Leads (x.run turns).workspace id := by
  induction turns generalizing x with
  | nil => exact ⟨next, hnext, fun _ => id⟩
  | cons turn turns ih =>
    have hturn : turn ≠ .closeAll := fun heq => hturns (heq ▸ List.mem_cons_self)
    have hafter : ∀ c ∈ (x.turn turn).calls, ∃ id, c.Leads (x.turn turn).workspace id := by
      intro c hc
      obtain ⟨j, hj⟩ := List.getElem?_of_mem hc
      obtain ⟨before, hbefore, hkept⟩ := leads_turn hleads hturn hj
      obtain ⟨id, hid⟩ := hleads before (List.mem_of_getElem? hbefore)
      exact ⟨id, hkept id hid⟩
    obtain ⟨between, hbetween, hlater⟩ :=
      ih hafter (fun hmem => hturns (List.mem_cons_of_mem _ hmem)) hnext
    obtain ⟨c, hc, hearlier⟩ := leads_turn hleads hturn hbetween
    exact ⟨c, hc, fun id h => hlater id (hearlier id h)⟩

theorem eq_of_session_eq {roster : List Handle} (hnames : (roster.map (·.session)).Nodup)
    {a b : Handle} (ha : a ∈ roster) (hb : b ∈ roster) (hsession : a.session = b.session) :
    a = b :=
  List.inj_on_of_nodup_map hnames ha hb hsession

/-- Sessions are opened and closed by any number of calls, whose steps are taken in any order.

  - At most one session can be found under each name.
  - As long as none is closed, all calls that open one under the same name, and succeed, come to
    the same session.
  - A call that fails puts no session on the roster.
  - When all calls are over, and no session was closed behind their backs, the running tasks are
    those of the sessions that can be found: whoever came too late has ended its own. -/
theorem opens_agree [RegexLibrary] (x : Traffic) (htasks : x.workspace.tasks = [])
    (hroster : x.workspace.roster = []) (hnew : ∀ c ∈ x.calls, c.IsNew) (turns : List Turn) :
    let last := x.run turns
    (last.workspace.roster.map (·.session)).Nodup ∧
      ((∀ id, .remove id ∉ x.calls) → .closeAll ∉ turns →
        ∀ (i j : Nat) (source source' : Source) (handle handle' : Handle),
          source.id = source'.id →
          x.calls[i]? = some (.find source) → x.calls[j]? = some (.find source') →
          last.calls[i]? = some (.returned (.ok handle)) →
          last.calls[j]? = some (.returned (.ok handle')) →
          handle = handle' ∧ handle.session = source.id ∧ handle ∈ last.workspace.roster) ∧
      (∀ i e earlier later, turns = earlier ++ .call i :: later →
        last.calls[i]? = some (.returned (.error e)) →
        ((x.run earlier).turn (.call i)).workspace.roster = (x.run earlier).workspace.roster) ∧
      ((∀ turn ∈ turns, turn.Spares) → (∀ c ∈ last.calls, c.IsOver) →
        ∀ n, last.workspace.serves n = true ↔
          ∃ handle ∈ last.workspace.roster, handle.task = n) := by
  have hstart : (x.workspace.roster.map (·.session)).Nodup := by
    rw [hroster]
    exact List.nodup_nil
  have hnames := nodup_run hstart turns
  refine ⟨hnames, ?_, ?_, ?_⟩
  · intro hremoves hcloses i j source source' handle handle' hid hi hj hlast hlast'
    have hleads : ∀ c ∈ x.calls, ∃ id, c.Leads x.workspace id := by
      intro c hc
      cases c with
      | find source => exact ⟨source.id, rfl⟩
      | remove id => exact absurd hc (hremoves id)
      | start | register | stop | returned => exact (hnew _ hc).elim
    obtain ⟨c, hc, hkept⟩ := leads_run hleads hcloses hlast
    cases Option.some.inj (hi.symm.trans hc)
    obtain ⟨c', hc', hkept'⟩ := leads_run hleads hcloses hlast'
    cases Option.some.inj (hj.symm.trans hc')
    obtain ⟨hsession, hmem⟩ := hkept source.id rfl
    obtain ⟨hsession', hmem'⟩ := hkept' source'.id rfl
    exact ⟨eq_of_session_eq hnames hmem hmem' (hsession.trans (hid.trans hsession'.symm)),
      hsession, hmem⟩
  · rintro i e earlier later rfl hfailed
    rw [run, List.foldl_append, List.foldl_cons] at hfailed
    exact roster_turn_of_error hfailed
  · intro hspares hover n
    have hcharges : ∀ calls : List Call, (∀ c ∈ calls, c.charge? = none) →
        calls.filterMap Call.charge? = [] := fun _ h => List.filterMap_eq_nil_iff.2 h
    have hnone : x.charges = [] := hcharges _ fun c hc => by
      cases c with
      | find | remove => rfl
      | start | register | stop | returned => exact (hnew _ hc).elim
    have htended : x.workspace.Tended x.charges := by
      rw [hnone]
      exact tended_nil htasks hroster
    have hlast := (tended_run hstart htended hspares).serves_iff n
    have hdone : (x.run turns).charges = [] := hcharges _ fun c hc => by
      cases c with
      | returned result => rfl
      | find | start | register | remove | stop => exact (hover _ hc).elim
    rw [hlast, hdone, List.append_nil, List.mem_map]

/-- Two calls start a session under one name, and the first of them is the last to register its
    own. A third call fails. -/
theorem opens_agree_race :
    let x : Traffic :=
      { workspace :=
          { languages := ⟨[{ id := "sh", lineComments := ["#"], strings := [.escaped "\""] }]⟩ }
        calls := [.find (.text ⟨"s"⟩ "x\n" "sh"), .find (.text ⟨"s"⟩ "" "sh"),
          .find (.text ⟨"t"⟩ "" "py")] }
    let turns : List Turn :=
      [.call 0, .call 1, .call 0, .call 1, .call 1, .call 0, .call 2, .call 2, .call 0]
    let last := x.run turns
    last.calls = [.returned (.ok ⟨⟨"s"⟩, 1⟩), .returned (.ok ⟨⟨"s"⟩, 1⟩),
        .returned (.error (.segment (.unsupported "py")))] ∧
      (last.workspace.roster.map (·.session)).Nodup ∧
      ⟨⟨"s"⟩, 1⟩ ∈ last.workspace.roster ∧
      ∀ n, last.workspace.serves n = true ↔
        ∃ handle ∈ last.workspace.roster, handle.task = n := by
  intro x turns
  have hcalls : (x.run turns).calls = [.returned (.ok ⟨⟨"s"⟩, 1⟩), .returned (.ok ⟨⟨"s"⟩, 1⟩),
      .returned (.error (.segment (.unsupported "py")))] := by decide +kernel
  have hnew : ∀ c ∈ x.calls, c.IsNew := by simp [x, Call.IsNew]
  have hagree := opens_agree x rfl rfl hnew turns
  -- what the run comes to is not computed again
  generalize x.run turns = last at hcalls hagree ⊢
  intro last
  have hspares : ∀ turn ∈ turns, turn.Spares := by simp [turns, Turn.Spares]
  have hover : ∀ c ∈ last.calls, c.IsOver := by simp [last, hcalls, Call.IsOver]
  obtain ⟨hnames, hsame, -, hserves⟩ := hagree
  obtain ⟨-, -, hmem⟩ := hsame (by simp [x]) (by simp [turns]) 0 1 (.text ⟨"s"⟩ "x\n" "sh")
    (.text ⟨"s"⟩ "" "sh") ⟨⟨"s"⟩, 1⟩ ⟨⟨"s"⟩, 1⟩ rfl rfl rfl (by simp [hcalls]) (by simp [hcalls])
  exact ⟨hcalls, hnames, hmem, hserves hspares hover⟩

end Traffic

end LiterateSync
