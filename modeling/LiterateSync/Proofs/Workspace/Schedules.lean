import Mathlib
import LiterateSync.Text.Pattern.Library
import LiterateSync.Proofs.Workspace.Muting

namespace LiterateSync

namespace Task

variable {t : Task} {h : Host} {now : Nat} {r : Request}

/-- A document is there until the task is closed. -/
theorem isSome_document_flush [RegexLibrary] (ht : t.Orderly)
    (hdocument : t.session.document.isSome) : (t.flush h).1.session.document.isSome := by
  induction t, h using flush.induct with
  | case1 t h hrest => rwa [flush_of_nil hrest]
  | case2 t h e rest hevents next ih =>
    rw [flush_of_cons hevents]
    have hrest : (t.withEvents rest).Orderly := ht.withEvents rest
    refine ih (hrest.carryOut h e) ?_
    change ((t.withEvents rest).carryOut h e).1.session.document.isSome
    cases e with
    | send peer m =>
      rw [carryOut]
      obtain ⟨-, heq⟩ | ⟨id, host, -, -, heq⟩ | ⟨id, -, -, heq⟩ :=
        (t.withEvents rest).deliver_cases h peer m
      all_goals
        rw [heq]
        exact hdocument
    | writeFile revision text =>
      rw [carryOut]
      split
      · rw [acknowledged_eq]
        exact (Session.responds_step hrest.consistent _).isSome_document hdocument (by simp)
      · exact hdocument

theorem isRunning_of_isSome (ht : t.Orderly) (hdocument : t.session.document.isSome) :
    t.isRunning = true := by
  rcases ht.consistent.document_iff.1 hdocument with hphase | hphase | hphase <;>
    simp [isRunning, hphase]

theorem Orderly.isSome_document_handle [RegexLibrary] (ht : t.Orderly)
    (hrest : t.session.events = []) (hdocument : t.session.document.isSome) (hclose : r ≠ .close) :
    (t.handle now h r).1.session.document.isSome := by
  have hstep : ∀ c : Session.Command, c ≠ .close → (t.session.step c).1.document.isSome :=
    fun c hc => (Session.responds_step ht.consistent c).isSome_document hdocument hc
  have haccepted : (t.accept now h r).1.session.document.isSome := by
    cases r with
    | subscribe peer o => exact hstep (.subscribe peer) nofun
    | unsubscribe peer => exact hdocument
    | message sender m => exact hstep (.message sender m) nofun
    | viewEdit sender base view => exact hstep (.viewEdit sender base view) nofun
    | localEdit patch => exact hstep (.localEdit now patch) nofun
    | fileChanged text => exact hstep (.fileChanged text) nofun
    | snapshot => exact hdocument
    | phase => exact hdocument
    | close => exact absurd rfl hclose
  rw [(Prod.mk.inj (handle_eq hrest now h r)).1]
  exact isSome_document_flush (ht.accept now h r) haccepted

end Task

namespace Request

instance (r : Request) : Decidable r.CanWait :=
  match r with
  | .subscribe .. | .close => .isFalse id
  | .unsubscribe _ | .message .. | .viewEdit .. | .localEdit _ | .fileChanged _ | .snapshot
  | .phase => .isTrue trivial

/-- The outboxes that the peers have after a request. -/
def assign (outboxes : PeerId → Option OutboxId) : Request → PeerId → Option OutboxId
  | .subscribe peer o => Function.update outboxes peer (some o)
  | .unsubscribe peer => Function.update outboxes peer none
  | _ => outboxes

/-- A task without peers and its host after a request is accepted. Peers that come are passed
    over. -/
def acceptQuietly [RegexLibrary] (quiet : Task × Host) : Request → Task × Host
  | .subscribe .. => quiet
  | r => quiet.1.accept 0 quiet.2 r

/-- A task without peers and its host after a request. -/
def quietly [RegexLibrary] (quiet : Task × Host) (r : Request) : Task × Host :=
  (r.acceptQuietly quiet).1.flush (r.acceptQuietly quiet).2

theorem eq_some_of_assign {outboxes : PeerId → Option OutboxId} {r : Request} {v : PeerId}
    {o : OutboxId} (h : r.assign outboxes v = some o) :
    outboxes v = some o ∨ r = .subscribe v o := by
  cases r with
  | subscribe peer id =>
    rw [assign, Function.update_apply] at h
    split at h
    · rename_i heq
      cases h
      exact .inr (heq ▸ rfl)
    · exact .inl h
  | unsubscribe peer =>
    rw [assign, Function.update_apply] at h
    split at h
    · cases h
    · exact .inl h
  | _ => exact .inl h

end Request

/-- What a task whose outboxes do not fill up has come to: how it would stand without its peers, and
    which outboxes the peers have. -/
structure Task.Stands (quiet : Task × Host) (outboxes : PeerId → Option OutboxId) (t : Task)
    (h : Host) : Prop where
  orderly : t.Orderly
  muted_eq : (t.muted, h.muted) = quiet
  outbox?_eq : ∀ v, t.outbox? v = outboxes v
  mem_subscribers_iff : ∀ v, v ∈ t.session.subscribers ↔ (outboxes v).isSome

namespace Task.Stands

variable [RegexLibrary] {quiet : Task × Host} {outboxes : PeerId → Option OutboxId} {t : Task}
    {h : Host}
  {now : Nat} {r : Request}

theorem subscribe (hs : Stands quiet outboxes t h) (peer : PeerId) (o : OutboxId) :
    Stands quiet (Function.update outboxes peer (some o)) (t.subscribe h peer o).1
      (t.subscribe h peer o).2 where
  orderly := hs.orderly.subscribe h peer o
  muted_eq := (t.muted_subscribe h peer o).trans hs.muted_eq
  outbox?_eq v := by
    rw [outbox?_subscribe, Function.update_apply, hs.outbox?_eq]
  mem_subscribers_iff v := by
    change v ∈ (t.session.subscribe peer).subscribers ↔ _
    rw [Session.mem_subscribers_subscribe_iff, Function.update_apply, hs.mem_subscribers_iff]
    split <;> simp [*]

theorem dismiss (hs : Stands quiet outboxes t h) (peer : PeerId) :
    Stands (quiet.1.dismiss quiet.2 peer) (Function.update outboxes peer none)
      (t.dismiss h peer).1 (t.dismiss h peer).2 where
  orderly := hs.orderly.dismiss h peer
  muted_eq := by
    rw [← hs.muted_eq]
    exact congrArg (_, ·) (t.muted_dropOutbox h peer)
  outbox?_eq v := by
    refine (t.outbox?_release peer v).trans ?_
    rw [Function.update_apply, hs.outbox?_eq]
  mem_subscribers_iff v := by
    change v ∈ (t.session.unsubscribe peer).subscribers ↔ _
    rw [Session.mem_subscribers_unsubscribe_iff, Function.update_apply, hs.mem_subscribers_iff]
    split <;> simp [*]

theorem obey (hs : Stands quiet outboxes t h) {c : Session.Command} (hc : c.IsPlain)
    (htime : ∀ now, c ≠ .tick now) :
    Stands (quiet.1.obey c.timeless, quiet.2) outboxes (t.obey c) h := by
  have hcomes : ∀ peer, c ≠ .subscribe peer := by
    rintro peer rfl
    exact hc
  have hleaves : ∀ peer, c ≠ .unsubscribe peer := by
    rintro peer rfl
    exact hc
  refine ⟨hs.orderly.obey hc, ?_, hs.outbox?_eq, fun v => ?_⟩
  · rw [← hs.muted_eq, t.muted_obey hcomes htime]
  · change v ∈ (t.session.step c).1.subscribers ↔ _
    rw [Session.subscribers_step hcomes hleaves]
    exact hs.mem_subscribers_iff v

theorem flush (hs : Stands quiet outboxes t h)
    (hroom : ∀ v o, outboxes v = some o → (t.flush h).2.HasRoom o) :
    Stands (quiet.1.flush quiet.2) outboxes (t.flush h).1 (t.flush h).2 := by
  obtain ⟨houtboxes, hsubscribers, hflush⟩ := t.muted_flush fun v o ho =>
    hroom v o ((hs.outbox?_eq v).symm.trans ho)
  refine ⟨hs.orderly.flush h, ?_, fun v => ?_, fun v => ?_⟩
  · rw [← hs.muted_eq, hflush]
  · rw [outbox?, houtboxes]
    exact hs.outbox?_eq v
  · rw [hsubscribers]
    exact hs.mem_subscribers_iff v

theorem accept (hs : Stands quiet outboxes t h) (hclose : r ≠ .close) :
    Stands (r.acceptQuietly quiet) (r.assign outboxes) (t.accept now h r).1
      (t.accept now h r).2 := by
  cases r with
  | subscribe peer o => exact hs.subscribe peer o
  | unsubscribe peer => exact hs.dismiss peer
  | message sender m => exact hs.obey (c := .message sender m) trivial nofun
  | viewEdit sender base view => exact hs.obey (c := .viewEdit sender base view) trivial nofun
  | localEdit patch => exact hs.obey (c := .localEdit now patch) trivial nofun
  | fileChanged text => exact hs.obey (c := .fileChanged text) trivial nofun
  | snapshot => exact hs
  | phase => exact hs
  | close => exact absurd rfl hclose

theorem handle (hs : Stands quiet outboxes t h) (hrest : t.session.events = [])
    (hclose : r ≠ .close)
    (hroom : ∀ v o, r.assign outboxes v = some o → (t.handle now h r).2.1.HasRoom o) :
    Stands (r.quietly quiet) (r.assign outboxes) (t.handle now h r).1 (t.handle now h r).2.1 := by
  obtain ⟨htask, hhost⟩ := Prod.mk.inj (handle_eq hrest now h r)
  rw [hhost] at hroom
  rw [htask, hhost]
  exact (hs.accept hclose).flush hroom

end Task.Stands

namespace Scene

variable [RegexLibrary]

/-- Requests that come one after the other, each at its time. -/
def requests (timed : List (Nat × Request)) : List Happening :=
  timed.map fun (now, r) => .request now r

theorem run_append (s : Scene) (xs ys : List Happening) : s.run (xs ++ ys) = (s.run xs).run ys :=
  List.foldl_append

theorem hasRoom_of_run {s : Scene} {timed : List (Nat × Request)} {o : OutboxId}
    (hrest : s.task.session.events = [])
    (hearly : ∀ l, s.stage = .loading l → l.IsEarly fun _ => True)
    (hroom : (s.run (requests timed)).host.HasRoom o) : s.host.HasRoom o := by
  have hstart : s.Holds (fun _ => True) (fun _ _ h => h.HasRoom o → s.host.HasRoom o) [] :=
    ⟨fun h => h, hrest, hearly⟩
  refine ((Task.keeps_hasRoom s.host o).run hstart fun x hx => ?_).inv hroom
  obtain ⟨y, -, rfl⟩ := List.mem_map.1 hx
  trivial

/-- What a task comes to that serves some requests. -/
theorem stands_run {quiet : Task × Host} {outboxes : PeerId → Option OutboxId} {t : Task}
    {h : Host} {timed : List (Nat × Request)} (hs : t.Stands quiet outboxes h)
    (hrest : t.session.events = []) (hdocument : t.session.document.isSome)
    (hclose : ∀ x ∈ timed, x.2 ≠ .close)
    (hroom : ∀ v o, outboxes v = some o ∨ .subscribe v o ∈ timed.map (·.2) →
      ((⟨.ready t, h⟩ : Scene).run (requests timed)).host.HasRoom o) :
    let s := (⟨.ready t, h⟩ : Scene).run (requests timed)
    s.task.Stands ((timed.map (·.2)).foldl Request.quietly quiet)
      ((timed.map (·.2)).foldl Request.assign outboxes) s.host ∧
        s.task.session.document.isSome := by
  induction timed generalizing t h quiet outboxes with
  | nil => exact ⟨hs, hdocument⟩
  | cons x timed ih =>
    obtain ⟨now, r⟩ := x
    obtain ⟨hr, hclose⟩ := List.forall_mem_cons.1 hclose
    have hstep : (⟨.ready t, h⟩ : Scene).step (.request now r) =
        ⟨.ready (t.handle now h r).1, (t.handle now h r).2.1⟩ := by
      simp only [step, t.isRunning_of_isSome hs.orderly hdocument, if_true]
    have hrun : (⟨.ready t, h⟩ : Scene).run (requests ((now, r) :: timed)) =
        (⟨.ready (t.handle now h r).1, (t.handle now h r).2.1⟩ : Scene).run (requests timed) :=
      congrArg (run · (requests timed)) hstep
    rw [hrun] at hroom ⊢
    have hafter : ∀ v o, r.assign outboxes v = some o → outboxes v = some o ∨
        .subscribe v o ∈ r :: timed.map (·.2) := by
      intro v o ho
      obtain ho | rfl := Request.eq_some_of_assign ho
      · exact .inl ho
      · exact .inr List.mem_cons_self
    have hlater : (t.handle now h r).1.session.events = [] := Task.events_handle hrest now h r
    have hnext : Task.Stands (r.quietly quiet) (r.assign outboxes) (t.handle now h r).1
        (t.handle now h r).2.1 := hs.handle hrest hr fun v o ho =>
      hasRoom_of_run (s := ⟨.ready _, _⟩) hlater (fun _ hl => by cases hl)
        (hroom v o (hafter v o ho))
    refine ih hnext hlater (hs.orderly.isSome_document_handle hrest hdocument hr) hclose ?_
    rintro v o (ho | ho)
    · exact hroom v o (hafter v o ho)
    · exact hroom v o (.inr (List.mem_cons_of_mem r ho))

/-- A request that waited is handled like one that comes when the document is made. -/
theorem run_ready (t : Task) (h : Host) (now : Nat) {deferred : List Request}
    (hwait : ∀ r ∈ deferred, r.CanWait) :
    (⟨.ready t, h⟩ : Scene).run (requests (deferred.map (now, ·))) =
      ⟨.ready (t.handleAll now h deferred).1, (t.handleAll now h deferred).2.1⟩ := by
  induction deferred generalizing t h with
  | nil => rfl
  | cons r deferred ih =>
    obtain ⟨hr, hwait⟩ := List.forall_mem_cons.1 hwait
    have hstep : (⟨.ready t, h⟩ : Scene).run (requests ((r :: deferred).map (now, ·))) =
        ((⟨.ready t, h⟩ : Scene).step (.request now r)).run (requests (deferred.map (now, ·))) :=
      rfl
    rw [hstep, Task.handleAll]
    cases hrunning : t.isRunning with
    | true =>
      simp only [step, hrunning, if_true]
      exact ih _ _ hwait
    | false =>
      have hrefuse : Workspace.refuse h r = h := by
        cases r <;> first | rfl | exact hr.elim
      simp only [step, hrunning, Bool.false_eq_true, if_false, hrefuse]
      exact ih _ _ hwait

/-- What a task comes to while its document is being made. -/
theorem stands_early {quiet : Task × Host} {outboxes : PeerId → Option OutboxId} {l : Loading}
    {h : Host} {timed : List (Nat × Request)} (hs : l.task.Stands quiet outboxes h)
    (hphase : l.task.session.phase = .loading) (hclose : ∀ x ∈ timed, x.2 ≠ .close) :
    ∃ next host, (⟨.loading l, h⟩ : Scene).run (requests timed) = ⟨.loading next, host⟩ ∧
      next.task.Stands quiet
        (((timed.map (·.2)).filter (¬ ·.CanWait)).foldl Request.assign outboxes) host ∧
      next.task.session.phase = .loading ∧
      next.deferred = l.deferred ++ (timed.map (·.2)).filter (·.CanWait) := by
  induction timed generalizing l h outboxes with
  | nil => exact ⟨l, h, rfl, hs, hphase, (List.append_nil _).symm⟩
  | cons x timed ih =>
    obtain ⟨now, r⟩ := x
    obtain ⟨hr, hothers⟩ := List.forall_mem_cons.1 hclose
    have hrunning : l.task.isRunning = true := by simp [Task.isRunning, hphase]
    have hrun : (⟨.loading l, h⟩ : Scene).run (requests ((now, r) :: timed)) =
        (⟨.loading (l.receive h r).1, (l.receive h r).2⟩ : Scene).run (requests timed) := rfl
    obtain ⟨-, hnow, heq⟩ | ⟨hwait, heq⟩ | ⟨hover, -⟩ := l.receive_cases now h r
    · cases r with
      | subscribe peer o =>
        have hloading := (l.task.phase_subscribe h peer o).trans hphase
        obtain ⟨next, host, hnext, hstands⟩ := ih (l := { l with task := _ })
          (hs.subscribe peer o) hloading hothers
        rw [hrun, heq]
        exact ⟨next, host, hnext, hstands⟩
      | close => exact absurd rfl hr
      | _ => exact absurd trivial hnow
    · rw [hrun, heq]
      obtain ⟨next, host, hnext, hstands, hloading, hdeferred⟩ :=
        ih (l := { l with deferred := l.deferred ++ [r] }) hs hphase hothers
      refine ⟨next, host, hnext, ?_, hloading, ?_⟩
      · simpa [hwait] using hstands
      · simpa [hwait] using hdeferred
    · simp [hrunning] at hover

/-- When the document is made, the requests that have waited come before all others. -/
theorem run_made {l : Loading} {h : Host} (now : Nat) (d : Document) (late : List (Nat × Request))
    (hphase : l.task.session.phase = .loading) (hwait : ∀ r ∈ l.deferred, r.CanWait) :
    (⟨.loading l, h⟩ : Scene).run (.made now (.ok d) :: requests late) =
      (⟨.ready ((l.task.obey (.finishOpen (.ok d))).flush h).1,
        ((l.task.obey (.finishOpen (.ok d))).flush h).2⟩ : Scene).run
          (requests (l.deferred.map (now, ·) ++ late)) := by
  have houtcome : (l.task.session.finishOpen (.ok d)).2 = .ok () := by
    rw [Session.finishOpen, hphase]
  have hmade : (⟨.loading l, h⟩ : Scene).step (.made now (.ok d)) =
      (⟨.ready ((l.task.obey (.finishOpen (.ok d))).flush h).1,
        ((l.task.obey (.finishOpen (.ok d))).flush h).2⟩ : Scene).run
          (requests (l.deferred.map (now, ·))) := by
    rw [run_ready _ _ now hwait]
    simp only [step, l.finish_of_ok now h houtcome]
  have happend : requests (l.deferred.map (now, ·) ++ late) =
      requests (l.deferred.map (now, ·)) ++ requests late := List.map_append
  rw [happend, run_append, ← hmade]
  rfl

/-- What a task comes to after its document is made. -/
theorem stands_made {quiet : Task × Host} {outboxes : PeerId → Option OutboxId} {l : Loading}
    {h : Host} {late : List (Nat × Request)} (hs : l.task.Stands quiet outboxes h)
    (hphase : l.task.session.phase = .loading) (hwait : ∀ r ∈ l.deferred, r.CanWait)
    (now : Nat) (d : Document) (hclose : ∀ x ∈ late, x.2 ≠ .close)
    (hroom : ∀ v o, outboxes v = some o ∨ .subscribe v o ∈ late.map (·.2) →
      ((⟨.loading l, h⟩ : Scene).run (.made now (.ok d) :: requests late)).host.HasRoom o) :
    let s := (⟨.loading l, h⟩ : Scene).run (.made now (.ok d) :: requests late)
    let opened := (quiet.1.obey (.finishOpen (.ok d))).flush quiet.2
    s.task.Stands ((l.deferred ++ late.map (·.2)).foldl Request.quietly opened)
      ((l.deferred ++ late.map (·.2)).foldl Request.assign outboxes) s.host ∧
        s.task.session.document.isSome := by
  intro s opened
  have hnames : (l.deferred.map (now, ·) ++ late).map (·.2) = l.deferred ++ late.map (·.2) := by
    simp [Function.comp_def]
  have hrun : s = _ := run_made now d late hphase hwait
  have hothers : ∀ x ∈ l.deferred.map (now, ·) ++ late, x.2 ≠ .close := by
    intro x hx
    rcases List.mem_append.1 hx with hx | hx
    · obtain ⟨r, hr, rfl⟩ := List.mem_map.1 hx
      rintro rfl
      exact hwait _ hr
    · exact hclose x hx
  have hmade : ∀ v o, outboxes v = some o ∨
      .subscribe v o ∈ (l.deferred.map (now, ·) ++ late).map (·.2) → s.host.HasRoom o := by
    intro v o ho
    rw [hnames, List.mem_append] at ho
    rcases ho with ho | ho | ho
    · exact hroom v o (.inl ho)
    · exact (hwait _ ho).elim
    · exact hroom v o (.inr ho)
  have hopened : (l.task.obey (.finishOpen (.ok d))).session.document = some d := by
    change (l.task.session.finishOpen (.ok d)).1.document = some d
    rw [Session.finishOpen, hphase]
    simp only [Session.sendAll_eq]
    rfl
  rw [hrun] at hmade ⊢
  have hfinished := hs.obey (c := .finishOpen (.ok d)) trivial (by simp)
  have hevents := Task.events_flush (l.task.obey (.finishOpen (.ok d))) h
  have hflushed := hfinished.flush fun v o ho =>
    hasRoom_of_run (s := ⟨.ready _, _⟩) hevents (fun _ hl => by cases hl) (hmade v o (.inl ho))
  have hdocument := Task.isSome_document_flush (h := h) hfinished.orderly (by simp [hopened])
  rw [← hnames]
  exact stands_run hflushed hevents hdocument hothers hmade

end Scene

namespace Request

/-- Whether no peer comes after it has left. -/
def NoneReturns (requests : List Request) : Prop :=
  requests.Pairwise fun a b => ∀ v o, a = .unsubscribe v → b ≠ .subscribe v o

theorem assign_comm {r : Request} (hwait : r.CanWait) {v : PeerId} (hleaves : r ≠ .unsubscribe v)
    (outboxes : PeerId → Option OutboxId) (o : OutboxId) :
    r.assign (assign outboxes (.subscribe v o)) = assign (r.assign outboxes) (.subscribe v o) := by
  cases r with
  | subscribe peer id => exact hwait.elim
  | unsubscribe peer =>
    have hne : v ≠ peer := fun heq => hleaves (heq ▸ rfl)
    exact Function.update_comm hne _ _ _
  | _ => rfl

theorem foldl_assign_comm {r : Request} (hwait : r.CanWait) {early : List Request}
    (hearly : ∀ e ∈ early, ¬ e.CanWait)
    (hreturns : ∀ v o, .subscribe v o ∈ early → r ≠ .unsubscribe v)
    (outboxes : PeerId → Option OutboxId) :
    r.assign (early.foldl assign outboxes) = early.foldl assign (r.assign outboxes) := by
  induction early generalizing outboxes with
  | nil => rfl
  | cons e early ih =>
    obtain ⟨he, hearly⟩ := List.forall_mem_cons.1 hearly
    rw [List.foldl_cons, List.foldl_cons,
      ih hearly fun v o ho => hreturns v o (List.mem_cons_of_mem e ho)]
    cases e with
    | subscribe v o => rw [assign_comm hwait (hreturns v o List.mem_cons_self)]
    | close => rfl
    | _ => exact absurd trivial he

theorem mem_of_foldl_assign {requests : List Request} {outboxes : PeerId → Option OutboxId}
    {v : PeerId} {o : OutboxId} (h : requests.foldl assign outboxes v = some o) :
    outboxes v = some o ∨ .subscribe v o ∈ requests := by
  induction requests generalizing outboxes with
  | nil => exact .inl h
  | cons r requests ih =>
    obtain ho | ho := ih h
    · exact (eq_some_of_assign ho).imp_right fun heq => List.mem_cons.2 (.inl heq.symm)
    · exact .inr (List.mem_cons_of_mem r ho)

/-- If no peer comes back, it is all the same whether the peers come before all else happens. -/
theorem foldl_assign_of_noneReturns {requests : List Request} (h : NoneReturns requests)
    (outboxes : PeerId → Option OutboxId) :
    (requests.filter (¬ ·.CanWait) ++ requests.filter (·.CanWait)).foldl assign outboxes =
      requests.foldl assign outboxes := by
  induction requests generalizing outboxes with
  | nil => rfl
  | cons r requests ih =>
    obtain ⟨hr, hrest⟩ := List.pairwise_cons.1 h
    by_cases hwait : r.CanWait
    · have hnow : ∀ e ∈ requests.filter (¬ ·.CanWait), ¬ e.CanWait := by simp
      have hcomm := foldl_assign_comm hwait hnow
        (fun v o ho heq => hr _ (List.mem_of_mem_filter ho) v o heq rfl) outboxes
      rw [List.foldl_append, List.filter_cons_of_neg (by simpa using hwait),
        List.filter_cons_of_pos (by simpa using hwait), List.foldl_cons, List.foldl_cons, hcomm,
        ← List.foldl_append, ih hrest]
    · rw [List.filter_cons_of_pos (by simpa using hwait),
        List.filter_cons_of_neg (by simpa using hwait), List.cons_append, List.foldl_cons,
        List.foldl_cons, ih hrest]

/-- Without the peers, it does not matter when they come. -/
theorem foldl_quietly_filter [RegexLibrary] {requests : List Request}
    (hclose : ∀ r ∈ requests, r ≠ .close) {quiet : Task × Host}
    (hrest : quiet.1.session.events = []) :
    (requests.filter (·.CanWait)).foldl quietly quiet = requests.foldl quietly quiet := by
  induction requests generalizing quiet with
  | nil => rfl
  | cons r requests ih =>
    obtain ⟨hr, hclose⟩ := List.forall_mem_cons.1 hclose
    by_cases hwait : r.CanWait
    · have hnext : (r.quietly quiet).1.session.events = [] := Task.events_flush _ _
      rw [List.filter_cons_of_pos (by simpa using hwait), List.foldl_cons, List.foldl_cons,
        ih hclose hnext]
    · have hself : r.quietly quiet = quiet := by
        cases r with
        | subscribe peer o => exact Task.flush_of_nil hrest
        | close => exact absurd rfl hr
        | _ => exact absurd trivial hwait
      rw [List.filter_cons_of_neg (by simpa using hwait), List.foldl_cons, hself, ih hclose hrest]

end Request

namespace Scene

/-- Whether two tasks agree in all but the messages that their peers were sent, and in their
    files. -/
structure Agrees (a b : Scene) : Prop where
  muted_eq : a.task.muted = b.task.muted
  files_eq : a.host.files = b.host.files
  outbox?_eq : ∀ v, a.task.outbox? v = b.task.outbox? v
  mem_subscribers_iff : ∀ v, v ∈ a.task.session.subscribers ↔ v ∈ b.task.session.subscribers

theorem agrees_of_stands {a b : Scene} {quiet : Task × Host} {outboxes : PeerId → Option OutboxId}
    (ha : a.task.Stands quiet outboxes a.host) (hb : b.task.Stands quiet outboxes b.host) :
    a.Agrees b where
  muted_eq := congrArg Prod.fst (ha.muted_eq.trans hb.muted_eq.symm)
  files_eq := congrArg (·.2.files) (ha.muted_eq.trans hb.muted_eq.symm)
  outbox?_eq v := (ha.outbox?_eq v).trans (hb.outbox?_eq v).symm
  mem_subscribers_iff v := (ha.mem_subscribers_iff v).trans (hb.mem_subscribers_iff v).symm

theorem stands_start (spec : SessionSpec) (h : Host) :
    (Loading.ofSpec spec).task.Stands ((Loading.ofSpec spec).task.muted, h.muted) (fun _ => none)
      h where
  orderly := (holds_start spec h).inv
  muted_eq := rfl
  outbox?_eq _ := rfl
  mem_subscribers_iff v := by simp [Loading.ofSpec, Session.new]

/-- Whether the outboxes in some requests have room, so that none has filled up before. -/
def HasRoomFor (s : Scene) (timed : List (Nat × Request)) : Prop :=
  ∀ v o, .subscribe v o ∈ timed.map (·.2) → s.host.HasRoom o

variable {spec : SessionSpec} {h : Host} {d : Document} {now : Nat}
  {early late : List (Nat × Request)}

/-- A task that is given a document at once, and no request before. -/
def opened [RegexLibrary] (spec : SessionSpec) (h : Host) (d : Document) : Task × Host :=
  ((Loading.ofSpec spec).task.muted.obey (.finishOpen (.ok d))).flush h.muted

theorem events_opened [RegexLibrary] : (opened spec h d).1.session.events = [] :=
  Task.events_flush _ _

theorem stands_of_opened [RegexLibrary] (hclose : ∀ x ∈ late, x.2 ≠ .close)
    (hroom : ((start spec h).run (.made now (.ok d) :: requests late)).HasRoomFor late) :
    let s := (start spec h).run (.made now (.ok d) :: requests late)
    s.task.Stands ((late.map (·.2)).foldl Request.quietly (opened spec h d))
      ((late.map (·.2)).foldl Request.assign fun _ => none) s.host ∧
        s.task.session.document.isSome :=
  stands_made (stands_start spec h) rfl nofun now d hclose fun v o ho =>
    hroom v o (ho.resolve_left nofun)

theorem stands_of_loaded [RegexLibrary] (hearly : ∀ x ∈ early, x.2 ≠ .close)
    (hlate : ∀ x ∈ late, x.2 ≠ .close)
    (hroom : ((start spec h).run (requests early ++ .made now (.ok d) :: requests late)).HasRoomFor
      (early ++ late)) :
    let s := (start spec h).run (requests early ++ .made now (.ok d) :: requests late)
    let names := (early.map (·.2)).filter (·.CanWait) ++ late.map (·.2)
    s.task.Stands (names.foldl Request.quietly (opened spec h d))
      (names.foldl Request.assign
        (((early.map (·.2)).filter (¬ ·.CanWait)).foldl Request.assign fun _ => none)) s.host ∧
        s.task.session.document.isSome := by
  obtain ⟨l, host, hrun, hs, hphase, hdeferred⟩ :=
    stands_early (stands_start spec h) rfl hearly
  rw [run_append, start, hrun] at hroom ⊢
  have hwaiting : l.deferred = (early.map (·.2)).filter (·.CanWait) := hdeferred
  have hwait : ∀ r ∈ l.deferred, r.CanWait := by simp [hwaiting]
  rw [← hwaiting]
  refine stands_made hs hphase hwait now d hlate fun v o ho => hroom v o ?_
  rw [List.map_append, List.mem_append]
  refine ho.imp (fun ho => ?_) fun ho => ho
  exact List.mem_of_mem_filter ((Request.mem_of_foldl_assign ho).resolve_left (by simp))

/-- The requests in the order in which they are handled if the first ones come while the document
    is being made: the peers are subscribed at once, and all else waits. -/
def handled (early late : List (Nat × Request)) : List (Nat × Request) :=
  early.filter (¬ ·.2.CanWait) ++ early.filter (·.2.CanWait) ++ late

theorem mem_handled {x : Nat × Request} : x ∈ handled early late ↔ x ∈ early ++ late := by
  by_cases hwait : x.2.CanWait <;> simp [handled, hwait]

theorem map_handled (early late : List (Nat × Request)) :
    (handled early late).map (·.2) = (early.map (·.2)).filter (¬ ·.CanWait) ++
      ((early.map (·.2)).filter (·.CanWait) ++ late.map (·.2)) := by
  simp only [handled, List.map_append, List.filter_map, List.append_assoc]
  rfl

/-- The outboxes that the peers have after some requests. -/
def outboxesAfter (timed : List (Nat × Request)) : PeerId → Option OutboxId :=
  (timed.map (·.2)).foldl Request.assign fun _ => none

theorem outboxesAfter_handled (hreturns : Request.NoneReturns (early.map (·.2))) :
    outboxesAfter (handled early late) = outboxesAfter (early ++ late) := by
  rw [outboxesAfter, outboxesAfter, map_handled, ← List.append_assoc, List.foldl_append,
    Request.foldl_assign_of_noneReturns hreturns, List.map_append, List.foldl_append]

/-- Without the peers, it is all the same whether the first requests come while the document is
    being made. -/
theorem foldl_quietly_handled [RegexLibrary] (hclose : ∀ x ∈ early ++ late, x.2 ≠ .close) :
    ((early.map (·.2)).filter (·.CanWait) ++ late.map (·.2)).foldl Request.quietly
        (opened spec h d) =
      ((early ++ late).map (·.2)).foldl Request.quietly (opened spec h d) := by
  have hearly : ∀ r ∈ early.map (·.2), r ≠ .close :=
    List.forall_mem_map.2 fun x hx => hclose x (List.mem_append_left _ hx)
  rw [List.foldl_append, Request.foldl_quietly_filter hearly events_opened, List.map_append,
    List.foldl_append]

end Scene

end LiterateSync
