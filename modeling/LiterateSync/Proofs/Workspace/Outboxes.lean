import Mathlib
import LiterateSync.Text.Pattern.Library
import LiterateSync.Proofs.Session.Hearing
import LiterateSync.Proofs.Workspace.Orderly

namespace LiterateSync

/-- What holds of an outbox that a peer has handed over: what went into it is the beginning of what
    the peer was told. -/
structure Tracked (p : Profile) (g : IdSource) (r : Replica) (v : PeerId) (o : OutboxId)
    (log : List Event) (t : Task) (h : Host) : Prop where
  orderly : t.Orderly
  hears : Session.Hears p g r v (messagesTo v log) t.session
  owner : ∀ peer, t.outbox? peer = some o → peer = v
  isPrefix : h.bodies o <+: messagesTo v log

/-- What holds between all steps: all that the peer was told went into the outbox, as long as it is
    the outbox of the peer. -/
structure Supplied (p : Profile) (g : IdSource) (r : Replica) (v : PeerId) (o : OutboxId)
    (log : List Event) (t : Task) (h : Host) : Prop extends Tracked p g r v o log t h where
  complete : t.outbox? v = some o → h.bodies o = messagesTo v log

variable {p : Profile} {g : IdSource} {r : Replica} {v : PeerId} {o : OutboxId} {log : List Event}
  {t : Task} {h : Host}

/-- A peer that leaves is owed nothing any more. -/
theorem Tracked.dismiss [RegexLibrary] (ht : Tracked p g r v o log t h) {peer : PeerId}
    (hcomplete : v ≠ peer → t.outbox? v = some o → h.bodies o = messagesTo v log) :
    Supplied p g r v o log (t.dismiss h peer).1 (t.dismiss h peer).2 := by
  have hbodies : (t.dismiss h peer).2.bodies o = h.bodies o := t.bodies_dropOutbox h peer o
  have hhears := ht.hears.step ht.orderly.consistent (.unsubscribe peer)
  refine ⟨⟨ht.orderly.dismiss h peer, hhears, fun w hw => ht.owner w (Task.outbox?_dismiss hw).2,
    hbodies ▸ ht.isPrefix⟩, fun hv => hbodies.trans ?_⟩
  obtain ⟨hne, hv⟩ := Task.outbox?_dismiss hv
  exact hcomplete hne hv

/-- A message for the peer goes into its outbox, and any other message leaves that as it is. -/
theorem Tracked.deliver [RegexLibrary] {peer : PeerId} {m : Message}
    (ht : Tracked p g r v o (log ++ [.send peer m]) t h)
    (hcomplete : t.outbox? v = some o → h.bodies o = messagesTo v log) :
    Supplied p g r v o (log ++ [.send peer m]) (t.deliver h peer m).1 (t.deliver h peer m).2 := by
  have hlog : messagesTo v (log ++ [.send peer m]) =
      messagesTo v log ++ if peer = v then [m.body] else [] := by
    rw [Session.messagesTo_append]
    by_cases hpeer : peer = v <;> simp [messagesTo, hpeer]
  have hother : v ≠ peer → t.outbox? v = some o →
      h.bodies o = messagesTo v (log ++ [.send peer m]) := by
    intro hpeer houtbox
    rw [hlog, if_neg (Ne.symm hpeer), List.append_nil]
    exact hcomplete houtbox
  obtain ⟨hnone, heq⟩ | ⟨id, next, hid, hoffer, heq⟩ | ⟨id, -, -, heq⟩ :=
    t.deliver_cases h peer m
  · rw [heq]
    refine ⟨ht, fun hv => hother ?_ hv⟩
    rintro rfl
    simp [hnone] at hv
  · rw [heq]
    have hbodies := Host.bodies_offer (o := o) hoffer
    by_cases ho : id = o
    · subst ho
      obtain rfl := ht.owner peer hid
      have hnext : next.bodies id = messagesTo peer (log ++ [.send peer m]) := by
        rw [hbodies, if_pos rfl, hlog, if_pos rfl, hcomplete hid]
      exact ⟨⟨ht.orderly, ht.hears, ht.owner, hnext ▸ List.prefix_refl _⟩, fun _ => hnext⟩
    · rw [if_neg ho] at hbodies
      refine ⟨⟨ht.orderly, ht.hears, ht.owner, hbodies ▸ ht.isPrefix⟩,
        fun hv => hbodies.trans (hother ?_ hv)⟩
      rintro rfl
      exact ho (Option.some.inj (hid.symm.trans hv))
  · rw [heq]
    exact ht.dismiss hother

namespace Supplied

theorem obey [RegexLibrary] (hs : Supplied p g r v o log t h) {c : Session.Command}
    (hc : c.IsPlain) : Supplied p g r v o log (t.obey c) h where
  orderly := hs.orderly.obey hc
  hears := hs.hears.step hs.orderly.consistent c
  owner := hs.owner
  isPrefix := hs.isPrefix
  complete := hs.complete

/-- What is done to the host counts only for what went into the outbox. -/
theorem withHost (hs : Supplied p g r v o log t h) {next : Host}
    (hnext : next.bodies o = h.bodies o) : Supplied p g r v o log t next where
  orderly := hs.orderly
  hears := hs.hears
  owner := hs.owner
  isPrefix := hnext ▸ hs.isPrefix
  complete houtbox := hnext.trans (hs.complete houtbox)

theorem subscribe [RegexLibrary] (hs : Supplied p g r v o log t h) (peer : PeerId) (id : OutboxId)
    (hid : id = o → peer = v ∧ h.bodies o = messagesTo v log) :
    Supplied p g r v o log (t.subscribe h peer id).1 (t.subscribe h peer id).2 := by
  have hbodies : (t.subscribe h peer id).2.bodies o = h.bodies o := t.bodies_dropOutbox h peer o
  have hhears := hs.hears.step hs.orderly.consistent (.subscribe peer)
  refine ⟨⟨hs.orderly.subscribe h peer id, hhears, fun w hw => ?_, hbodies ▸ hs.isPrefix⟩,
    fun hv => hbodies.trans ?_⟩
  · rw [Task.outbox?_subscribe] at hw
    split at hw
    · rename_i heq
      cases hw
      exact heq.trans (hid rfl).1
    · exact hs.owner w hw
  · rw [Task.outbox?_subscribe] at hv
    split at hv
    · cases hv
      exact (hid rfl).2
    · exact hs.complete hv

theorem dropOutboxes (hs : Supplied p g r v o log t h) :
    Supplied p g r v o log (t.dropOutboxes h).1 (t.dropOutboxes h).2 := by
  have hbodies : (t.dropOutboxes h).2.bodies o = h.bodies o := h.bodies_dropAll _ o
  exact ⟨⟨hs.orderly.dropOutboxes h, hs.hears, nofun, hbodies ▸ hs.isPrefix⟩, nofun⟩

theorem carryOut [RegexLibrary] (hs : Supplied p g r v o log t h) {e : Event} {rest : List Event}
    (hevents : t.session.events = e :: rest) :
    Supplied p g r v o (log ++ [e]) ((t.withEvents rest).carryOut h e).1
      ((t.withEvents rest).carryOut h e).2 := by
  have hlonger : messagesTo v (log ++ [e]) = messagesTo v log ++ messagesTo v [e] :=
    Session.messagesTo_append v log [e]
  have htracked : Tracked p g r v o (log ++ [e]) (t.withEvents rest) h :=
    ⟨hs.orderly.withEvents rest, hlonger ▸ hs.hears.carry hevents, hs.owner,
      hlonger ▸ hs.isPrefix.trans (List.prefix_append _ _)⟩
  cases e with
  | send peer m => exact htracked.deliver hs.complete
  | writeFile revision text =>
    have hwritten : Supplied p g r v o (log ++ [.writeFile revision text]) (t.withEvents rest)
        ((t.withEvents rest).writeThrough h text).1 := by
      refine withHost ⟨htracked, fun hv => ?_⟩ (Task.bodies_writeThrough _ h text o)
      exact (hs.complete hv).trans (hlonger.trans (List.append_nil _)).symm
    rw [Task.carryOut]
    split
    · rename_i host heq
      rw [heq] at hwritten
      rw [Task.acknowledged_eq]
      exact hwritten.obey (c := .ack .fileSystem revision) trivial
    · rename_i host heq
      rw [heq] at hwritten
      exact hwritten

/-- When all is done that the session wanted, the peer can make use of what is in its outbox. -/
theorem takes (hs : Supplied p g r v o log t h) (hrest : t.session.events = []) :
    Replica.Takes p g r (h.bodies o) := by
  have htakes := hs.hears.takes
  rw [hrest] at htakes
  exact htakes.of_prefix (hs.isPrefix.trans (List.prefix_append _ _))

theorem shows (hs : Supplied p g r v o log t h) (hrest : t.session.events = [])
    (houtbox : t.outbox? v = some o) (hfree : AckFree (h.bodies o)) {d : Document}
    (hd : d ∈ t.session.document) : ((h.bodies o).foldl (Replica.receive p g) r).Shows d := by
  have hsubscribed := hs.orderly.subscribed v (by simp [houtbox])
  have hfollows := hs.hears.follows
  rw [hrest, ← hs.complete houtbox, show messagesTo v [] = [] from rfl, List.append_nil]
    at hfollows
  exact (hfollows hfree).2 hsubscribed d hd

theorem keeps [RegexLibrary] (p : Profile) (g : IdSource) (r : Replica) (v : PeerId)
    (o : OutboxId) :
    Keeps (fun r => ∀ peer, r ≠ .subscribe peer o)
      (fun change => ∀ h : Host, (change h).bodies o = h.bodies o) (Supplied p g r v o) where
  obey _ hc hs := hs.obey hc
  subscribe peer id hother hs := hs.subscribe peer id fun heq => absurd (heq ▸ rfl) (hother peer)
  dismiss _ _ hs := hs.toTracked.dismiss fun _ => hs.complete
  dropOutboxes _ hs := hs.dropOutboxes
  carryOut hevents hs := hs.carryOut hevents
  drop id _ hs := hs.withHost (Host.bodies_drop _ id o)
  meanwhile _ hspares hs := hs.withHost (hspares _)

end Supplied

/-- Whether an outbox is not handed over in what happens, and no one but the task that has it puts
    messages in. -/
def Happening.Spares (o : OutboxId) : Happening → Prop :=
  Happening.Allowed (fun r => ∀ peer, r ≠ .subscribe peer o)
    fun change => ∀ h : Host, (change h).bodies o = h.bodies o

/-- Whether a peer goes on with its outbox in what happens, and no one makes room in it by taking
    back what was put in. -/
def Happening.Stays (v : PeerId) (o : OutboxId) : Happening → Prop :=
  Happening.Allowed (·.Stays v) fun change => ∀ h : Host, (change h).HasRoom o → h.HasRoom o

namespace Scene

/-- Whether an outbox has not been in use. -/
structure IsUnused (s : Scene) (o : OutboxId) : Prop where
  free : ∀ peer, s.task.outbox? peer ≠ some o
  bodies_nil : s.host.bodies o = []

variable {s : Scene} {v : PeerId} {o : OutboxId} {log : List Event}

/-- What holds of an outbox from the time on at which it is handed over. -/
theorem holds_subscribe [RegexLibrary] (hs : s.Holds (fun _ => True) (fun _ t _ => t.Orderly) log)
    (hunused : s.IsUnused o) {r : Replica} (hfollows : r.Follows v s.task.session) (p : Profile)
    (g : IdSource) (now : Nat) :
    (s.step (.request now (.subscribe v o))).Holds (fun r => ∀ peer, r ≠ .subscribe peer o)
      (Supplied p g r v o) (s.carried (.request now (.subscribe v o))) := by
  have hhears : Session.Hears p g r v (messagesTo v []) s.task.session := by
    refine ⟨hs.inv.nodup, ?_, fun _ => ?_⟩
    · rw [hs.events_nil]
      trivial
    · rw [hs.events_nil]
      exact hfollows
  have hbefore : Supplied p g r v o [] s.task s.host :=
    ⟨⟨hs.inv, hhears, fun peer hpeer => absurd hpeer (hunused.free peer),
      hunused.bodies_nil ▸ List.nil_prefix⟩, fun hv => absurd hv (hunused.free v)⟩
  have hearly : ∀ l, s.stage = .loading l → l.IsEarly fun r => ∀ peer, r ≠ .subscribe peer o := by
    refine fun l hl => ⟨(hs.early l hl).document_none, (hs.early l hl).phase_eq, fun r hr => ?_⟩
    have hwaits := ((hs.early l hl).deferred r hr).1
    refine ⟨hwaits, ?_⟩
    rintro peer rfl
    exact hwaits
  exact (Supplied.keeps p g r v o).request hs.events_nil hearly now
    (fun _ => hbefore.subscribe v o fun _ => ⟨rfl, hunused.bodies_nil⟩) (fun _ => hbefore) nofun

/-- A peer has the outbox that it has handed over, unless it is about to leave. -/
theorem retains_subscribe [RegexLibrary] (hs : s.Holds (fun _ => True) (fun _ t _ => t.Orderly) log)
    (hstays : ∀ r ∈ s.stage.deferred, r.Stays v) (o : OutboxId) (now : Nat) :
    (s.step (.request now (.subscribe v o))).Holds (·.Stays v) (fun _ t h => t.Retains v o h)
      (log ++ s.carried (.request now (.subscribe v o))) := by
  have hearly : ∀ l, s.stage = .loading l → l.IsEarly (·.Stays v) := by
    refine fun l hl => ⟨(hs.early l hl).document_none, (hs.early l hl).phase_eq, fun r hr => ?_⟩
    exact ⟨((hs.early l hl).deferred r hr).1, hstays r (by rwa [hl])⟩
  refine (Task.Retains.keeps v o).request hs.events_nil hearly now
    (fun _ => .of_subscribe hs.inv s.host v o) (fun hover => ⟨hs.inv, fun hrunning => ?_⟩) nofun
  cases hover.symm.trans hrunning

/-- A peer that subscribes already is sent nothing when it hands over another outbox. -/
theorem carried_of_mem [RegexLibrary] (hs : s.Holds (fun _ => True) (fun _ t _ => t.Orderly) log)
    (hmem : v ∈ s.task.session.subscribers) (now : Nat) (o : OutboxId) :
    s.carried (.request now (.subscribe v o)) = [] := by
  obtain ⟨stage, h⟩ := s
  cases stage with
  | loading l => rfl
  | ready t =>
    have hsame : t.session.subscribe v = t.session := if_pos (List.contains_iff_mem.2 hmem)
    have hevents : (t.subscribe h v o).1.session.events = [] :=
      (congrArg Session.events hsame).trans hs.events_nil
    have hnothing := Task.flushed_of_nil (h := (t.subscribe h v o).2) hevents
    simp only [carried]
    split
    · exact hnothing
    · rfl

/-- Whatever happens to a task, an outbox that a peer hands over to it gets what the peer is told
    from then on, without a gap, until the peer leaves, is dropped or hands over another one. A
    copy that is up to date, or any copy if the peer does not subscribe yet or there is no document,
    can make use of it all until a patch of the peer itself is acknowledged. A peer that subscribes
    already is not sent the document again. -/
theorem outbox_replays [RegexLibrary] (spec : SessionSpec) (h : Host)
    (before later : List Happening) (now : Nat)
    (v : PeerId) (o : OutboxId) (p : Profile) (g : IdSource) (r : Replica)
    (hunused : ((start spec h).run before).IsUnused o)
    (hfollows : r.Follows v ((start spec h).run before).task.session)
    (hspares : ∀ x ∈ later, x.Spares o) :
    let handed := (start spec h).run before
    let rest := Happening.request now (.subscribe v o) :: later
    let last := handed.run rest
    let bodies := last.host.bodies o
    (bodies <+: messagesTo v (handed.log rest) ∧
      (last.task.outbox? v = some o → bodies = messagesTo v (handed.log rest))) ∧
    (r = .blank → ∀ body ∈ bodies.head?, ∃ snapshot, body = .fullDocument (some snapshot)) ∧
    (∀ front patch back, bodies = front ++ .patch patch :: back → AckFree front →
      ∃ copy next, front.foldl (Replica.receive p g) r = .holding copy ∧
        copy.apply patch = .ok next) ∧
    (last.task.outbox? v = some o → AckFree bodies → ∀ d ∈ last.task.session.document,
      (bodies.foldl (Replica.receive p g) r).Shows d) ∧
    (v ∈ handed.task.session.subscribers →
      (handed.step (.request now (.subscribe v o))).host.bodies o = []) ∧
    ((∀ r ∈ handed.stage.deferred, r.Stays v) → (∀ x ∈ later, x.Stays v o) →
      last.task.isRunning = true → last.host.HasRoom o → last.task.outbox? v = some o) := by
  intro handed rest last bodies
  have horderly := holds_run spec h before
  have hhanded := holds_subscribe horderly hunused hfollows p g now
  have hlast : last.Holds (fun r => ∀ peer, r ≠ .subscribe peer o)
      (Supplied p g r v o) (handed.log rest) :=
    (Supplied.keeps p g r v o).run hhanded hspares
  have htakes : Replica.Takes p g r bodies := hlast.inv.takes hlast.events_nil
  refine ⟨⟨hlast.inv.isPrefix, hlast.inv.complete⟩, ?_, fun front patch back hbodies hfree => ?_,
    fun houtbox hfree d hd => hlast.inv.shows hlast.events_nil houtbox hfree hd, fun hmem => ?_,
    fun hdeferred hstays hrunning hroom => ?_⟩
  · rintro rfl body hbody
    obtain ⟨rest, hbodies⟩ := List.head?_eq_some_iff.1 hbody
    rw [hbodies] at htakes
    exact htakes.exists_fullDocument
  · rw [hbodies] at htakes
    exact htakes.exists_apply hfree
  · have hnothing := hhanded.inv.isPrefix
    rw [carried_of_mem horderly hmem] at hnothing
    exact List.prefix_nil.1 hnothing
  · have hretained : last.Holds (·.Stays v) (fun _ t h => t.Retains v o h) _ :=
      (Task.Retains.keeps v o).run (retains_subscribe horderly hdeferred o now) hstays
    exact hretained.inv.retained hrunning hroom

set_option maxRecDepth 20000 in
/-- A peer whose copy is up to date hands over a second outbox without having left. It is sent no
    document, but the next patch. -/
theorem outbox_replays_of_second_outbox :
    let v : PeerId := ⟨"v"⟩
    let p : Profile := { id := "sh", lineComments := ["#"] }
    let d : Document :=
      ⟨[⟨⟨"b1"⟩, .doc, "# a\n"⟩, ⟨⟨"b2"⟩, .code, "x = 1\n"⟩], 0, p, ⟨none, 2⟩⟩
    let patch : Patch := ⟨0, [.replace ⟨"b1"⟩ "# b\n"]⟩
    let before : List Happening := [.made 0 (.ok d), .request 0 (.subscribe v 0)]
    let later : List Happening := [.request 0 (.message ⟨"u"⟩ ⟨⟨"s1"⟩, .patch patch⟩),
      .meanwhile fun h => (h.collect 1).2]
    let handed := (start ⟨⟨"s1"⟩, "# a\nx = 1\n", p, {}, none⟩
      { outboxes := [⟨1, [], 0, false, false⟩, ⟨1, [], 0, false, false⟩] }).run before
    let last := handed.run (.request 0 (.subscribe v 1) :: later)
    handed.IsUnused 1 ∧ (Replica.holding d).Follows v handed.task.session ∧
      (∀ x ∈ later, x.Spares 1) ∧ last.host.bodies 1 = [.patch patch] ∧
      ∃ d' ∈ last.task.session.document, d'.revision = 1 ∧
        ((last.host.bodies 1).foldl (Replica.receive p .unseeded) (.holding d)).Shows d' := by
  intro v p d patch before later handed last
  obtain ⟨hbodies, houtbox, hrevision, hdocument, houtboxes, hnothing⟩ :
      last.host.bodies 1 = [.patch patch] ∧ last.task.outbox? v = some 1 ∧
        last.task.session.revision? = some 1 ∧ handed.task.session.document = some d ∧
        handed.task.outboxes = [(v, 0)] ∧ handed.host.bodies 1 = [] := by
    subst last handed later before patch d p v
    refine ⟨?_, ?_, ?_, ?_, ?_, ?_⟩ <;> cbv
  have hunused : handed.IsUnused 1 := by
    refine ⟨fun peer hpeer => ?_, hnothing⟩
    rw [Task.outbox?, houtboxes] at hpeer
    by_cases hv : v = peer <;> simp [hv] at hpeer
  have hfollows : (Replica.holding d).Follows v handed.task.session := by
    refine ⟨by simp, fun _ d' hd' => ?_⟩
    rw [hdocument, Option.mem_some] at hd'
    exact hd' ▸ ⟨d, rfl, rfl, rfl⟩
  have hspares : ∀ x ∈ later, x.Spares 1 := by
    refine List.forall_mem_cons.2 ⟨fun _ => by simp, List.forall_mem_singleton.2 fun h => ?_⟩
    exact Host.bodies_update fun _ => rfl
  obtain ⟨d', hd', hone⟩ := Option.map_eq_some_iff.1 hrevision
  obtain ⟨-, -, -, hshows, -⟩ :=
    outbox_replays _ _ before later 0 v 1 p .unseeded _ hunused hfollows hspares
  refine ⟨hunused, hfollows, hspares, hbodies, d', hd', hone, hshows houtbox ?_ d' hd'⟩
  rw [hbodies]
  decide

end Scene

end LiterateSync
