import LiterateSync.Proofs.Session.Subscribers
import LiterateSync.Proofs.Workspace.Course

namespace LiterateSync

namespace Host

/-- What was put into an outbox, oldest first. -/
def bodies (h : Host) (id : OutboxId) : List MessageBody :=
  (((h.outboxes[id]?).map (·.sent)).getD []).map (·.body)

variable {h next : Host} {o id : OutboxId}

theorem bodies_update {change : Outbox → Outbox} (hchange : ∀ b, (change b).sent = b.sent) :
    (h.update id change).bodies o = h.bodies o := by
  rw [bodies, update, List.getElem?_modify, bodies]
  cases h.outboxes[o]? with
  | none => rfl
  | some b =>
    by_cases hid : id = o
    · simp [hid, hchange]
    · simp [hid]

@[simp] theorem bodies_drop (h : Host) (id o : OutboxId) : (h.drop id).bodies o = h.bodies o :=
  bodies_update fun _ => rfl

@[simp] theorem bodies_dropAll (h : Host) (ids : List OutboxId) (o : OutboxId) :
    (h.dropAll ids).bodies o = h.bodies o := by
  rw [dropAll]
  induction ids generalizing h with
  | nil => rfl
  | cons id ids ih => rw [List.foldl_cons, ih, bodies_drop]

theorem bodies_offer {m : Message} (hoffer : h.offer? id m = some next) :
    next.bodies o = if id = o then h.bodies o ++ [m.body] else h.bodies o := by
  rw [offer?] at hoffer
  split at hoffer
  · rename_i b hb
    split at hoffer
    · cases hoffer
      rw [bodies, update, List.getElem?_modify]
      by_cases hid : id = o
      · subst hid
        simp [bodies, hb, Outbox.push]
      · simp [bodies, hid]
    · cases hoffer
  · cases hoffer

/-- Whether all that is put into an outbox fits in, even if nothing is taken out any more. -/
def HasRoom (h : Host) (id : OutboxId) : Prop :=
  ∃ b, h.outboxes[id]? = some b ∧ b.abandoned = false ∧ b.sent.length < b.capacity

theorem hasRoom_iff : h.HasRoom id ↔
    (h.outboxes[id]?.any fun b => !b.abandoned && decide (b.sent.length < b.capacity)) = true := by
  simp [HasRoom, Option.any_eq_true]

theorem HasRoom.offer (h' : h.HasRoom id) (m : Message) : h.offer? id m ≠ none := by
  obtain ⟨b, hb, habandoned, hroom⟩ := h'
  have hwaiting : b.waiting.length ≤ b.sent.length := by simp [Outbox.waiting]
  simp [offer?, hb, Outbox.accepts, habandoned, Nat.lt_of_le_of_lt hwaiting hroom]

/-- What had room after a change in which nothing was taken back had room before. -/
theorem HasRoom.of_update {change : Outbox → Outbox} (h' : (h.update id change).HasRoom o)
    (hchange : ∀ b, (change b).capacity = b.capacity ∧ (change b).abandoned = b.abandoned ∧
      b.sent.length ≤ (change b).sent.length) : h.HasRoom o := by
  obtain ⟨b', hb', habandoned, hroom⟩ := h'
  rw [update, List.getElem?_modify] at hb'
  cases hb : h.outboxes[o]? with
  | none => simp [hb] at hb'
  | some b =>
    obtain ⟨hcapacity, hsame, hlength⟩ := hchange b
    by_cases hid : id = o
    · simp only [hb, hid, Option.map_eq_map, Option.map_some, if_true, Option.some.injEq] at hb'
      subst hb'
      exact ⟨b, hb, hsame ▸ habandoned, by omega⟩
    · simp only [hb, hid, Option.map_eq_map, Option.map_some, if_false, Option.some.injEq] at hb'
      subst hb'
      exact ⟨b, hb, habandoned, hroom⟩

theorem HasRoom.of_drop (h' : (h.drop id).HasRoom o) : h.HasRoom o :=
  h'.of_update fun _ => ⟨rfl, rfl, Nat.le_refl _⟩

theorem HasRoom.of_offer {m : Message} (h' : next.HasRoom o) (hoffer : h.offer? id m = some next) :
    h.HasRoom o := by
  rw [offer?] at hoffer
  split at hoffer
  · split at hoffer
    · cases hoffer
      exact h'.of_update fun b => ⟨rfl, rfl, by simp [Outbox.push]⟩
    · cases hoffer
  · cases hoffer

theorem HasRoom.of_dropAll {ids : List OutboxId} (h' : (h.dropAll ids).HasRoom o) :
    h.HasRoom o := by
  rw [dropAll] at h'
  induction ids generalizing h with
  | nil => exact h'
  | cons id ids ih => exact (ih h').of_drop

end Host

namespace Task

variable {t : Task} {h : Host} {v peer : PeerId} {o : OutboxId}

theorem outbox?_release (t : Task) (peer v : PeerId) :
    (t.release peer).outbox? v = if v = peer then none else t.outbox? v := by
  rw [outbox?, release, List.find?_filter, outbox?]
  split
  · rename_i hpeer
    subst hpeer
    simp
  · rename_i hpeer
    congr 2
    funext entry
    by_cases hentry : entry.1 = v
    · simp [hentry, hpeer]
    · simp [hentry]

theorem outbox?_subscribe (t : Task) (h : Host) (peer v : PeerId) (o : OutboxId) :
    (t.subscribe h peer o).1.outbox? v = if v = peer then some o else t.outbox? v := by
  have hreleased := outbox?_release t peer v
  have hadded : (t.subscribe h peer o).1.outbox? v =
      ((t.release peer).outbox? v).or (if peer = v then some o else none) := by
    rw [outbox?, outbox?, subscribe, dropOutbox]
    simp only [List.find?_append, Option.map_or]
    by_cases hpeer : peer = v <;> simp [hpeer]
  rw [hadded, hreleased]
  by_cases hpeer : v = peer
  · simp [hpeer]
  · simp [hpeer, Ne.symm hpeer]

theorem outbox?_dismiss {w : PeerId} {id : OutboxId}
    (hw : (t.dismiss h peer).1.outbox? w = some id) : w ≠ peer ∧ t.outbox? w = some id := by
  have hrelease := (t.outbox?_release peer w).symm.trans hw
  split at hrelease
  · cases hrelease
  · exact ⟨‹_›, hrelease⟩

theorem phase_subscribe (t : Task) (h : Host) (peer : PeerId) (o : OutboxId) :
    (t.subscribe h peer o).1.session.phase = t.session.phase := by
  change (t.session.subscribe peer).phase = t.session.phase
  rw [Session.subscribe]
  split
  · rfl
  · rw [Session.sendDocument_eq]
    rfl

theorem isRunning_subscribe (t : Task) (h : Host) (peer : PeerId) (o : OutboxId) :
    (t.subscribe h peer o).1.isRunning = t.isRunning := by
  rw [isRunning, isRunning, phase_subscribe]

/-- A message goes nowhere, or into the outbox of the peer, or the peer is dropped. -/
theorem deliver_cases (t : Task) (h : Host) (peer : PeerId) (m : Message) :
    (t.outbox? peer = none ∧ t.deliver h peer m = (t, h)) ∨
    (∃ id next, t.outbox? peer = some id ∧ h.offer? id m = some next ∧
      t.deliver h peer m = (t, next)) ∨
    (∃ id, t.outbox? peer = some id ∧ h.offer? id m = none ∧
      t.deliver h peer m = t.dismiss h peer) := by
  cases houtbox : t.outbox? peer with
  | none => exact .inl ⟨rfl, by rw [deliver, houtbox]⟩
  | some id =>
    cases hoffer : h.offer? id m with
    | some next => exact .inr (.inl ⟨id, next, rfl, hoffer, by simp [deliver, houtbox, hoffer]⟩)
    | none =>
      refine .inr (.inr ⟨id, rfl, hoffer, ?_⟩)
      simp [deliver, houtbox, hoffer, dismiss, dropOutbox]

@[simp] theorem bodies_dropOutbox (t : Task) (h : Host) (peer : PeerId) (o : OutboxId) :
    (t.dropOutbox h peer).2.bodies o = h.bodies o := by
  rw [dropOutbox]
  cases t.outbox? peer with
  | none => rfl
  | some id => exact h.bodies_drop id o

theorem hasRoom_of_dropOutbox (t : Task) (hroom : (t.dropOutbox h peer).2.HasRoom o) :
    h.HasRoom o := by
  rw [dropOutbox] at hroom
  cases houtbox : t.outbox? peer with
  | none => simpa [houtbox] using hroom
  | some id =>
    simp only [houtbox, Option.map_some, Option.getD_some] at hroom
    exact hroom.of_drop

theorem hasRoom_of_writeThrough (t : Task) {text : String}
    (hroom : (t.writeThrough h text).1.HasRoom o) : h.HasRoom o := by
  rw [writeThrough] at hroom
  split at hroom <;> exact hroom

@[simp] theorem bodies_writeThrough (t : Task) (h : Host) (text : String) (o : OutboxId) :
    (t.writeThrough h text).1.bodies o = h.bodies o := by
  rw [writeThrough]
  split <;> rfl

theorem hasRoom_of_carryOut {e : Event} (hroom : (t.carryOut h e).2.HasRoom o) : h.HasRoom o := by
  cases e with
  | send peer m =>
    rw [carryOut] at hroom
    obtain ⟨-, heq⟩ | ⟨id, next, -, hoffer, heq⟩ | ⟨id, -, -, heq⟩ := t.deliver_cases h peer m
    · rwa [heq] at hroom
    · rw [heq] at hroom
      exact hroom.of_offer hoffer
    · rw [heq] at hroom
      exact t.hasRoom_of_dropOutbox hroom
  | writeFile revision text =>
    have hwrite : (t.writeThrough h text).1.HasRoom o → h.HasRoom o := t.hasRoom_of_writeThrough
    rw [carryOut] at hroom
    split at hroom <;> simp_all

/-- A task never takes anything out of an outbox, so that what has room in the end had it
    before. -/
theorem keeps_hasRoom [RegexLibrary] (first : Host) (o : OutboxId) :
    Keeps (fun _ => True) (fun change => ∀ h : Host, (change h).HasRoom o → h.HasRoom o)
      fun _ _ h => h.HasRoom o → first.HasRoom o where
  obey _ _ h := h
  subscribe _ _ _ h hroom := h (hasRoom_of_dropOutbox _ hroom)
  dismiss _ _ h hroom := h (hasRoom_of_dropOutbox _ hroom)
  dropOutboxes _ h hroom := h hroom.of_dropAll
  carryOut _ h hroom := h (hasRoom_of_carryOut hroom)
  drop _ _ h hroom := h hroom.of_drop
  meanwhile _ hchange h hroom := h (hchange _ hroom)

theorem hasRoom_of_flush [RegexLibrary] (hroom : (t.flush h).2.HasRoom o) : h.HasRoom o :=
  @Keeps.flush _ _ _ _ [] t h (keeps_hasRoom h o) id hroom

/-- What the session is told about the file is a command like any other. -/
theorem acknowledged_eq [RegexLibrary] (s : Session) (revision : Nat) :
    acknowledged s revision = (s.step (.ack .fileSystem revision)).1 := by
  rw [acknowledged, Session.step]
  cases s.ack .fileSystem revision <;> rfl

end Task

/-- What holds of every task between all steps: each peer with an outbox subscribes. -/
structure Task.Orderly (t : Task) : Prop where
  consistent : t.session.Consistent
  nodup : t.session.subscribers.Nodup
  subscribed : ∀ peer, (t.outbox? peer).isSome → peer ∈ t.session.subscribers

namespace Task.Orderly

variable {t : Task} {h : Host}

theorem dropOutboxes (ht : t.Orderly) (h : Host) : (t.dropOutboxes h).1.Orderly :=
  ⟨ht.consistent, ht.nodup, nofun⟩

theorem withEvents (ht : t.Orderly) (events : List Event) : (t.withEvents events).Orderly :=
  ⟨ht.consistent.congr rfl rfl rfl rfl rfl rfl, ht.nodup, ht.subscribed⟩

variable [RegexLibrary]

theorem obey (ht : t.Orderly) {c : Session.Command} (hc : c.IsPlain) : (t.obey c).Orderly where
  consistent := ht.consistent.step c
  nodup := Session.nodup_subscribers_step ht.consistent ht.nodup c
  subscribed peer hpeer := by
    refine Session.mem_subscribers_step (ht.subscribed peer hpeer) ?_
    rintro rfl
    exact hc

theorem subscribe (ht : t.Orderly) (h : Host) (peer : PeerId) (outbox : OutboxId) :
    (t.subscribe h peer outbox).1.Orderly where
  consistent := ht.consistent.step (.subscribe peer)
  nodup := Session.nodup_subscribers_step ht.consistent ht.nodup (.subscribe peer)
  subscribed w hw := by
    rw [outbox?_subscribe] at hw
    split at hw
    · rename_i heq
      exact Session.mem_subscribers_subscribe_iff.2 (.inl heq)
    · exact Session.mem_subscribers_step (c := .subscribe peer) (ht.subscribed w hw) nofun

theorem dismiss (ht : t.Orderly) (h : Host) (peer : PeerId) : (t.dismiss h peer).1.Orderly where
  consistent := ht.consistent.step (.unsubscribe peer)
  nodup := ht.nodup.filter _
  subscribed w hw := by
    obtain ⟨id, hid⟩ := Option.isSome_iff_exists.1 hw
    obtain ⟨hne, hw⟩ := outbox?_dismiss hid
    exact Session.mem_subscribers_unsubscribe_iff.2 ⟨hne, ht.subscribed w (by simp [hw])⟩

theorem deliver (ht : t.Orderly) (h : Host) (peer : PeerId) (m : Message) :
    (t.deliver h peer m).1.Orderly := by
  obtain ⟨-, heq⟩ | ⟨id, next, -, -, heq⟩ | ⟨id, -, -, heq⟩ := t.deliver_cases h peer m
  · exact heq ▸ ht
  · exact heq ▸ ht
  · exact heq ▸ ht.dismiss h peer

theorem carryOut (ht : t.Orderly) (h : Host) (e : Event) : (t.carryOut h e).1.Orderly := by
  cases e with
  | send peer m => exact ht.deliver h peer m
  | writeFile revision text =>
    rw [Task.carryOut]
    split
    · rw [acknowledged_eq]
      exact ht.obey trivial
    · exact ht

theorem keeps : Keeps (fun _ => True) (fun _ => True) fun _ t _ => t.Orderly where
  obey _ hc ht := ht.obey hc
  subscribe peer outbox _ ht := ht.subscribe _ peer outbox
  dismiss peer _ ht := ht.dismiss _ peer
  dropOutboxes _ ht := ht.dropOutboxes _
  carryOut _ ht := (ht.withEvents _).carryOut _ _
  drop _ _ ht := ht
  meanwhile _ _ ht := ht

theorem flush (ht : t.Orderly) (h : Host) : (t.flush h).1.Orderly :=
  @Keeps.flush _ _ _ _ [] t h keeps ht

theorem accept (ht : t.Orderly) (now : Nat) (h : Host) (r : Request) :
    (t.accept now h r).1.Orderly :=
  @Keeps.accept _ _ _ _ [] t h r keeps ht now trivial

end Task.Orderly

namespace Scene

theorem holds_start (spec : SessionSpec) (h : Host) :
    (start spec h).Holds (fun _ => True) (fun _ t _ => t.Orderly) [] where
  inv := ⟨(Session.consistent_new spec.id spec.config).with_phase rfl (.inr (.inl rfl)),
    List.nodup_nil, nofun⟩
  events_nil := rfl
  early l hl := by
    cases hl
    exact ⟨rfl, .inl rfl, nofun⟩

theorem holds_run [RegexLibrary] (spec : SessionSpec) (h : Host) (happenings : List Happening) :
    ((start spec h).run happenings).Holds (fun _ => True) (fun _ t _ => t.Orderly)
      ((start spec h).log happenings) := by
  refine Task.Orderly.keeps.run (holds_start spec h) fun x _ => ?_
  cases x <;> trivial

end Scene

namespace Session

/-- A session that has not begun to open a document, or has ended, stays so. -/
theorem phase_step_of_over [RegexLibrary] {s : Session} (h : s.Consistent)
    (hphase : s.phase = .idle ∨ s.phase = .closed) {c : Command} (hc : c.IsPlain) :
    (s.step c).1.phase = .idle ∨ (s.step c).1.phase = .closed := by
  obtain ⟨-, -, -, hpending⟩ := h.nil_of_phase (hphase.imp_right .inr)
  rcases hphase with hidle | hclosed
  · have hopen : s.openDocument = .error .notOpen := by rw [openDocument, hidle]
    have hsame : ∀ {result : Except SessionError Session},
        (result = .ok s ∨ ∃ e, result = .error e) → (s.settle result).1.phase = .idle := by
      rintro result (rfl | ⟨e, rfl⟩) <;> exact hidle
    have henqueue : ∀ sub, s.enqueue sub = .error .notOpen := fun sub => by
      rw [enqueue, hopen]
      rfl
    have hack : ∀ peer revision, s.ack peer revision = .ok s := fun peer revision => by
      simp [ack, hidle, hpending]
    cases c with
    | beginOpen => exact hc.elim
    | openText p text => exact hc.elim
    | subscribe peer => exact hc.elim
    | unsubscribe peer => exact hc.elim
    | finishOpen result => exact .inl (by simp [step, finishOpen, hidle])
    | close => exact .inr rfl
    | resync peer => exact .inl (hsame (.inr ⟨_, by rw [resync, hopen]; rfl⟩))
    | message sender m =>
      refine .inl (hsame ?_)
      rw [handle]
      split
      · exact .inl rfl
      · split
        · exact .inr ⟨_, henqueue _⟩
        · exact .inl (hack _ _)
        · exact .inr ⟨_, by rw [resync, hopen]; rfl⟩
        · exact .inl rfl
    | submit origin patch => exact .inl (hsame (.inr ⟨_, henqueue _⟩))
    | localEdit now patch => exact .inl (by simp [step, localEdit, hopen, bind, Except.bind, hidle])
    | ack peer revision => exact .inl (hsame (.inl (hack peer revision)))
    | tick now => exact .inl (by simp [step, tick, hpending, hidle])
    | fileChanged text => exact .inl (hsame (.inr ⟨_, by rw [fileChanged, hopen]; rfl⟩))
    | viewEdit origin base view => exact .inl (hsame (.inr ⟨_, by rw [viewEdit, hopen]; rfl⟩))
  · exact .inr (phase_step_of_closed hclosed hpending c)

end Session

/-- A task that still runs did so before, whatever its session was told. -/
theorem Task.Orderly.isRunning_of_obey [RegexLibrary] {t : Task} (ht : t.Orderly)
    {c : Session.Command} (hc : c.IsPlain) (hrunning : (t.obey c).isRunning = true) :
    t.isRunning = true := by
  by_contra hover
  rw [Bool.not_eq_true, isRunning_eq_false_iff] at hover
  have hstill := Session.phase_step_of_over ht.consistent hover hc
  rw [isRunning_eq_false_iff.2 hstill] at hrunning
  cases hrunning

/-- Whether a request leaves a peer with the outbox that it has. -/
def Request.Stays (v : PeerId) : Request → Prop
  | .subscribe peer _ | .unsubscribe peer => peer ≠ v
  | _ => True

/-- What holds of a peer that stays with its outbox: it has it for as long as all fits in. -/
structure Task.Retains (v : PeerId) (o : OutboxId) (t : Task) (h : Host) : Prop where
  orderly : t.Orderly
  retained : t.isRunning = true → h.HasRoom o → t.outbox? v = some o

namespace Task.Retains

variable [RegexLibrary] {v : PeerId} {o : OutboxId} {t : Task} {h : Host}

theorem obey (ht : t.Retains v o h) {c : Session.Command} (hc : c.IsPlain) :
    (t.obey c).Retains v o h :=
  ⟨ht.orderly.obey hc, fun hrunning => ht.retained (ht.orderly.isRunning_of_obey hc hrunning)⟩

theorem dismiss (ht : t.Retains v o h) {peer : PeerId} (hpeer : v = peer → ¬ h.HasRoom o) :
    (t.dismiss h peer).1.Retains v o (t.dismiss h peer).2 := by
  refine ⟨ht.orderly.dismiss h peer, fun hrunning hroom => ?_⟩
  have hbefore : h.HasRoom o := t.hasRoom_of_dropOutbox hroom
  refine (t.outbox?_release peer v).trans ?_
  rw [if_neg fun heq => hpeer heq hbefore]
  exact ht.retained hrunning hbefore

theorem deliver (ht : t.Retains v o h) (peer : PeerId) (m : Message) :
    (t.deliver h peer m).1.Retains v o (t.deliver h peer m).2 := by
  obtain ⟨-, heq⟩ | ⟨id, next, -, hoffer, heq⟩ | ⟨id, hid, hoffer, heq⟩ := t.deliver_cases h peer m
  · rw [heq]
    exact ht
  · rw [heq]
    exact ⟨ht.orderly, fun hrunning hroom => ht.retained hrunning (hroom.of_offer hoffer)⟩
  · rw [heq]
    refine ⟨ht.orderly.dismiss h peer, fun hrunning hroom => ?_⟩
    have hbefore : h.HasRoom o := t.hasRoom_of_dropOutbox hroom
    have hv := ht.retained hrunning hbefore
    refine (t.outbox?_release peer v).trans ?_
    rw [if_neg, hv]
    rintro rfl
    obtain rfl := Option.some.inj (hv.symm.trans hid)
    exact hbefore.offer m hoffer

theorem carryOut (ht : t.Retains v o h) (e : Event) :
    (t.carryOut h e).1.Retains v o (t.carryOut h e).2 := by
  cases e with
  | send peer m => exact ht.deliver peer m
  | writeFile revision text =>
    have hwritten : t.Retains v o (t.writeThrough h text).1 :=
      ⟨ht.orderly, fun hrunning hroom => ht.retained hrunning (t.hasRoom_of_writeThrough hroom)⟩
    rw [Task.carryOut]
    split
    · rename_i host heq
      rw [heq] at hwritten
      rw [acknowledged_eq]
      exact hwritten.obey (c := .ack .fileSystem revision) trivial
    · rename_i host heq
      rw [heq] at hwritten
      exact hwritten

theorem subscribe (ht : t.Retains v o h) {peer : PeerId} (hpeer : peer ≠ v) (outbox : OutboxId) :
    (t.subscribe h peer outbox).1.Retains v o (t.subscribe h peer outbox).2 := by
  refine ⟨ht.orderly.subscribe h peer outbox, fun hrunning hroom => ?_⟩
  have hbefore : h.HasRoom o := t.hasRoom_of_dropOutbox hroom
  rw [outbox?_subscribe, if_neg (Ne.symm hpeer)]
  exact ht.retained (by rwa [isRunning_subscribe] at hrunning) hbefore

theorem of_subscribe (ht : t.Orderly) (h : Host) (v : PeerId) (o : OutboxId) :
    (t.subscribe h v o).1.Retains v o (t.subscribe h v o).2 :=
  ⟨ht.subscribe h v o, fun _ _ => by rw [outbox?_subscribe, if_pos rfl]⟩

theorem keeps (v : PeerId) (o : OutboxId) :
    Keeps (·.Stays v) (fun change => ∀ h : Host, (change h).HasRoom o → h.HasRoom o)
      fun _ t h => t.Retains v o h where
  obey _ hc ht := ht.obey hc
  subscribe _ outbox hpeer ht := ht.subscribe hpeer outbox
  dismiss _ hpeer ht := ht.dismiss fun heq => absurd heq.symm hpeer
  dropOutboxes hover ht := by
    refine ⟨ht.orderly.dropOutboxes _, fun hrunning => ?_⟩
    cases hover.symm.trans hrunning
  carryOut {_ t h e rest} _ ht := by
    have htaken : (t.withEvents rest).Retains v o h := ⟨ht.orderly.withEvents rest, ht.retained⟩
    exact htaken.carryOut e
  drop _ _ ht := ⟨ht.orderly, fun hrunning hroom => ht.retained hrunning hroom.of_drop⟩
  meanwhile _ hchange ht :=
    ⟨ht.orderly, fun hrunning hroom => ht.retained hrunning (hchange _ hroom)⟩

end Task.Retains

end LiterateSync
