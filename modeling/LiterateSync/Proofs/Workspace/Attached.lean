import LiterateSync.Proofs.Session.Opened
import LiterateSync.Proofs.Workspace.Orderly

namespace LiterateSync

/-- What a session can do to an outbox: put messages in behind the others, and let go of it. -/
structure Outbox.Grows (b b' : Outbox) : Prop where
  taken_eq : b'.taken = b.taken
  sent_prefix : b.sent <+: b'.sent
  dropped : b.dropped = true → b'.dropped = true

theorem Outbox.Grows.refl (b : Outbox) : b.Grows b :=
  ⟨rfl, List.prefix_refl _, id⟩

theorem Outbox.Grows.trans {b b' b'' : Outbox} (h : b.Grows b') (h' : b'.Grows b'') :
    b.Grows b'' :=
  ⟨h'.taken_eq.trans h.taken_eq, h.sent_prefix.trans h'.sent_prefix, h'.dropped ∘ h.dropped⟩

namespace Host

variable {h next : Host} {o id : OutboxId} {b : Outbox} {change : Outbox → Outbox}

theorem isDropped_update (hchange : ∀ b, (change b).dropped = b.dropped) :
    (h.update id change).isDropped o = h.isDropped o := by
  rw [isDropped, isDropped, update, List.getElem?_modify]
  cases h.outboxes[o]? with
  | none => rfl
  | some b => by_cases hid : id = o <;> simp [hid, hchange]

theorem isDropped_drop (hne : id ≠ o) : (h.drop id).isDropped o = h.isDropped o := by
  rw [isDropped, isDropped, drop, update, List.getElem?_modify]
  simp [hne]

theorem isDropped_offer {m : Message} (hoffer : h.offer? id m = some next) :
    next.isDropped o = h.isDropped o := by
  rw [offer?] at hoffer
  split at hoffer
  · split at hoffer
    · cases hoffer
      exact isDropped_update fun _ => rfl
    · cases hoffer
  · cases hoffer

/-- Whether an outbox is there, and has only grown since it was `b`. -/
def HasGrown (h : Host) (o : OutboxId) (b : Outbox) : Prop :=
  ∃ b', h.outboxes[o]? = some b' ∧ b.Grows b'

theorem HasGrown.update (h' : h.HasGrown o b) (hchange : ∀ b : Outbox, b.Grows (change b)) :
    (h.update id change).HasGrown o b := by
  obtain ⟨b', hb', hgrows⟩ := h'
  rw [HasGrown, Host.update, List.getElem?_modify, hb']
  by_cases hid : id = o
  · exact ⟨change b', by simp [hid], hgrows.trans (hchange b')⟩
  · exact ⟨b', by simp [hid], hgrows⟩

theorem HasGrown.drop (h' : h.HasGrown o b) (id : OutboxId) : (h.drop id).HasGrown o b :=
  h'.update fun _ => ⟨rfl, List.prefix_refl _, fun _ => rfl⟩

theorem HasGrown.dropAll (h' : h.HasGrown o b) (ids : List OutboxId) :
    (h.dropAll ids).HasGrown o b := by
  rw [Host.dropAll]
  induction ids generalizing h with
  | nil => exact h'
  | cons id ids ih => exact ih (h'.drop id)

theorem HasGrown.offer (h' : h.HasGrown o b) {m : Message} (hoffer : h.offer? id m = some next) :
    next.HasGrown o b := by
  rw [offer?] at hoffer
  split at hoffer
  · split at hoffer
    · cases hoffer
      exact h'.update fun _ => ⟨rfl, List.prefix_append _ _, fun hdropped => hdropped⟩
    · cases hoffer
  · cases hoffer

end Host

namespace Task

variable {t : Task} {h : Host} {v peer : PeerId} {o : OutboxId} {id : SessionId} {b : Outbox}

@[simp] theorem outboxes_writeThrough (t : Task) (h : Host) (text : String) :
    (t.writeThrough h text).1.outboxes = h.outboxes := by
  rw [writeThrough]
  split <;> rfl

theorem hasGrown_dropOutbox (t : Task) (h' : h.HasGrown o b) (peer : PeerId) :
    (t.dropOutbox h peer).2.HasGrown o b := by
  rw [dropOutbox]
  cases t.outbox? peer with
  | none => exact h'
  | some id => exact h'.drop id

theorem hasGrown_carryOut (t : Task) (h' : h.HasGrown o b) (e : Event) :
    (t.carryOut h e).2.HasGrown o b := by
  cases e with
  | send peer m =>
    rw [carryOut]
    obtain ⟨-, heq⟩ | ⟨id, next, -, hoffer, heq⟩ | ⟨id, -, -, heq⟩ := t.deliver_cases h peer m
    · rwa [heq]
    · rw [heq]
      exact h'.offer hoffer
    · rw [heq]
      exact t.hasGrown_dropOutbox h' peer
  | writeFile revision text =>
    have hwritten : (t.writeThrough h text).1.HasGrown o b := by
      rw [Host.HasGrown, outboxes_writeThrough]
      exact h'
    rw [carryOut]
    split <;> simp_all

/-- Nothing that a task does takes a message out of an outbox. -/
theorem keeps_hasGrown [RegexLibrary] (o : OutboxId) (b : Outbox) :
    Keeps (fun _ => True) (fun change => ∀ h : Host, (change h).outboxes[o]? = h.outboxes[o]?)
      fun _ _ h => h.HasGrown o b where
  obey _ _ h := h
  subscribe peer _ _ h := hasGrown_dropOutbox _ h peer
  dismiss peer _ h := hasGrown_dropOutbox _ h peer
  dropOutboxes _ h := h.dropAll _
  carryOut _ h := hasGrown_carryOut _ h _
  drop id _ h := h.drop id
  meanwhile _ hchange := fun ⟨b', hb', hgrows⟩ => ⟨b', (hchange _).trans hb', hgrows⟩

/-- A task that has ended. -/
structure IsOver (t : Task) : Prop where
  orderly : t.Orderly
  isRunning_eq : t.isRunning = false

theorem IsOver.obey [RegexLibrary] (ht : t.IsOver) {c : Session.Command} (hc : c.IsPlain) :
    (t.obey c).IsOver where
  orderly := ht.orderly.obey hc
  isRunning_eq := by
    by_contra hrunning
    rw [Bool.not_eq_false] at hrunning
    cases ht.isRunning_eq.symm.trans (ht.orderly.isRunning_of_obey hc hrunning)

/-- There is no way back from the end. -/
theorem keeps_isOver [RegexLibrary] :
    Keeps (fun _ => True) (fun _ => True) fun _ t _ => t.IsOver where
  obey _ hc ht := ht.obey hc
  subscribe peer outbox _ ht :=
    ⟨ht.orderly.subscribe _ peer outbox,
      (isRunning_subscribe _ _ peer outbox).trans ht.isRunning_eq⟩
  dismiss peer _ ht := ⟨ht.orderly.dismiss _ peer, ht.isRunning_eq⟩
  dropOutboxes _ ht := ⟨ht.orderly.dropOutboxes _, ht.isRunning_eq⟩
  carryOut {_ t h e rest} _ ht := by
    have htaken : (t.withEvents rest).IsOver := ⟨ht.orderly.withEvents rest, ht.isRunning_eq⟩
    cases e with
    | send peer m =>
      refine ⟨htaken.orderly.deliver h peer m, ?_⟩
      rw [carryOut]
      obtain ⟨-, heq⟩ | ⟨id, next, -, -, heq⟩ | ⟨id, -, -, heq⟩ :=
        (t.withEvents rest).deliver_cases h peer m
      all_goals
        rw [heq]
        exact htaken.isRunning_eq
    | writeFile revision text =>
      rw [carryOut]
      split
      · rw [acknowledged_eq]
        exact htaken.obey (c := .ack .fileSystem revision) trivial
      · exact htaken
  drop _ _ ht := ht
  meanwhile _ _ ht := ht

/-- What holds of a task with a document and of the outbox that a peer has handed over to it: no
    one else has the outbox, and the task does not let go of it before the peer is gone. -/
structure Serves (id : SessionId) (v : PeerId) (o : OutboxId) (t : Task) (h : Host) : Prop where
  orderly : t.Orderly
  opened : t.session.HasOpened id
  owner : ∀ peer, t.outbox? peer = some o → peer = v
  held : t.isRunning = true → t.outbox? v = some o → h.isDropped o = false

namespace Serves

theorem obey [RegexLibrary] (ht : t.Serves id v o h) {c : Session.Command} (hc : c.IsPlain) :
    (t.obey c).Serves id v o h where
  orderly := ht.orderly.obey hc
  opened := ht.opened.step ht.orderly.consistent c
  owner := ht.owner
  held hrunning := ht.held (ht.orderly.isRunning_of_obey hc hrunning)

theorem withHost (ht : t.Serves id v o h) {next : Host}
    (hnext : next.isDropped o = h.isDropped o) : t.Serves id v o next :=
  ⟨ht.orderly, ht.opened, ht.owner, fun hrunning hv => hnext.trans (ht.held hrunning hv)⟩

/-- The outbox is not let go for a peer that does not have it. -/
theorem isDropped_dropOutbox (hne : t.outbox? peer ≠ some o) :
    (t.dropOutbox h peer).2.isDropped o = h.isDropped o := by
  rw [dropOutbox]
  cases houtbox : t.outbox? peer with
  | none => rfl
  | some id => exact Host.isDropped_drop fun heq => hne (heq ▸ houtbox)

theorem dismiss [RegexLibrary] (ht : t.Serves id v o h) (peer : PeerId) :
    (t.dismiss h peer).1.Serves id v o (t.dismiss h peer).2 where
  orderly := ht.orderly.dismiss h peer
  opened := ht.opened.step ht.orderly.consistent (.unsubscribe peer)
  owner w hw := ht.owner w (outbox?_dismiss hw).2
  held hrunning hv := by
    obtain ⟨hne, hv⟩ := outbox?_dismiss hv
    refine (isDropped_dropOutbox fun hpeer => hne ?_).trans (ht.held hrunning hv)
    exact (ht.owner peer hpeer).symm

theorem subscribe [RegexLibrary] (ht : t.Serves id v o h) (peer : PeerId) {outbox : OutboxId}
    (hne : outbox ≠ o) :
    (t.subscribe h peer outbox).1.Serves id v o (t.subscribe h peer outbox).2 where
  orderly := ht.orderly.subscribe h peer outbox
  opened := ht.opened.step ht.orderly.consistent (.subscribe peer)
  owner w hw := by
    rw [outbox?_subscribe] at hw
    split at hw
    · exact absurd (Option.some.inj hw) hne
    · exact ht.owner w hw
  held hrunning hv := by
    rw [isRunning_subscribe] at hrunning
    rw [outbox?_subscribe] at hv
    split at hv
    · exact absurd (Option.some.inj hv) hne
    · rename_i hpeer
      refine (isDropped_dropOutbox fun hother => hpeer ?_).trans (ht.held hrunning hv)
      exact (ht.owner peer hother).symm

theorem deliver [RegexLibrary] (ht : t.Serves id v o h) (peer : PeerId) (m : Message) :
    (t.deliver h peer m).1.Serves id v o (t.deliver h peer m).2 := by
  obtain ⟨-, heq⟩ | ⟨id, next, -, hoffer, heq⟩ | ⟨id, -, -, heq⟩ := t.deliver_cases h peer m
  · rw [heq]
    exact ht
  · rw [heq]
    exact ht.withHost (Host.isDropped_offer hoffer)
  · rw [heq]
    exact ht.dismiss peer

theorem carryOut [RegexLibrary] (ht : t.Serves id v o h) (e : Event) :
    (t.carryOut h e).1.Serves id v o (t.carryOut h e).2 := by
  cases e with
  | send peer m => exact ht.deliver peer m
  | writeFile revision text =>
    have hwritten : t.Serves id v o (t.writeThrough h text).1 := by
      refine ht.withHost ?_
      rw [Host.isDropped, outboxes_writeThrough, Host.isDropped]
    rw [Task.carryOut]
    split
    · rename_i host heq
      rw [heq] at hwritten
      rw [acknowledged_eq]
      exact hwritten.obey (c := .ack .fileSystem revision) trivial
    · rename_i host heq
      rw [heq] at hwritten
      exact hwritten

theorem keeps [RegexLibrary] (id : SessionId) (v : PeerId) (o : OutboxId) :
    Keeps (fun r => ∀ peer, r ≠ .subscribe peer o)
      (fun change => ∀ h : Host, (change h).isDropped o = h.isDropped o)
      fun _ t h => t.Serves id v o h where
  obey _ hc ht := ht.obey hc
  subscribe peer _ hother ht := ht.subscribe peer fun heq => hother peer (heq ▸ rfl)
  dismiss peer _ ht := ht.dismiss peer
  dropOutboxes hover ht :=
    ⟨ht.orderly.dropOutboxes _, ht.opened, nofun, fun hrunning =>
      absurd (hover.symm.trans hrunning) Bool.false_ne_true⟩
  carryOut {_ t h e rest} _ ht := by
    have htaken : (t.withEvents rest).Serves id v o h :=
      ⟨ht.orderly.withEvents rest, ht.opened.congr rfl rfl rfl, ht.owner, ht.held⟩
    exact htaken.carryOut e
  drop _ hover ht :=
    ⟨ht.orderly, ht.opened, ht.owner, fun hrunning =>
      absurd (hover.symm.trans hrunning) Bool.false_ne_true⟩
  meanwhile _ hchange ht := ht.withHost (hchange _)

/-- A peer that hands over an outbox that no one has used is served through it. -/
theorem of_subscribe [RegexLibrary] (ht : t.Orderly) (hopened : t.session.HasOpened id)
    (hfree : ∀ peer, t.outbox? peer ≠ some o) (hheld : h.isDropped o = false) (v : PeerId) :
    (t.subscribe h v o).1.Serves id v o (t.subscribe h v o).2 where
  orderly := ht.subscribe h v o
  opened := hopened.step ht.consistent (.subscribe v)
  owner w hw := by
    rw [outbox?_subscribe] at hw
    split at hw
    · assumption
    · exact absurd hw (hfree w)
  held _ _ := (isDropped_dropOutbox (hfree v)).trans hheld

end Serves

end Task

end LiterateSync
