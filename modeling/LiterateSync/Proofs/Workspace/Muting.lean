import LiterateSync.Proofs.Session.Muting
import LiterateSync.Proofs.Workspace.Orderly

namespace LiterateSync

/-- A host without the outboxes. -/
def Host.muted (h : Host) : Host :=
  { h with outboxes := [] }

/-- A task without its peers. -/
def Task.muted (t : Task) : Task :=
  { t with session := t.session.muted, outboxes := [] }

namespace Host

variable {h next : Host} {o : OutboxId}

theorem muted_offer {m : Message} (hoffer : h.offer? o m = some next) : next.muted = h.muted := by
  rw [offer?] at hoffer
  split at hoffer
  · split at hoffer
    · cases hoffer
      rfl
    · cases hoffer
  · cases hoffer

end Host

namespace Task

variable {t : Task} {h : Host}

theorem muted_dropOutbox (t : Task) (h : Host) (peer : PeerId) :
    (t.dropOutbox h peer).2.muted = h.muted := by
  rw [dropOutbox]
  cases t.outbox? peer <;> rfl

/-- A message whose outbox has room for it changes nothing else. -/
theorem deliver_of_hasRoom {peer : PeerId} {m : Message}
    (hroom : ∀ o, t.outbox? peer = some o → (t.deliver h peer m).2.HasRoom o) :
    (t.deliver h peer m).1 = t ∧ (t.deliver h peer m).2.muted = h.muted := by
  obtain ⟨-, heq⟩ | ⟨o, next, -, hoffer, heq⟩ | ⟨o, ho, hoffer, heq⟩ := t.deliver_cases h peer m
  · rw [heq]
    exact ⟨rfl, rfl⟩
  · rw [heq]
    exact ⟨rfl, Host.muted_offer hoffer⟩
  · have hafter := hroom o ho
    rw [heq] at hafter
    exact absurd hoffer ((t.hasRoom_of_dropOutbox hafter).offer m)

theorem muted_acknowledged (s : Session) (revision : Nat) :
    (acknowledged s revision).muted = acknowledged s.muted revision := by
  rw [acknowledged, acknowledged, ← Session.muted_ack]
  cases s.ack .fileSystem revision <;> rfl

theorem writeThrough_muted (t : Task) (h : Host) (text : String) :
    t.muted.writeThrough h.muted text =
      ((t.writeThrough h text).1.muted, (t.writeThrough h text).2) := by
  have hbacking : t.muted.backing = t.backing := rfl
  have hfiles : h.muted.files = h.files := rfl
  rw [writeThrough, writeThrough, hbacking, hfiles]
  cases t.backing with
  | none => rfl
  | some path =>
    obtain ⟨files, outcome⟩ := h.files.replace path text
    rfl

theorem muted_write (t : Task) (h : Host) (revision : Nat) (text : String) :
    t.muted.carryOut h.muted (.writeFile revision text) =
      ((t.carryOut h (.writeFile revision text)).1.muted,
        (t.carryOut h (.writeFile revision text)).2.muted) := by
  rw [carryOut, carryOut, writeThrough_muted]
  obtain ⟨host, written⟩ := t.writeThrough h text
  cases written with
  | false => rfl
  | true => simp only [muted, muted_acknowledged]

theorem subscribers_acknowledged (s : Session) (revision : Nat) :
    (acknowledged s revision).subscribers = s.subscribers := by
  rw [acknowledged]
  split
  · exact Session.subscribers_ack ‹_›
  · rfl

/-- A write leaves the peers as they are. -/
theorem peers_write (t : Task) (h : Host) (revision : Nat) (text : String) :
    (t.carryOut h (.writeFile revision text)).1.outboxes = t.outboxes ∧
      (t.carryOut h (.writeFile revision text)).1.session.subscribers = t.session.subscribers := by
  rw [carryOut]
  split
  · exact ⟨rfl, subscribers_acknowledged ..⟩
  · exact ⟨rfl, rfl⟩

/-- As long as all messages fit in, the peers stay as they are, and all else that is done would be
    done without them. -/
theorem muted_flush [RegexLibrary]
    (hroom : ∀ peer o, t.outbox? peer = some o → (t.flush h).2.HasRoom o) :
    (t.flush h).1.outboxes = t.outboxes ∧
      (t.flush h).1.session.subscribers = t.session.subscribers ∧
      t.muted.flush h.muted = ((t.flush h).1.muted, (t.flush h).2.muted) := by
  induction t, h using flush.induct with
  | case1 t h hrest =>
    have hmuted : t.muted.session.events = [] := congrArg writesIn hrest
    rw [flush_of_nil hrest, flush_of_nil hmuted]
    exact ⟨rfl, rfl, rfl⟩
  | case2 t h e rest hevents next ih =>
    rw [flush_of_cons hevents] at hroom ⊢
    cases e with
    | send peer m =>
      have hdelivered : ∀ o, (t.withEvents rest).outbox? peer = some o →
          ((t.withEvents rest).deliver h peer m).2.HasRoom o :=
        fun o ho => hasRoom_of_flush (hroom peer o ho)
      obtain ⟨hsame, hhost⟩ := deliver_of_hasRoom hdelivered
      have hnext : next.1 = t.withEvents rest := hsame
      have hmuted : next.1.muted = t.muted := by
        rw [hnext]
        simp [muted, withEvents, Session.muted, hevents, writesIn]
      obtain ⟨houtboxes, hsubscribers, hflush⟩ := ih fun peer o ho => hroom peer o (by
        rw [hnext] at ho
        exact ho)
      rw [hmuted, show next.2.muted = h.muted from hhost] at hflush
      exact ⟨houtboxes.trans (by rw [hnext]; rfl), hsubscribers.trans (by rw [hnext]; rfl), hflush⟩
    | writeFile revision text =>
      have hmuted : t.muted.session.events = .writeFile revision text :: writesIn rest :=
        congrArg writesIn hevents
      obtain ⟨hboxes, hpeers⟩ := peers_write (t.withEvents rest) h revision text
      obtain ⟨houtboxes, hsubscribers, hflush⟩ := ih fun peer o ho => hroom peer o (by
        rwa [outbox?, hboxes] at ho)
      refine ⟨houtboxes.trans hboxes, hsubscribers.trans hpeers, ?_⟩
      have hwrite := muted_write (t.withEvents rest) h revision text
      rw [flush_of_cons hmuted]
      change (((t.withEvents rest).muted.carryOut h.muted _).1.flush
        ((t.withEvents rest).muted.carryOut h.muted _).2) = _
      rw [hwrite]
      exact hflush

theorem muted_obey [RegexLibrary] (t : Task) {c : Session.Command}
    (hpeers : ∀ peer, c ≠ .subscribe peer) (htime : ∀ now, c ≠ .tick now) :
    t.muted.obey c.timeless = (t.obey c).muted := by
  rw [obey, muted, muted, obey, ← congrArg Prod.fst (t.session.muted_step hpeers htime)]

theorem muted_subscribe (t : Task) (h : Host) (peer : PeerId) (o : OutboxId) :
    ((t.subscribe h peer o).1.muted, (t.subscribe h peer o).2.muted) = (t.muted, h.muted) := by
  refine Prod.ext ?_ (t.muted_dropOutbox h peer)
  change { t with session := (t.session.subscribe peer).muted, outboxes := [] } = t.muted
  rw [Session.muted_subscribe]
  rfl

end Task

end LiterateSync
