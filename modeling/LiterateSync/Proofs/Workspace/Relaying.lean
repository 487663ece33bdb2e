import LiterateSync.Proofs.Wire.Lines
import LiterateSync.Proofs.Workspace.Attached
import LiterateSync.Proofs.Workspace.Outboxes
import LiterateSync.Text.Pattern.Library

namespace LiterateSync

/-- Whether an outbox is handed over to no one in what happens, and left alone by all others. -/
def Happening.Leaves (o : OutboxId) : Happening → Prop :=
  Happening.Allowed (fun r => ∀ peer, r ≠ .subscribe peer o)
    fun change => ∀ h : Host, (change h).outboxes[o]? = h.outboxes[o]?

theorem Happening.Allowed.mono {P P' : Request → Prop} {Q Q' : (Host → Host) → Prop}
    {x : Happening} (hx : x.Allowed P Q) (hP : ∀ r, P r → P' r)
    (hQ : ∀ change, Q change → Q' change) : x.Allowed P' Q' := by
  cases x with
  | request now r => exact hP r hx
  | meanwhile change => exact hQ change hx
  | _ => trivial

namespace Relay

/-- The session of a relay with a document, and what it acts on. -/
def scene (r : Relay) : Scene :=
  ⟨.ready r.task, r.host⟩

/-- A relay at its start, for a peer that hands over an outbox to a session. -/
def attach [RegexLibrary] (s : Scene) (now : Nat) (peer : PeerId) (outbox : OutboxId)
    (text : String) : Relay :=
  let s := s.step (.request now (.subscribe peer outbox))
  { peer, outbox, task := s.task, host := s.host, input := lines text }

/-- What happens next to a relay or its session. -/
inductive Move where
  | own (turn : Turn)
  /-- Something that the relay has no part in happens to the session. -/
  | other (x : Happening)

def Move.other? : Move → Option Happening
  | .own _ => none
  | .other x => some x

/-- The relay after a move. -/
def move [RegexLibrary] (r : Relay) : Move → Relay
  | .own turn => r.turn turn
  | .other x =>
    let s := r.scene.step x
    { r with task := s.task, host := s.host }

/-- What a move comes to for the session. -/
inductive Deed where
  /-- A line with a message has been read. -/
  | line (m : Message)
  /-- A message has been taken out of the outbox. -/
  | taken
  | other (x : Happening)

namespace Deed

def line? : Deed → Option Message
  | .line m => some m
  | _ => none

def other? : Deed → Option Happening
  | .other x => some x
  | _ => none

/-- What happens to the session of a peer with an outbox. -/
def happening (peer : PeerId) (outbox : OutboxId) : Deed → Happening
  | .line m => .request 0 (.message peer m)
  | .taken => .meanwhile fun h => h.update outbox fun b => { b with taken := b.taken + 1 }
  | .other x => x

end Deed

/-- A run of a relay is a course in which nothing comes between its turns. -/
theorem run_eq [RegexLibrary] (r : Relay) (turns : List Turn) :
    r.run turns = ((turns.map .own).foldl move r).finish := by
  rw [run, List.foldl_map]
  rfl

/-- A session with a document goes on having one as far as the relay is concerned. -/
theorem scene_move [RegexLibrary] (r : Relay) (x : Happening) :
    (r.move (.other x)).scene = r.scene.step x := by
  cases x with
  | request now req =>
    simp only [move, scene, Scene.step]
    split <;> rfl
  | made now result => rfl
  | tick now => rfl
  | meanwhile change => rfl

/-! ### What has been written -/

/-- Whether some messages are all that have been taken out of an outbox. -/
structure Tallies (h : Host) (o : OutboxId) (output : List Message) (b : Outbox) : Prop where
  getElem? : h.outboxes[o]? = some b
  output_eq : output = b.sent.take b.taken
  taken_le : b.taken ≤ b.sent.length

variable {r : Relay} {b : Outbox} {id : SessionId} {h : Host} {o : OutboxId}
  {output : List Message}

/-- What a session does to the outbox takes nothing out of it. -/
theorem Tallies.grow (hb : Tallies h o output b) {next : Host} (hgrown : next.HasGrown o b) :
    ∃ b', Tallies next o output b' ∧ b.Grows b' := by
  obtain ⟨b', hb', hgrows⟩ := hgrown
  refine ⟨b', ⟨hb', ?_, ?_⟩, hgrows⟩
  · obtain ⟨more, hmore⟩ := hgrows.sent_prefix
    rw [← hmore, hgrows.taken_eq, List.take_append_of_le_length hb.taken_le]
    exact hb.output_eq
  · rw [hgrows.taken_eq]
    exact hb.taken_le.trans hgrows.sent_prefix.length_le

theorem waiting_eq (hb : Tallies r.host r.outbox r.output b) :
    r.waiting = b.sent.drop b.taken := by
  simp [waiting, hb.getElem?, Outbox.waiting]

/-- To write a message is to take one out of the outbox. -/
theorem write_one (hwaiting : r.waiting ≠ []) :
    r.write 1 = { r with
      output := r.output ++ r.waiting.take 1
      host := r.host.update r.outbox fun b => { b with taken := b.taken + 1 } } := by
  have hlength : (r.waiting.take 1).length = 1 := by
    rw [List.length_take]
    exact Nat.min_eq_left (List.length_pos_iff.2 hwaiting)
  simp only [write, hlength]

theorem Tallies.write_one (hb : Tallies r.host r.outbox r.output b) (hwaiting : r.waiting ≠ []) :
    Tallies (r.host.update r.outbox fun b => { b with taken := b.taken + 1 }) r.outbox
      (r.output ++ r.waiting.take 1) { b with taken := b.taken + 1 } := by
  refine ⟨by simp [Host.update, hb.getElem?], ?_, ?_⟩
  · rw [hb.output_eq, waiting_eq hb, List.take_add]
  · rw [waiting_eq hb, ne_eq, List.drop_eq_nil_iff, not_le] at hwaiting
    exact hwaiting

/-- At the end all that was put into the outbox is written. -/
theorem output_finish (hb : Tallies r.host r.outbox r.output b) (hended : r.ended = true) :
    r.finish.output = b.sent := by
  rw [finish, if_pos hended, write, List.take_length, hb.output_eq, waiting_eq hb,
    List.take_append_drop]

/-! ### Messages from lines -/

/-- A session with a document never refuses a message. -/
theorem reply_message [RegexLibrary] (hs : r.task.Serves id r.peer r.outbox r.host)
    (hrunning : r.task.isRunning = true) (m : Message) :
    (r.task.handle 0 r.host (.message r.peer m)).2.2 = .done := by
  have hdocument : r.task.session.document.isSome := by
    refine hs.opened.opened.resolve_right fun hclosed => ?_
    rw [Task.isRunning_eq_false_iff.2 (.inr hclosed)] at hrunning
    cases hrunning
  obtain ⟨next, hnext⟩ := Session.exists_handle hs.orderly.consistent hdocument r.peer m
  simp [Task.handle, Task.command, Session.step, hnext, Session.settle]

/-- The session does with a message what it does with any other request, and the relay goes on. -/
theorem forward_eq [RegexLibrary] (hs : r.task.Serves id r.peer r.outbox r.host)
    (hrunning : r.task.isRunning = true) {line : String} {m : Message}
    (hm : messageFor? id line = some m) :
    r.forward line = r.move (.other (.request 0 (.message r.peer m))) := by
  have hreply := reply_message hs hrunning m
  rw [forward, hs.opened.id_eq, hm]
  simp only [hreply, move, scene, Scene.step, if_pos hrunning]
  rfl

/-- A line without a message for the session has no effect. -/
theorem forward_of_none [RegexLibrary] (hs : r.task.Serves id r.peer r.outbox r.host)
    {line : String} (hm : messageFor? id line = none) : r.forward line = r := by
  rw [forward, hs.opened.id_eq, hm]

/-- A relay that goes on after the end of its session. -/
structure Outlives (r : Relay) : Prop where
  isOver : r.task.IsOver
  events_nil : r.task.session.events = []

theorem Outlives.forward [RegexLibrary] (hr : r.Outlives) (line : String) :
    (r.forward line).Outlives := by
  rw [Relay.forward]
  split
  · exact hr
  · rename_i m hm
    have hhandled := @Keeps.handle _ _ _ _ [] _ r.host (.message r.peer m) Task.keeps_isOver
      hr.events_nil 0 (@Keeps.accept _ _ _ _ [] _ _ _ Task.keeps_isOver hr.isOver 0 trivial)
    have hevents := Task.events_handle hr.events_nil 0 r.host (.message r.peer m)
    simp only
    split
    · split <;> exact ⟨hhandled, hevents⟩
    · exact ⟨hhandled, hevents⟩

theorem Outlives.turn [RegexLibrary] (hr : r.Outlives) (t : Turn) : (r.turn t).Outlives := by
  rw [Relay.turn.eq_def]
  split
  · exact hr
  · cases t with
    | readLine =>
      simp only [readLine]
      split
      · exact ⟨hr.isOver, hr.events_nil⟩
      · rename_i line rest _
        have hnext : { r with input := rest }.Outlives := ⟨hr.isOver, hr.events_nil⟩
        exact hnext.forward line
    | writeNext =>
      simp only [writeNext]
      split
      · split
        · exact ⟨hr.isOver, hr.events_nil⟩
        · exact hr
      · exact ⟨hr.isOver, hr.events_nil⟩

theorem Outlives.move [RegexLibrary] (hr : r.Outlives) (m : Move) : (r.move m).Outlives := by
  cases m with
  | own t => exact hr.turn t
  | other x =>
    have hscene : r.scene.Holds (fun _ => True) (fun _ t _ => t.IsOver) [] :=
      ⟨hr.isOver, hr.events_nil, fun _ hl => by cases hl⟩
    have hx : x.Allowed (fun _ => True) fun _ => True := by cases x <;> trivial
    have hstep := Task.keeps_isOver.step hscene hx
    exact ⟨hstep.inv, hstep.events_nil⟩

/-- A session that is open at the end was open all the time. -/
theorem isRunning_of_foldl [RegexLibrary] (horderly : r.task.Orderly)
    (hrest : r.task.session.events = []) {moves : List Move}
    (hopen : (moves.foldl move r).task.isRunning = true) : r.task.isRunning = true := by
  by_contra hover
  rw [Bool.not_eq_true] at hover
  have hlast : ∀ (moves : List Move) (r : Relay), r.Outlives → (moves.foldl move r).Outlives := by
    intro moves
    induction moves with
    | nil => exact fun r hr => hr
    | cons m moves ih => exact fun r hr => ih (r.move m) (hr.move m)
  have hend := hlast moves r ⟨⟨horderly, hover⟩, hrest⟩
  cases hend.isOver.isRunning_eq.symm.trans hopen

/-! ### What has been passed on -/

theorem message_ne_subscribe {sender : PeerId} (m : Message) (v : PeerId) :
    Request.message sender m ≠ .subscribe v o := by
  simp

/-- What holds of a relay after some moves: its session is as if only the deeds had happened, which
    are the messages of the lines that were read and what others have done. -/
structure Traces [RegexLibrary] (id : SessionId) (first : Relay) (others : List Happening)
    (r : Relay) (read : List String) (deeds : List Deed) : Prop where
  peer_eq : r.peer = first.peer
  outbox_eq : r.outbox = first.outbox
  scene_eq : r.scene = first.scene.run (deeds.map (Deed.happening first.peer first.outbox))
  lines_eq : first.input = read ++ r.input
  messages_eq : deeds.filterMap Deed.line? = read.filterMap (messageFor? id)
  others_eq : deeds.filterMap Deed.other? = others
  failure_eq : r.failure = none
  tallies : ∃ b, Tallies r.host r.outbox r.output b
  ended : r.ended = true → r.input = [] ∨ r.host.isDropped r.outbox = true

variable {first : Relay} {others : List Happening} {read : List String} {deeds : List Deed}

section Tracing

variable [RegexLibrary]

/-- What happens to the session leaves what was written as it is. -/
theorem Traces.happens (ht : Traces id first others r read deeds)
    (hrest : r.task.session.events = []) {x : Happening} (hx : x.Leaves r.outbox) :
    (∃ b, Tallies (r.scene.step x).host r.outbox r.output b) ∧
      (r.host.isDropped r.outbox = true → (r.scene.step x).host.isDropped r.outbox = true) := by
  obtain ⟨b, hb⟩ := ht.tallies
  have hscene : r.scene.Holds (fun _ => True) (fun _ _ h => h.HasGrown r.outbox b) [] :=
    ⟨⟨b, hb.getElem?, .refl b⟩, hrest, fun _ hl => by cases hl⟩
  have hgrown := ((Task.keeps_hasGrown r.outbox b).step hscene
    (hx.mono (fun _ _ => trivial) fun _ h => h)).inv
  obtain ⟨b', hb', hgrows⟩ := hb.grow hgrown
  refine ⟨⟨b', hb'⟩, fun hdropped => ?_⟩
  rw [Host.isDropped, hb.getElem?] at hdropped
  rw [Host.isDropped, hb'.getElem?]
  exact hgrows.dropped hdropped

theorem Traces.scene_deed (ht : Traces id first others r read deeds) (d : Deed) :
    r.scene.step (d.happening first.peer first.outbox) =
      first.scene.run ((deeds ++ [d]).map (Deed.happening first.peer first.outbox)) := by
  rw [ht.scene_eq, List.map_append, Scene.run, Scene.run, List.foldl_append]
  rfl

/-- Others can do to the session what they like. -/
theorem Traces.other (ht : Traces id first others r read deeds)
    (hrest : r.task.session.events = []) {x : Happening} (hx : x.Leaves r.outbox) :
    Traces id first (others ++ [x]) (r.move (.other x)) read (deeds ++ [.other x]) := by
  obtain ⟨htallies, hdropped⟩ := ht.happens hrest hx
  refine ⟨ht.peer_eq, ht.outbox_eq, (r.scene_move x).trans (ht.scene_deed (.other x)), ht.lines_eq,
    ?_, ?_, ht.failure_eq, htallies, fun hended => (ht.ended hended).imp_right hdropped⟩
  · rw [List.filterMap_append, ht.messages_eq]
    exact List.append_nil _
  · rw [List.filterMap_append, ht.others_eq]
    rfl

theorem readLine_of_nil (hinput : r.input = []) : r.readLine = { r with ended := true } := by
  rw [readLine, hinput]

theorem readLine_of_cons {line : String} {rest : List String} (hinput : r.input = line :: rest) :
    r.readLine = { r with input := rest }.forward line := by
  rw [readLine, hinput]

/-- A line that is read is passed on, if it has a message for the session. -/
theorem Traces.readLine (ht : Traces id first others r read deeds)
    (hs : r.task.Serves id r.peer r.outbox r.host) (hrest : r.task.session.events = [])
    (hrunning : r.task.isRunning = true) (hended : r.ended = false) :
    ∃ read' deeds', Traces id first others r.readLine read' deeds' := by
  cases hinput : r.input with
  | nil =>
    rw [readLine_of_nil hinput]
    exact ⟨read, deeds, { ht with ended := fun _ => .inl hinput }⟩
  | cons line rest =>
    have hlines : first.input = (read ++ [line]) ++ rest := by
      rw [ht.lines_eq, hinput, List.append_cons]
    have hopen : r.ended = true → rest = [] ∨ r.host.isDropped r.outbox = true := by
      simp [hended]
    rw [readLine_of_cons hinput]
    cases hm : messageFor? id line with
    | none =>
      rw [forward_of_none (r := { r with input := rest }) hs hm]
      refine ⟨read ++ [line], deeds,
        { ht with lines_eq := hlines, messages_eq := ?_, ended := hopen }⟩
      rw [List.filterMap_append, List.filterMap_cons_none hm, ht.messages_eq]
      exact (List.append_nil _).symm
    | some m =>
      rw [forward_eq (r := { r with input := rest }) hs hrunning hm]
      have hscene : r.scene.step (.request 0 (.message r.peer m)) =
          first.scene.run
            ((deeds ++ [Deed.line m]).map (Deed.happening first.peer first.outbox)) := by
        rw [ht.peer_eq]
        exact ht.scene_deed (.line m)
      obtain ⟨htallies, hdropped⟩ := ht.happens hrest (x := .request 0 (.message r.peer m))
        (message_ne_subscribe m)
      refine ⟨read ++ [line], deeds ++ [Deed.line m], ht.peer_eq, ht.outbox_eq,
        (scene_move _ _).trans hscene, hlines, ?_, ?_, ht.failure_eq, htallies, ?_⟩
      · rw [List.filterMap_append, List.filterMap_append, List.filterMap_cons_some hm,
          ht.messages_eq]
        rfl
      · rw [List.filterMap_append, ht.others_eq]
        exact List.append_nil _
      · simp [hended, move]

/-- A message that is written is the next one of the outbox. -/
theorem Traces.writeNext (ht : Traces id first others r read deeds) :
    ∃ deeds', Traces id first others r.writeNext read deeds' := by
  rw [Relay.writeNext]
  split
  · split
    · rename_i hdropped
      exact ⟨deeds, { ht with ended := fun _ => .inr hdropped }⟩
    · exact ⟨deeds, ht⟩
  · rename_i hwaiting
    rw [List.isEmpty_iff] at hwaiting
    obtain ⟨b, hb⟩ := ht.tallies
    have hscene : r.scene.step (Deed.taken.happening first.peer first.outbox) =
        (r.write 1).scene := by
      rw [write_one hwaiting, ← ht.outbox_eq]
      rfl
    have htallies := hb.write_one hwaiting
    rw [write_one hwaiting] at hscene ⊢
    refine ⟨deeds ++ [Deed.taken], ht.peer_eq, ht.outbox_eq, hscene ▸ ht.scene_deed .taken,
      ht.lines_eq, ?_, ?_, ht.failure_eq, ⟨_, htallies⟩,
      fun hended => (ht.ended hended).imp_right fun hdropped => ?_⟩
    · rw [List.filterMap_append, ht.messages_eq]
      exact List.append_nil _
    · rw [List.filterMap_append, ht.others_eq]
      exact List.append_nil _
    · have hsame : ∀ b : Outbox, { b with taken := b.taken + 1 }.dropped = b.dropped := fun _ => rfl
      exact (Host.isDropped_update hsame).trans hdropped

theorem Traces.turn (ht : Traces id first others r read deeds)
    (hs : r.task.Serves id r.peer r.outbox r.host) (hrest : r.task.session.events = [])
    (hrunning : r.task.isRunning = true) (t : Turn) :
    ∃ read' deeds', Traces id first others (r.turn t) read' deeds' := by
  rw [Relay.turn.eq_def]
  split
  · exact ⟨read, deeds, ht⟩
  · rename_i hgoes
    rw [Bool.or_eq_true, not_or, Bool.not_eq_true] at hgoes
    cases t with
    | readLine => exact ht.readLine hs hrest hrunning hgoes.1
    | writeNext => exact ⟨read, ht.writeNext⟩

/-- What a relay does to a session is to send messages and to take some out. -/
theorem Traces.allowed (ht : Traces id first others r read deeds) {P : Request → Prop}
    {Q : (Host → Host) → Prop} (hothers : ∀ x ∈ others, x.Allowed P Q)
    (hline : ∀ m, P (.message first.peer m))
    (htaken : Q fun h => h.update first.outbox fun b => { b with taken := b.taken + 1 }) :
    ∀ x ∈ deeds.map (Deed.happening first.peer first.outbox), x.Allowed P Q := by
  intro x hx
  obtain ⟨d, hd, rfl⟩ := List.mem_map.1 hx
  cases d with
  | line m => exact hline m
  | taken => exact htaken
  | other x =>
    have hmem : x ∈ deeds.filterMap Deed.other? := List.mem_filterMap.2 ⟨_, hd, rfl⟩
    exact hothers x (ht.others_eq ▸ hmem)

end Tracing

/-- A relay at its start, for a session that serves its peer. -/
structure Begins (id : SessionId) (first : Relay) : Prop where
  serves : first.task.Serves id first.peer first.outbox first.host
  events_nil : first.task.session.events = []

theorem Traces.serves [RegexLibrary] (ht : Traces id first others r read deeds)
    (hfirst : Begins id first) (hothers : ∀ x ∈ others, x.Leaves first.outbox) :
    r.task.Serves id r.peer r.outbox r.host ∧ r.task.session.events = [] := by
  have hscene : first.scene.Holds (fun req => ∀ v, req ≠ .subscribe v first.outbox)
      (fun _ t h => t.Serves id first.peer first.outbox h) [] :=
    ⟨hfirst.serves, hfirst.events_nil, fun _ hl => by cases hl⟩
  have hleaves : ∀ change : Host → Host,
      (∀ h, (change h).outboxes[first.outbox]? = h.outboxes[first.outbox]?) →
      ∀ h, (change h).isDropped first.outbox = h.isDropped first.outbox := fun change hsame h => by
    rw [Host.isDropped, hsame, Host.isDropped]
  have hlast := (Task.Serves.keeps id first.peer first.outbox).run hscene
    (ht.allowed (fun x hx => (hothers x hx).mono (fun _ h => h) hleaves) message_ne_subscribe
      fun h => Host.isDropped_update fun _ => rfl)
  rw [← ht.scene_eq] at hlast
  rw [ht.peer_eq, ht.outbox_eq]
  exact ⟨hlast.inv, hlast.events_nil⟩

/-- Whatever moves there are, the session is as if only the deeds had happened. -/
theorem Traces.run [RegexLibrary] (ht : Traces id first others r read deeds)
    (hfirst : Begins id first) (hothers : ∀ x ∈ others, x.Leaves first.outbox) {moves : List Move}
    (hmoves : ∀ x ∈ moves.filterMap Move.other?, x.Leaves first.outbox)
    (hopen : (moves.foldl move r).task.isRunning = true) :
    ∃ read' deeds', Traces id first (others ++ moves.filterMap Move.other?) (moves.foldl move r)
      read' deeds' := by
  induction moves generalizing others r read deeds with
  | nil =>
    rw [List.filterMap_nil, List.append_nil]
    exact ⟨read, deeds, ht⟩
  | cons m moves ih =>
    obtain ⟨hs, hrest⟩ := ht.serves hfirst hothers
    cases m with
    | own t =>
      have hrunning := isRunning_of_foldl hs.orderly hrest hopen
      obtain ⟨read', deeds', hnext⟩ := ht.turn hs hrest hrunning t
      exact ih hnext hothers hmoves hopen
    | other x =>
      obtain ⟨hx, hmoves⟩ := List.forall_mem_cons.1 hmoves
      have hnext := ht.other hrest (ht.outbox_eq ▸ hx)
      have hmore : ∀ y ∈ others ++ [x], y.Leaves first.outbox :=
        List.forall_mem_append.2 ⟨hothers, List.forall_mem_singleton.2 hx⟩
      have hlast := ih hnext hmore hmoves hopen
      rw [List.append_assoc] at hlast
      exact hlast

/-! ### The whole course -/

variable {s : Scene} {log : List Event} {peer : PeerId} {capacity : Nat} {d : Document}

theorem isRunning_of_document {t : Task} (ht : t.Orderly) (hdoc : t.session.document.isSome) :
    t.isRunning = true := by
  by_contra hover
  rw [Bool.not_eq_true, Task.isRunning_eq_false_iff] at hover
  have hnone := (ht.consistent.nil_of_phase (hover.imp_right .inr)).1
  simp [hnone] at hdoc

/-- A task with a document does not wait for one. -/
theorem stage_of_document (hs : s.Holds (fun _ => True) (fun _ t _ => t.Orderly) log)
    (hdoc : s.task.session.document.isSome) : s.stage = .ready s.task := by
  obtain ⟨stage, h⟩ := s
  cases stage with
  | loading l =>
    have hnone : l.task.session.document = none := (hs.early l rfl).document_none
    have hsome : l.task.session.document.isSome := hdoc
    simp [hnone] at hsome
  | ready t => rfl

theorem scene_attach [RegexLibrary] (hready : s.stage = .ready s.task) (now : Nat) (peer : PeerId)
    (o : OutboxId) (text : String) :
    (attach s now peer o text).scene = s.step (.request now (.subscribe peer o)) := by
  obtain ⟨stage, h⟩ := s
  cases stage with
  | loading l => cases hready
  | ready t =>
    simp only [attach, scene, Scene.step]
    split <;> rfl

/-- A relay starts with an outbox through which the session serves its peer. -/
theorem begins_attach [RegexLibrary] (hs : s.Holds (fun _ => True) (fun _ t _ => t.Orderly) log)
    (hdoc : s.task.session.document.isSome) (hfree : ∀ v, s.task.outbox? v ≠ some o)
    (hnew : s.host.outboxes[o]? = some { capacity }) (now : Nat) (peer : PeerId)
    (text : String) : Begins s.task.session.id (attach s now peer o text) := by
  have hready := stage_of_document hs hdoc
  have hheld : s.host.isDropped o = false := by rw [Host.isDropped, hnew]; rfl
  have hearly : ∀ l, s.stage = .loading l → l.IsEarly fun req => ∀ v, req ≠ .subscribe v o := by
    intro l hl
    cases hready.symm.trans hl
  have hserves : (s.step (.request now (.subscribe peer o))).Holds
      (fun req => ∀ v, req ≠ .subscribe v o)
      (fun _ t h => t.Serves s.task.session.id peer o h)
      ([] ++ s.carried (.request now (.subscribe peer o))) :=
    (Task.Serves.keeps s.task.session.id peer o).request hs.events_nil hearly now
      (fun _ => .of_subscribe hs.inv ⟨rfl, .inl hdoc⟩ hfree hheld peer)
      (fun hover => absurd (hover.symm.trans (isRunning_of_document hs.inv hdoc))
        Bool.false_ne_true) False.elim
  exact ⟨hserves.inv, hserves.events_nil⟩

theorem traces_attach [RegexLibrary] (hs : s.Holds (fun _ => True) (fun _ t _ => t.Orderly) log)
    (hnew : s.host.outboxes[o]? = some { capacity }) (now : Nat) (peer : PeerId) (text : String)
    (id : SessionId) :
    Traces id (attach s now peer o text) [] (attach s now peer o text) [] [] := by
  have hscene : s.Holds (fun _ => True) (fun _ _ h => h.HasGrown o { capacity }) log :=
    ⟨⟨_, hnew, .refl _⟩, hs.events_nil, hs.early⟩
  have hgrown := ((Task.keeps_hasGrown o { capacity }).step hscene
    (x := .request now (.subscribe peer o)) trivial).inv
  obtain ⟨b, hb, hgrows⟩ := hgrown
  have htallies : Tallies (s.step (.request now (.subscribe peer o))).host o [] b := by
    refine ⟨hb, ?_, ?_⟩
    · rw [hgrows.taken_eq]
      rfl
    · rw [hgrows.taken_eq]
      exact Nat.zero_le _
  exact ⟨rfl, rfl, rfl, rfl, rfl, rfl, rfl, ⟨b, htallies⟩, nofun⟩

/-- What the session has told the peer is all in the outbox, as long as the peer has it. -/
theorem bodies_of_traces [RegexLibrary] (hs : s.Holds (fun _ => True) (fun _ t _ => t.Orderly) log)
    (hdoc : s.task.session.document.isSome) (hfree : ∀ v, s.task.outbox? v ≠ some o)
    (hnew : s.host.outboxes[o]? = some { capacity }) {now : Nat} {text : String}
    (ht : Traces id (attach s now peer o text) others r read deeds)
    (hothers : ∀ x ∈ others, x.Leaves o) (hhas : r.task.outbox? peer = some o) :
    r.host.bodies o = messagesTo peer
      (s.log (.request now (.subscribe peer o) :: deeds.map (Deed.happening peer o))) := by
  obtain ⟨d, hd⟩ := Option.isSome_iff_exists.1 hdoc
  have hunused : s.IsUnused o := ⟨hfree, by rw [Host.bodies, hnew]; rfl⟩
  have hfollows : (Replica.holding d).Follows peer s.task.session :=
    Replica.Shows.follows ⟨d, rfl, rfl, rfl⟩ hd
  have hhanded := Scene.holds_subscribe hs hunused hfollows d.profile .unseeded now
  have hleaves : ∀ change : Host → Host, (∀ h, (change h).outboxes[o]? = h.outboxes[o]?) →
      ∀ h, (change h).bodies o = h.bodies o := fun change hsame h => by
    rw [Host.bodies, hsame, Host.bodies]
  have hlast := (Supplied.keeps d.profile .unseeded (.holding d) peer o).run hhanded
    (ht.allowed (fun x hx => (hothers x hx).mono (fun _ h => h) hleaves) message_ne_subscribe
      fun h => Host.bodies_update fun _ => rfl)
  have hscene := ht.scene_eq
  rw [scene_attach (stage_of_document hs hdoc)] at hscene
  rw [← hscene] at hlast
  exact hlast.inv.complete hhas

/-- A peer that stays keeps its outbox, if all that is put in would fit in at once. -/
theorem outbox_of_traces [RegexLibrary] (hs : s.Holds (fun _ => True) (fun _ t _ => t.Orderly) log)
    (hdoc : s.task.session.document.isSome) {now : Nat} {text : String}
    (ht : Traces id (attach s now peer o text) others r read deeds)
    (hothers : ∀ x ∈ others, x.Stays peer o) (hopen : r.task.isRunning = true)
    (hroom : r.host.HasRoom o) : r.task.outbox? peer = some o := by
  have hready := stage_of_document hs hdoc
  have hstays : ∀ req ∈ s.stage.deferred, req.Stays peer := by
    rw [hready]
    exact List.forall_mem_nil _
  have hretains := Scene.retains_subscribe hs hstays o now
  have hspared (h : Host) (hroom : (h.update o fun b => { b with taken := b.taken + 1 }).HasRoom o) :
      h.HasRoom o := hroom.of_update fun _ => ⟨rfl, rfl, Nat.le_refl _⟩
  have hlast := (Task.Retains.keeps peer o).run hretains
    (ht.allowed hothers (fun _ => trivial) hspared)
  have hscene := ht.scene_eq
  rw [scene_attach hready] at hscene
  rw [← hscene] at hlast
  exact hlast.inv.retained hopen hroom

/-- A relay loses and invents nothing, whatever the order in which lines are read and messages are
    written, and whatever others do meanwhile. For a session that stays open, the lines that were
    read have been handled once each and in order, and those without a message for the session have
    done nothing. What is written is the beginning of what the session has put into the outbox.
    When the relay has ended it is all of that, one message on each line, and if the peer still has
    the outbox then, all lines were read, and what was written is all that the session had to tell,
    up to the answers to the last line. A peer that stays has it for as long as all fits in. -/
theorem relays_all [RegexLibrary] (spec : SessionSpec) (h : Host) (before : List Happening)
    (now : Nat) (peer : PeerId) (o : OutboxId) (capacity : Nat) (text : String) (moves : List Move)
    (hdocument : ((Scene.start spec h).run before).task.session.document.isSome)
    (hfree : ∀ v, ((Scene.start spec h).run before).task.outbox? v ≠ some o)
    (hnew : ((Scene.start spec h).run before).host.outboxes[o]? = some { capacity })
    (hothers : ∀ x ∈ moves.filterMap Move.other?, x.Leaves o)
    (hopen : (moves.foldl move
      (attach ((Scene.start spec h).run before) now peer o text)).task.isRunning = true) :
    let handed := (Scene.start spec h).run before
    let first := attach handed now peer o text
    let last := moves.foldl move first
    ∃ (read : List String) (deeds : List Deed) (b : Outbox),
      (lines text = read ++ last.input ∧
        deeds.filterMap Deed.line? = read.filterMap (messageFor? handed.task.session.id) ∧
        deeds.filterMap Deed.other? = moves.filterMap Move.other? ∧
        last.scene = first.scene.run (deeds.map (Deed.happening peer o))) ∧
      last.failure = none ∧
      (∀ turns : List Turn, moves = turns.map .own → last.finish = first.run turns) ∧
      (last.host.outboxes[o]? = some b ∧ last.output <+: b.sent) ∧
      (last.ended = true →
        last.finish.output = b.sent ∧
          lines (Relay.text last.finish.output) = b.sent.map Message.render) ∧
      (last.ended = true → last.task.outbox? peer = some o →
        last.input = [] ∧
          b.sent.map (·.body) = messagesTo peer
            (handed.log (.request now (.subscribe peer o) ::
              deeds.map (Deed.happening peer o)))) ∧
      ((∀ x ∈ moves.filterMap Move.other?, x.Stays peer o) → last.host.HasRoom o →
        last.task.outbox? peer = some o) := by
  intro handed first last
  have horderly := Scene.holds_run spec h before
  have hfirst : Begins handed.task.session.id first :=
    begins_attach horderly hdocument hfree hnew now peer text
  obtain ⟨read, deeds, htraces⟩ :=
    (traces_attach horderly hnew now peer text handed.task.session.id).run hfirst nofun hothers hopen
  rw [List.nil_append] at htraces
  obtain ⟨b, hb⟩ := htraces.tallies
  have houtbox : last.outbox = o := htraces.outbox_eq
  have hpeer : last.peer = peer := htraces.peer_eq
  have hsent : last.host.outboxes[o]? = some b := houtbox ▸ hb.getElem?
  have hall (hended : last.ended = true) : last.finish.output = b.sent := output_finish hb hended
  refine ⟨read, deeds, b, ⟨htraces.lines_eq, htraces.messages_eq, htraces.others_eq,
    htraces.scene_eq⟩, htraces.failure_eq, ?_, ⟨hsent, ?_⟩, fun hended => ⟨hall hended, ?_⟩,
    fun hended hhas => ⟨?_, ?_⟩, fun hstays hroom =>
      outbox_of_traces horderly hdocument htraces hstays hopen hroom⟩
  · rintro turns rfl
    exact (first.run_eq turns).symm
  · rw [hb.output_eq]
    exact List.take_prefix _ _
  · rw [lines_text, hall hended]
  · refine (htraces.ended hended).resolve_right fun hdropped => ?_
    have hserves := (htraces.serves hfirst hothers).1
    have hheld := hserves.held hopen (hpeer.symm ▸ houtbox.symm ▸ hhas)
    exact Bool.false_ne_true (hheld.symm.trans hdropped)
  · have hbodies := bodies_of_traces horderly hdocument hfree hnew htraces hothers hhas
    rw [← hbodies, Host.bodies, hsent]
    rfl

set_option maxRecDepth 20000 in
/-- A peer sends a line that is no message, one for another session and the wish for the document,
    and someone else changes the document before the wish is read. -/
theorem relays_all_with_wish :
    let v : PeerId := ⟨"v"⟩
    let p : Profile := { id := "sh", lineComments := ["#"] }
    let d : Document := ⟨[⟨⟨"b1"⟩, .code, "x = 1\n"⟩], 0, p, ⟨none, 1⟩⟩
    let patch : Patch := ⟨0, [.replace ⟨"b1"⟩ "x = 2\n"]⟩
    let text := "nothing\n\x7b\"sessionId\":\"s2\",\"type\":\"fullDocument\"\x7d\r\n" ++
      "\x7b\"sessionId\":\"s1\",\"type\":\"fullDocument\"\x7d"
    let handed := (Scene.start ⟨⟨"s1"⟩, "x = 1\n", p, {}, none⟩
      { outboxes := [{ capacity := 4 }] }).run [.made 0 (.ok d)]
    let moves : List Move := [.own .readLine, .own .readLine, .own .writeNext,
      .other (.request 0 (.message ⟨"u"⟩ ⟨⟨"s1"⟩, .patch patch⟩)), .own .readLine, .own .readLine]
    let last := moves.foldl move (attach handed 0 v 0 text)
    (∀ x ∈ moves.filterMap Move.other?, x.Leaves 0) ∧ last.ended = true ∧
      last.task.outbox? v = some 0 ∧ last.input = [] ∧
      last.finish.output.map (·.body) =
        [.fullDocument (some d.snapshot), .patch patch,
          .fullDocument (some ⟨1, "sh", "x = 2\n", [⟨⟨"b1"⟩, .code, "x = 2\n"⟩]⟩)] ∧
      ∃ deeds : List Deed, deeds.filterMap Deed.line? = [⟨⟨"s1"⟩, .fullDocument none⟩] ∧
        last.finish.output.map (·.body) = messagesTo v (handed.log
          (.request 0 (.subscribe v 0) :: deeds.map (Deed.happening v 0))) := by
  intro v p d patch text handed moves last
  have hlast : (last.ended, last.task.outbox? v, last.task.isRunning,
      last.finish.output.map (·.body)) = (true, some 0, true,
        [.fullDocument (some d.snapshot), .patch patch,
          .fullDocument (some ⟨1, "sh", "x = 2\n", [⟨⟨"b1"⟩, .code, "x = 2\n"⟩]⟩)]) := by
    subst last moves handed text patch d p v
    cbv
  have hread : (lines text).filterMap (messageFor? ⟨"s1"⟩) = [⟨⟨"s1"⟩, .fullDocument none⟩] := by
    subst text
    cbv
  have hhanded : (handed.task.session.document.isSome, handed.task.outboxes,
      handed.host.outboxes[0]?, handed.task.session.id) =
        (true, [], some { capacity := 4 }, ⟨"s1"⟩) := by
    subst handed d p
    cbv
  simp only [Prod.mk.injEq] at hlast hhanded
  obtain ⟨hended, houtbox, hopen, houtput⟩ := hlast
  obtain ⟨hdocument, houtboxes, hnew, hid⟩ := hhanded
  have hfree : ∀ peer, handed.task.outbox? peer ≠ some 0 := fun peer => by
    simp [Task.outbox?, houtboxes]
  have hothers : ∀ x ∈ moves.filterMap Move.other?, x.Leaves 0 :=
    List.forall_mem_singleton.2 (message_ne_subscribe _)
  obtain ⟨read, deeds, b, ⟨hlines, hmessages, -⟩, -, -, -, hall, hcomplete, -⟩ :=
    relays_all _ _ [.made 0 (.ok d)] 0 v 0 4 text moves hdocument hfree hnew hothers hopen
  obtain ⟨hinput, hbodies⟩ := hcomplete hended houtbox
  rw [hinput, List.append_nil] at hlines
  refine ⟨hothers, hended, houtbox, hinput, houtput, deeds, ?_, ?_⟩
  · have hown : messageFor? handed.task.session.id = messageFor? ⟨"s1"⟩ := congrArg messageFor? hid
    rw [hmessages, ← hlines]
    exact hown.symm ▸ hread
  · rw [(hall hended).1]
    exact hbodies

end Relay

end LiterateSync
