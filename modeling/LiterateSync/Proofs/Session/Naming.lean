import LiterateSync.Proofs.Document.DiffApply
import LiterateSync.Proofs.Session.Consistency

namespace LiterateSync.Session

/-- Whether a document that a session is handed with a command is one whose names are in order.
    Documents that were opened, and changed by patches since, are. -/
def Command.Admissible : Command → Prop
  | .finishOpen (.ok d) => d.WellNamed
  | _ => True

/-- Whether the names are in order in the document and in all documents of the history. -/
structure WellNamed (s : Session) : Prop where
  document : ∀ d ∈ s.document, d.WellNamed
  history : ∀ a ∈ s.history, a.before.WellNamed

variable {s t : Session}

/-- The patch to other blocks of the current document is applied as it is, and leads to their text. -/
theorem reconcile_diff {d candidate : Document} (hd : d.WellNamed)
    (hroom : d.ids.count + candidate.blocks.length < 2 ^ 64) (s : Session) (origin : PeerId) :
    ∃ next, s.reconcile d origin (d.diff candidate) = .ok (⟨d.diff candidate, []⟩, next) ∧
      next.text = candidate.text := by
  obtain ⟨next, happly, houtline⟩ := Document.exists_apply_diff_outline hd hroom
  have hcurrent : ¬ (d.diff candidate).base < d.revision := Nat.lt_irrefl d.revision
  refine ⟨next, ?_, Document.text_eq_of_outline_eq houtline⟩
  simp only [reconcile, carryToCurrent, if_neg hcurrent, happly]

theorem documentAt?_spec (h : s.WellNamed) {n : Nat} {d : Document}
    (hd : s.documentAt? n = some d) : d.revision = n ∧ d.WellNamed := by
  rw [documentAt?] at hd
  split at hd
  · cases hd
  · rename_i current hdoc
    split at hd
    · rename_i hrevision
      cases hd
      exact ⟨hrevision, h.document d hdoc⟩
    · obtain ⟨a, ha, rfl⟩ := List.mem_map.1 (List.mem_of_find?_eq_some hd)
      exact ⟨by simpa using List.find?_some hd, h.history a ha⟩

theorem wellNamed_new (id : SessionId) (config : SyncConfig) : (new id config).WellNamed :=
  ⟨by simp [new], by simp [new]⟩

namespace WellNamed

theorem congr (h : s.WellNamed) (hdocument : t.document = s.document)
    (hhistory : t.history = s.history) : t.WellNamed :=
  ⟨hdocument ▸ h.document, hhistory ▸ h.history⟩

theorem emitAll (h : s.WellNamed) (events : List Event) : (s.emitAll events).WellNamed :=
  h.congr rfl rfl

/-- A patch that is added to the history leads from names in order to names in order. -/
theorem record (h : s.WellNamed) {current next : Document} {n : Nat} {origin : PeerId}
    {patch : Patch} (hdoc : s.document = some current) (happly : current.apply patch = .ok next)
    (hnext : t.document = some next)
    (hhistory : t.history = keepLast n (s.history ++ [⟨origin, current, patch⟩])) :
    t.WellNamed := by
  have hcurrent := h.document current hdoc
  refine ⟨fun d hd => ?_, fun a ha => ?_⟩
  · rw [hnext, Option.mem_some] at hd
    exact hd ▸ (Document.wellNamed_of_apply hcurrent happly).1
  · rw [hhistory, keepLast] at ha
    rcases List.mem_append.1 (List.mem_of_mem_drop ha) with ha | ha
    · exact h.history a ha
    · rw [List.mem_singleton] at ha
      exact ha ▸ hcurrent

theorem process (h : s.WellNamed) (sub : Submission) : (s.process sub).WellNamed := by
  cases hdoc : s.document with
  | none =>
    rw [process_of_document_none hdoc]
    exact h
  | some current =>
    cases hreconcile : s.reconcile current sub.origin sub.patch with
    | error e =>
      rw [process_of_error hdoc hreconcile, reject_eq]
      exact h.congr rfl rfl
    | ok result =>
      obtain ⟨carried, next⟩ := result
      rw [process_of_ok hdoc hreconcile]
      exact h.record hdoc (apply_of_reconcile hreconcile) rfl rfl

theorem foldl_process (h : s.WellNamed) (subs : List Submission) :
    (subs.foldl Session.process s).WellNamed := by
  induction subs generalizing s with
  | nil => exact h
  | cons sub subs ih => exact ih (h.process sub)

theorem drain (h : s.WellNamed) : s.drain.WellNamed := by
  have hsettled : (s.queue.foldl Session.process { s with queue := [] }).WellNamed :=
    (h.congr rfl rfl : Session.WellNamed { s with queue := [] }).foldl_process s.queue
  rw [Session.drain]
  split
  · exact h
  · dsimp only
    split
    · exact hsettled.congr rfl rfl
    · exact hsettled

theorem sendDocument (h : s.WellNamed) (peer : PeerId) : (s.sendDocument peer).WellNamed := by
  rw [sendDocument_eq]
  exact h.emitAll _

theorem finishOpen (h : s.WellNamed) {result : Except SegmentError Document}
    (hresult : ∀ d, result = .ok d → d.WellNamed) : (s.finishOpen result).1.WellNamed := by
  obtain ⟨d, hd, -, heq⟩ | ⟨-, heq⟩ | ⟨-, heq⟩ := finishOpen_cases s result
  · rw [heq, sendAll_eq]
    exact ⟨fun d' hd' => Option.mem_some.1 hd' ▸ hresult d hd, h.history⟩
  · rw [heq]
    exact h.congr rfl rfl
  · rw [heq]
    exact h

theorem enqueue (h : s.WellNamed) {sub : Submission} (heq : s.enqueue sub = .ok t) :
    t.WellNamed := by
  obtain ⟨d, -, ⟨-, rfl⟩ | ⟨-, rfl⟩⟩ := enqueue_eq_ok heq
  · exact h.congr rfl rfl
  · have hqueued : { s with queue := s.queue ++ [sub] }.WellNamed := h.congr rfl rfl
    exact hqueued.drain

theorem ack (h : s.WellNamed) {peer : PeerId} {revision : Nat}
    (heq : s.ack peer revision = .ok t) : t.WellNamed := by
  obtain rfl | ⟨p, -, -, -, rfl⟩ := ack_eq_ok heq
  · exact h
  · have hcleared : { s with pending := none }.WellNamed := h.congr rfl rfl
    exact hcleared.drain

theorem resync (h : s.WellNamed) {peer : PeerId} (heq : s.resync peer = .ok t) :
    t.WellNamed := by
  rw [resync_eq_ok heq]
  exact h.sendDocument peer

theorem handle (h : s.WellNamed) {sender : PeerId} {m : Message}
    (heq : s.handle sender m = .ok t) : t.WellNamed := by
  rw [Session.handle] at heq
  split at heq
  · cases heq
    exact h
  · split at heq
    · exact h.enqueue heq
    · exact h.ack heq
    · exact h.resync heq
    · cases heq
      exact h

theorem localEdit (h : s.WellNamed) {now revision : Nat} {patch : Patch}
    (heq : s.localEdit now patch = .ok (t, revision)) : t.WellNamed := by
  obtain ⟨current, next, hopen, -, happly, -, rfl⟩ := localEdit_eq_ok heq
  have hdoc := (openDocument_eq_ok_iff.1 hopen).1
  rw [commit_eq hdoc]
  exact h.record hdoc happly rfl rfl

theorem tick (h : s.WellNamed) (now : Nat) : (s.tick now).1.WellNamed := by
  obtain heq | ⟨p, -, heq⟩ := tick_cases s now
  · rw [heq]
    exact h
  · rw [heq, send_eq]
    have hcleared : { s with pending := none }.WellNamed := h.congr rfl rfl
    exact (hcleared.emitAll _).drain

theorem fileChanged [RegexLibrary] (h : s.WellNamed) {text : String}
    (heq : s.fileChanged text = .ok t) : t.WellNamed := by
  obtain ⟨current, -, ⟨rfl, -⟩ | ⟨candidate, -, ⟨rfl, -⟩ | hsubmit⟩⟩ := fileChanged_eq_ok heq
  · exact h
  · exact h
  · exact h.enqueue hsubmit

theorem viewEdit [RegexLibrary] (h : s.WellNamed) {origin : PeerId} {base : Nat}
    {view : List ViewBlock} (heq : s.viewEdit origin base view = .ok t) : t.WellNamed := by
  obtain ⟨current, -, ⟨-, rfl⟩ | ⟨shown, candidate, -, -, (rfl | rfl) | hsubmit⟩⟩ :=
    viewEdit_eq_ok heq
  · rw [reject_eq]
    exact h.congr rfl rfl
  · exact h
  · exact h.sendDocument origin
  · exact h.enqueue hsubmit

theorem settle (h : s.WellNamed) {result : Except SessionError Session}
    (hok : ∀ {t}, result = .ok t → t.WellNamed) : (s.settle result).1.WellNamed := by
  cases result with
  | error e => exact h
  | ok t => exact hok rfl

theorem step [RegexLibrary] (h : s.WellNamed) {c : Command} (hc : c.Admissible) :
    (s.step c).1.WellNamed := by
  cases c with
  | beginOpen =>
    refine h.settle fun heq => ?_
    obtain ⟨-, rfl⟩ := beginOpen_eq_ok heq
    exact h.congr rfl rfl
  | finishOpen result =>
    refine h.finishOpen fun d hd => ?_
    subst hd
    exact hc
  | openText p text =>
    obtain heq | ⟨t, hbegin, heq⟩ := openText_cases s p text
    · exact h.congr (congrArg Session.document heq) (congrArg Session.history heq)
    · obtain ⟨-, rfl⟩ := beginOpen_eq_ok hbegin
      have hloading : { s with phase := .loading }.WellNamed := h.congr rfl rfl
      have hdocument : ∀ d, Document.ofText p text = .ok d → d.WellNamed :=
        fun d => Document.wellNamed_of_openWith
      have hopened := hloading.finishOpen hdocument
      exact hopened.congr (congrArg Session.document heq) (congrArg Session.history heq)
  | close => exact ⟨by simp [Session.step, close], by simp [Session.step, close]⟩
  | subscribe peer =>
    rw [Session.step, subscribe]
    split
    · exact h
    · have hadded : { s with subscribers := insertPeer peer s.subscribers }.WellNamed :=
        h.congr rfl rfl
      exact hadded.sendDocument peer
  | unsubscribe peer => exact h.congr rfl rfl
  | resync peer => exact h.settle h.resync
  | message sender m => exact h.settle h.handle
  | submit origin patch => exact h.settle h.enqueue
  | localEdit now patch =>
    rw [Session.step]
    split
    · exact h.localEdit ‹_›
    · exact h
  | ack peer revision => exact h.settle h.ack
  | tick now => exact h.tick now
  | fileChanged text => exact h.settle h.fileChanged
  | viewEdit origin base view => exact h.settle h.viewEdit

theorem run [RegexLibrary] (h : s.WellNamed) {commands : List Command}
    (hc : ∀ c ∈ commands, c.Admissible) : (s.run commands).WellNamed := by
  induction commands generalizing s with
  | nil => exact h
  | cons c commands ih =>
    exact ih (h.step (hc c (by simp))) fun d hd => hc d (List.mem_cons_of_mem c hd)

end WellNamed

end LiterateSync.Session
