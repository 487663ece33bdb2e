import LiterateSync.Proofs.Workspace.Course

namespace LiterateSync

namespace Host

variable {h next : Host} {id : OutboxId}

@[simp] theorem files_drop (h : Host) (id : OutboxId) : (h.drop id).files = h.files := rfl

@[simp] theorem files_dropAll (h : Host) (ids : List OutboxId) :
    (h.dropAll ids).files = h.files := by
  rw [dropAll]
  induction ids generalizing h with
  | nil => rfl
  | cons id ids ih => rw [List.foldl_cons, ih, files_drop]

theorem files_of_offer {m : Message} (hoffer : h.offer? id m = some next) :
    next.files = h.files := by
  rw [offer?] at hoffer
  split at hoffer
  · split at hoffer
    · cases hoffer
      rfl
    · cases hoffer
  · cases hoffer

end Host

/-- The files after several texts in turn were to be written at a path. -/
def Files.rewritten (files : Files) (path : String) (texts : List String) : Files :=
  texts.foldl (fun files text => (files.replace path text).1) files

namespace Task

variable {t : Task} {h : Host} {peer : PeerId}

@[simp] theorem files_dropOutbox (t : Task) (h : Host) (peer : PeerId) :
    (t.dropOutbox h peer).2.files = h.files := by
  rw [dropOutbox]
  cases t.outbox? peer <;> rfl

theorem files_deliver (t : Task) (h : Host) (peer : PeerId) (m : Message) :
    (t.deliver h peer m).2.files = h.files := by
  rw [deliver]
  split
  · rfl
  · split
    · exact Host.files_of_offer ‹_›
    · rfl

theorem backing_deliver (t : Task) (h : Host) (peer : PeerId) (m : Message) :
    (t.deliver h peer m).1.backing = t.backing := by
  rw [deliver]
  split
  · rfl
  · split <;> rfl

theorem carryOut_writeFile (t : Task) (h : Host) (revision : Nat) (text : String) :
    (t.carryOut h (.writeFile revision text)).1 = (if (t.writeThrough h text).2 then
        { t with session := acknowledged t.session revision } else t) ∧
      (t.carryOut h (.writeFile revision text)).2 = (t.writeThrough h text).1 := by
  rw [carryOut]
  split
  · rename_i h' heq
    simp [heq]
  · rename_i h' heq
    simp [heq]

@[simp] theorem backing_carryOut (t : Task) (h : Host) (e : Event) :
    (t.carryOut h e).1.backing = t.backing := by
  cases e with
  | send peer m => exact backing_deliver t h peer m
  | writeFile revision text =>
    rw [(t.carryOut_writeFile h revision text).1]
    split <;> rfl

theorem files_writeThrough (t : Task) (h : Host) (text : String) :
    (t.writeThrough h text).1.files =
      t.backing.elim h.files fun path => (h.files.replace path text).1 := by
  rw [writeThrough]
  cases t.backing <;> rfl

/-- What a task with a backing file, or without one, may have done to the files there were at
    first. -/
def Rewrites (backing : Option String) (files : Files) (_log : List Event) (t : Task) (h : Host) :
    Prop :=
  t.backing = backing ∧
    ∃ texts, h.files = backing.elim files fun path => files.rewritten path texts

/-- The backing file stays the same, and all that a task does to the files is to write texts
    there. -/
theorem keeps_rewrites [RegexLibrary] (backing : Option String) (files : Files) :
    Keeps (fun _ => True) (fun _ => False) (Rewrites backing files) where
  obey _ _ hinv := hinv
  subscribe _ _ _ hinv := ⟨hinv.1, by simpa [subscribe] using hinv.2⟩
  dismiss _ _ hinv := ⟨hinv.1, by simpa [dismiss] using hinv.2⟩
  dropOutboxes _ hinv := ⟨hinv.1, by simpa [dropOutboxes] using hinv.2⟩
  carryOut := by
    rintro log t h e rest - ⟨hbacking, texts, hfiles⟩
    refine ⟨(backing_carryOut _ h e).trans hbacking, ?_⟩
    cases e with
    | send peer m =>
      rw [carryOut, files_deliver]
      exact ⟨texts, hfiles⟩
    | writeFile revision text =>
      have hsame : (t.withEvents rest).backing = backing := hbacking
      rw [((t.withEvents rest).carryOut_writeFile h revision text).2, files_writeThrough, hsame]
      cases backing with
      | none => exact ⟨texts, hfiles⟩
      | some path => exact ⟨texts ++ [text], by simp [Files.rewritten, hfiles]⟩
  drop _ _ hinv := hinv
  meanwhile _ hchange _ := hchange.elim

theorem rewrites_self (t : Task) (h : Host) : Rewrites t.backing h.files [] t h :=
  ⟨rfl, [], by cases t.backing <;> rfl⟩

theorem rewrites_handle [RegexLibrary] (hrest : t.session.events = []) (now : Nat) (h : Host)
    (r : Request) :
    ∃ log, Rewrites t.backing h.files log (t.handle now h r).1 (t.handle now h r).2.1 :=
  have hk := keeps_rewrites t.backing h.files
  ⟨_, hk.handle hrest now (hk.accept (rewrites_self t h) now trivial)⟩

theorem backing_tick [RegexLibrary] (hrest : t.session.events = []) (h : Host) (now : Nat) :
    (t.tick h now).1.backing = t.backing := by
  rw [tick_eq hrest]
  exact ((keeps_rewrites t.backing h.files).flush (rewrites_self (t.obey (.tick now)) h)).1

end Task

end LiterateSync
