import Mathlib.Algebra.Group.Nat.Defs
import LiterateSync.Proofs.Session.Outgoing

namespace LiterateSync

/-- A session with the file that backs its document. -/
structure Backing where
  session : Session
  /-- What the file holds. -/
  file : String

namespace Backing

/-- What a file holds after the writes among some events. -/
def written (file : String) : List Event → String
  | [] => file
  | .writeFile _ text :: events => written text events
  | .send .. :: events => written file events

/-- What can happen to a session and its file. -/
inductive Move where
  | submit (origin : PeerId) (patch : Patch)
  | viewEdit (origin : PeerId) (base : Nat) (view : List ViewBlock)
  | localEdit (now : Nat) (patch : Patch)
  | ack (peer : PeerId) (revision : Nat)
  | tick (now : Nat)
  /-- Another program saves a text in the file. -/
  | save (text : String)

/-- The session after a command, with all that was to be done carried out. -/
def ask [RegexLibrary] (b : Backing) (c : Session.Command) : Backing :=
  let (events, s) := (b.session.step c).1.takeEvents
  ⟨s, written b.file events⟩

/-- A save is noticed at once. -/
def step [RegexLibrary] (b : Backing) : Move → Backing
  | .submit origin patch => b.ask (.submit origin patch)
  | .viewEdit origin base view => b.ask (.viewEdit origin base view)
  | .localEdit now patch => b.ask (.localEdit now patch)
  | .ack peer revision => b.ask (.ack peer revision)
  | .tick now => b.ask (.tick now)
  | .save text => { b with file := text }.ask (.fileChanged text)

def run [RegexLibrary] (b : Backing) (moves : List Move) : Backing :=
  moves.foldl step b

/-- A session that was opened with a text from its file, for some peers. -/
def opened [RegexLibrary] (id : SessionId) (config : SyncConfig) (peers : List PeerId) (p : Profile)
    (text : String) : Backing :=
  let s := (Session.new id config).run (peers.map .subscribe)
  Backing.ask ⟨s, text⟩ (.openText p text)

/-- Whether a move can happen. A text that is saved can be cut into segments, is not one that the
    session has written not long ago, and leaves enough numbers for the names of its blocks. -/
def Admits [RegexLibrary] (b : Backing) : Move → Prop
  | .save text => text ∉ b.session.recentWrites ∧ ∀ current ∈ b.session.document,
      ∃ candidate, Document.openWith current.profile (.seeded "fs") text = .ok candidate ∧
        current.ids.count + candidate.blocks.length < 2 ^ 64
  | _ => True

def AdmitsAll [RegexLibrary] : Backing → List Move → Prop
  | _, [] => True
  | b, m :: moves => b.Admits m ∧ AdmitsAll (b.step m) moves

instance {ε α : Type} {P : α → Prop} [DecidablePred P] :
    (x : Except ε α) → Decidable (∃ a, x = .ok a ∧ P a)
  | .ok a => decidable_of_iff (P a) (by simp)
  | .error _ => .isFalse (by simp)

instance [RegexLibrary] (b : Backing) : (m : Move) → Decidable (b.Admits m)
  | .save _ => inferInstanceAs (Decidable (_ ∧ _))
  | .submit .. | .viewEdit .. | .localEdit .. | .ack .. | .tick _ => .isTrue trivial

instance decidableAdmitsAll [RegexLibrary] :
    (b : Backing) → (moves : List Move) → Decidable (b.AdmitsAll moves)
  | _, [] => inferInstanceAs (Decidable True)
  | b, m :: moves =>
    have := decidableAdmitsAll (b.step m) moves
    inferInstanceAs (Decidable (_ ∧ _))

/-- The revision of the document, or zero when there is none. -/
def revision (b : Backing) : Nat :=
  b.session.revision?.getD 0

/-- Whether the text of the current revision is to be written. -/
def writesCurrent (s : Session) : Bool :=
  s.events.any fun
    | .writeFile revision _ => s.revision? = some revision
    | .send .. => false

/-- How a file stands to the document of the session. -/
inductive Standing where
  /-- The file holds the text of the document, or the patch between them waits. -/
  | level
  /-- The file lacks a patch of its own that was carried over another one. -/
  | behind
  /-- Nothing is known. -/
  | unknown
  deriving DecidableEq, Repr

/-- How the file stands after the session has carried out a command. A step that makes more than
    one revision and does not write the last one has carried a patch of the file over another. -/
def standsAfter [RegexLibrary] (b : Backing) (standing : Standing) (c : Session.Command) :
    Standing :=
  if writesCurrent (b.session.step c).1 then .level
  else if standing = .level ∧ b.revision + 1 < (b.ask c).revision then .behind
  else standing

/-- How the file stands after a move. What is submitted in the name of the file is not written to
    it. A save meets the document when nothing is outstanding, and overtakes an earlier one that
    still waits. -/
def stands [RegexLibrary] (b : Backing) (standing : Standing) : Move → Standing
  | .submit origin patch =>
    b.standsAfter (if origin = .fileSystem then .unknown else standing) (.submit origin patch)
  | .viewEdit origin base view =>
    b.standsAfter (if origin = .fileSystem then .unknown else standing)
      (.viewEdit origin base view)
  | .localEdit now patch => b.standsAfter standing (.localEdit now patch)
  | .ack peer revision => b.standsAfter standing (.ack peer revision)
  | .tick now => b.standsAfter standing (.tick now)
  | .save _ =>
    if b.session.pending = none ∨
        standing = .level ∧ ∀ sub ∈ b.session.queue, sub.origin ≠ .fileSystem then .level
    else .unknown

/-- How the file stands after some moves. -/
def standsAll [RegexLibrary] : Backing → Standing → List Move → Standing
  | _, standing, [] => standing
  | b, standing, m :: moves => standsAll (b.step m) (b.stands standing m) moves

/-- Whether some submissions are all those of peers. -/
def OfPeers (subs : List Submission) : Prop :=
  ∀ sub ∈ subs, sub.origin ≠ .fileSystem

theorem ofPeers_nil : OfPeers [] :=
  nofun

/-- The last change came from the file, as far as the session remembers changes. -/
def FromFile (s : Session) : Prop :=
  s.config.historyDepth = 0 ∨ ∃ a, s.history.getLast? = some a ∧ a.origin = .fileSystem

/-- The last change came from the file, which holds the text from before it. -/
def Lacks (history : List Applied) (file : String) : Prop :=
  ∃ a, history.getLast? = some a ∧ a.origin = .fileSystem ∧ file = a.before.text

theorem written_append (file : String) (xs ys : List Event) :
    written file (xs ++ ys) = written (written file xs) ys := by
  induction xs generalizing file with
  | nil => rfl
  | cons e xs ih =>
    cases e with
    | send peer message => exact ih file
    | writeFile revision text => exact ih text

/-- Whether some events are about peers only. -/
def Quiet (events : List Event) : Prop :=
  ∀ revision text, .writeFile revision text ∉ events

theorem written_of_quiet {file : String} {events : List Event} (h : Quiet events) :
    written file events = file := by
  induction events with
  | nil => rfl
  | cons e events ih =>
    cases e with
    | send peer message => exact ih fun revision text hmem => h revision text (by simp [hmem])
    | writeFile revision text => exact absurd List.mem_cons_self (h revision text)

theorem Quiet.append {xs ys : List Event} (hx : Quiet xs) (hy : Quiet ys) : Quiet (xs ++ ys) :=
  fun revision text hmem => (List.mem_append.1 hmem).elim (hx revision text) (hy revision text)

theorem quiet_nil : Quiet [] :=
  fun _ _ hmem => nomatch hmem

theorem Quiet.flatMap {α : Type} {items : List α} {f : α → List Event}
    (h : ∀ a ∈ items, Quiet (f a)) : Quiet (items.flatMap f) := by
  intro revision text hmem
  obtain ⟨a, ha, hin⟩ := List.mem_flatMap.1 hmem
  exact h a ha revision text hin

section Session

variable (s : Session)

theorem quiet_addressed (peer : PeerId) (body : MessageBody) : Quiet (s.addressed peer body) := by
  rw [Session.addressed]
  split
  · intro revision text hmem
    cases List.mem_singleton.1 hmem
  · exact quiet_nil

theorem quiet_snapshotFor (peer : PeerId) : Quiet (s.snapshotFor peer) := by
  rw [Session.snapshotFor]
  split
  · exact quiet_addressed s peer _
  · exact quiet_nil

theorem quiet_rejectEvents (origin : PeerId) (reason : SupersedeReason) :
    Quiet (s.rejectEvents origin reason) := by
  rw [Session.rejectEvents]
  split
  · exact quiet_snapshotFor s origin
  · exact quiet_addressed s origin _

/-- What is put out for a commit is the new text, unless it came from the file, and messages. -/
theorem commitEvents_parts (origin : PeerId) (patch : Patch) (next : Document) :
    ∃ before, Quiet before ∧ s.commitEvents origin patch next = before ++
      if origin = .fileSystem then [] else [.writeFile next.revision next.text] :=
  ⟨_, (quiet_addressed s origin _).append (.flatMap fun peer _ => quiet_addressed s peer _), rfl⟩

theorem acceptEvents_parts (sub : Submission) (carried : Session.Carried) (next : Document) :
    ∃ before after, Quiet before ∧ Quiet after ∧ s.acceptEvents sub carried next = before ++
      (if sub.origin = .fileSystem then [] else [.writeFile next.revision next.text]) ++
        after := by
  obtain ⟨before, hbefore, hcommit⟩ := commitEvents_parts s sub.origin carried.patch next
  have hresync : Quiet (if sub.resync then
      s.addressed sub.origin (.fullDocument (some next.snapshot)) else []) := by
    split
    · exact quiet_addressed s sub.origin _
    · exact quiet_nil
  have hlosers : Quiet (carried.losers.flatMap fun peer =>
      s.addressed peer (.superseded next.revision .conflict)) :=
    .flatMap fun peer _ => quiet_addressed s peer _
  refine ⟨before, _, hbefore, hlosers.append hresync, ?_⟩
  rw [Session.acceptEvents, hcommit, List.append_assoc _ (List.flatMap _ _)]

/-- A commit for the file is not written to it. -/
theorem quiet_acceptEvents {sub : Submission} (hfile : sub.origin = .fileSystem)
    (carried : Session.Carried) (next : Document) : Quiet (s.acceptEvents sub carried next) := by
  obtain ⟨before, after, hbefore, hafter, hevents⟩ := acceptEvents_parts s sub carried next
  rw [if_pos hfile, List.append_nil] at hevents
  rw [hevents]
  exact hbefore.append hafter

end Session

end Backing

end LiterateSync
