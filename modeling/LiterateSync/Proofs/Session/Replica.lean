import LiterateSync.Proofs.Session.Telling
import LiterateSync.Text.Pattern.Library

namespace LiterateSync

namespace Session

/-- What holds of a peer's copy between all steps: it is never lost, and it is the document as
    long as the peer subscribes. -/
structure Followed (p : Profile) (g : IdSource) (v : PeerId) (s : Session) : Prop where
  nodup : s.subscribers.Nodup
  ne_lost : Replica.after p g (messagesTo v s.events) ≠ .lost
  shows : v ∈ s.subscribers → ∀ d ∈ s.document,
    (Replica.after p g (messagesTo v s.events)).Shows d

namespace Followed

variable {p : Profile} {g : IdSource} {v : PeerId} {s t : Session} {more : List Event}

theorem extend (h : Followed p g v s) (htells : Tells p g v s t more)
    (hfree : AckFree (messagesTo v more)) : Followed p g v t := by
  have hmessages : Replica.after p g (messagesTo v t.events) =
      (messagesTo v more).foldl (Replica.receive p g)
        (Replica.after p g (messagesTo v s.events)) := by
    rw [htells.events_eq, messagesTo_append, Replica.after_append]
  obtain ⟨hkept, hshows⟩ := htells.follows _ ⟨h.ne_lost, h.shows⟩ hfree
  rw [← hmessages] at hkept hshows
  exact ⟨htells.nodup, hkept, hshows⟩

/-- A peer that observes is never sent an acknowledgement. -/
theorem preserves (p : Profile) (g : IdSource) (v : PeerId) :
    Preserves (Observes v) (Followed p g v) := by
  refine preserves_of_tells p g v Followed.nodup (fun sub h hobserves => ?_)
    fun h ⟨_, htells, hfree⟩ => h.extend htells hfree
  obtain ⟨_, htells, hfree⟩ := tells_process p g v h.nodup sub
  exact h.extend htells (hfree.2 hobserves)

end Followed

end Session

namespace Replica

/-- A peer that commits nothing itself while it subscribes has the document of the session at
    all times. It is sent the whole document first, and can apply each patch that it is sent. -/
theorem shows_run [RegexLibrary] (id : SessionId) (config : SyncConfig) (v : PeerId) (p : Profile)
    (g : IdSource) {commands : List Session.Command}
    (hobserves : Session.Always (Session.Observes v) (Session.new id config) commands) :
    let s := (Session.new id config).run commands
    (∀ body bodies, messagesTo v s.events = body :: bodies →
      ∃ snapshot, body = .fullDocument (some snapshot)) ∧
    (∀ front patch back, messagesTo v s.events = front ++ .patch patch :: back →
      ∃ copy next, after p g front = .holding copy ∧ copy.apply patch = .ok next) ∧
    (v ∈ s.subscribers → ∀ d ∈ s.document, (after p g (messagesTo v s.events)).Shows d) := by
  intro s
  have hstart : Session.Followed p g v (Session.new id config) :=
    ⟨List.nodup_nil, by simp [Session.new, messagesTo, after], by simp [Session.new]⟩
  have hfollowed : Session.Followed p g v s := (Session.Followed.preserves p g v).run
    (Session.consistent_new id config) hstart hobserves
  refine ⟨fun body bodies hmessages => ?_, fun front patch back hmessages => ?_,
    hfollowed.shows⟩
  · have hkept := hfollowed.ne_lost
    rw [hmessages] at hkept
    exact exists_fullDocument_of_ne_lost hkept
  · have hkept := hfollowed.ne_lost
    rw [hmessages] at hkept
    exact exists_apply_of_ne_lost hkept

/-- The peer is there before the document. Two others edit, one of them from an old revision while
    an acknowledgement is outstanding that never comes, and one patch is refused. The peer leaves,
    changes the document from outside, and comes back. -/
theorem shows_run_of_returning_peer :
    let v : PeerId := ⟨"v"⟩
    let p : Profile := { id := "sh", lineComments := ["#"] }
    let d : Document :=
      ⟨[⟨⟨"b1"⟩, .doc, "# a\n"⟩, ⟨⟨"b2"⟩, .code, "x = 1\n"⟩], 0, p, ⟨none, 2⟩⟩
    let commands : List Session.Command := [
      .subscribe v, .beginOpen, .finishOpen (.ok d), .subscribe ⟨"u"⟩,
      .submit ⟨"u"⟩ ⟨0, [.replace ⟨"b1"⟩ "# u\n"]⟩,
      .localEdit 0 ⟨1, [.insert ⟨⟨"b3"⟩, .code, "y = 1\n"⟩ (some ⟨"b2"⟩)]⟩,
      .submit ⟨"w"⟩ ⟨0, [.delete ⟨"b1"⟩, .insert ⟨⟨"b3"⟩, .code, "z = 1\n"⟩ none]⟩,
      .tick 20000, .submit ⟨"w"⟩ ⟨3, [.delete ⟨"b1"⟩]⟩,
      .unsubscribe v, .submit v ⟨3, [.move ⟨"b2"⟩ none]⟩, .subscribe v,
      .submit ⟨"u"⟩ ⟨3, [.replace ⟨"b2"⟩ "x = 2\n"]⟩, .resync v]
    let s := (Session.new ⟨"s1"⟩ {}).run commands
    Session.Always (Session.Observes v) (Session.new ⟨"s1"⟩ {}) commands ∧ v ∈ s.subscribers ∧
      ∃ d' ∈ s.document, d'.revision = 5 ∧
        (after p .unseeded (messagesTo v s.events)).Shows d' := by
  intro v p d commands s
  have hobserves : Session.Always (Session.Observes v) (Session.new ⟨"s1"⟩ {}) commands := by
    decide +kernel
  have hsubscribed : v ∈ s.subscribers := by decide +kernel
  have hrevision : s.revision? = some 5 := by decide +kernel
  obtain ⟨d', hd', hfive⟩ := Option.map_eq_some_iff.1 hrevision
  obtain ⟨-, -, hshows⟩ := shows_run ⟨"s1"⟩ {} v p .unseeded hobserves
  exact ⟨hobserves, hsubscribed, d', hd', hfive, hshows hsubscribed d' hd'⟩

end Replica

end LiterateSync
