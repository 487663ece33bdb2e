import LiterateSync.Proofs.Session.Telling

namespace LiterateSync

namespace Session

/-- What holds between all steps of what a peer is told: `told` are the messages that have left the
    session, and those among its events come behind them. -/
structure Hears (p : Profile) (g : IdSource) (r : Replica) (v : PeerId) (told : List MessageBody)
    (s : Session) : Prop where
  nodup : s.subscribers.Nodup
  takes : Replica.Takes p g r (told ++ messagesTo v s.events)
  follows : AckFree (told ++ messagesTo v s.events) →
    ((told ++ messagesTo v s.events).foldl (Replica.receive p g) r).Follows v s

namespace Hears

variable {p : Profile} {g : IdSource} {r : Replica} {v : PeerId} {told : List MessageBody}
  {s t : Session} {more : List Event}

/-- What is told after an acknowledgement does not count, so that a step may begin with one. -/
theorem extend (h : Hears p g r v told s) (htells : Tells p g v s t more) :
    Hears p g r v told t := by
  have hmessages : told ++ messagesTo v t.events =
      (told ++ messagesTo v s.events) ++ messagesTo v more := by
    rw [htells.events_eq, messagesTo_append, List.append_assoc]
  refine ⟨htells.nodup, ?_, fun hfree => ?_⟩
  · rw [hmessages, Replica.takes_append]
    exact ⟨h.takes, fun hfree => htells.takes _ (h.follows hfree)⟩
  · rw [hmessages, ackFree_append] at hfree
    rw [hmessages, List.foldl_append]
    exact htells.follows _ (h.follows hfree.1) hfree.2

theorem preserves (p : Profile) (g : IdSource) (r : Replica) (v : PeerId)
    (told : List MessageBody) : Preserves (fun _ _ => True) (Hears p g r v told) := by
  refine preserves_of_tells p g v Hears.nodup (fun sub h _ => ?_) fun h ⟨_, htells, _⟩ =>
    h.extend htells
  obtain ⟨_, htells, -⟩ := tells_process p g v h.nodup sub
  exact h.extend htells

theorem step [RegexLibrary] (h : Hears p g r v told s) (hc : s.Consistent) (c : Command) :
    Hears p g r v told (s.step c).1 :=
  (preserves p g r v told).step hc h (eachSettled_of_forall (fun _ _ => trivial) _ _)

/-- An event that leaves the session adds to what the peer was told. -/
theorem carry (h : Hears p g r v told s) {e : Event} {rest : List Event}
    (hevents : s.events = e :: rest) :
    Hears p g r v (told ++ messagesTo v [e]) { s with events := rest } := by
  have hmessages : told ++ messagesTo v s.events =
      (told ++ messagesTo v [e]) ++ messagesTo v rest := by
    rw [hevents, List.append_assoc, ← messagesTo_append, List.singleton_append]
  obtain ⟨hnodup, htakes, hfollows⟩ := h
  rw [hmessages] at htakes hfollows
  exact ⟨hnodup, htakes, hfollows⟩

end Hears

end Session

end LiterateSync
