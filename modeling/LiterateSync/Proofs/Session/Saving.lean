import LiterateSync.Proofs.Session.Mirror

namespace LiterateSync

namespace Session

variable {s : Session} {d candidate : Document} {text : String}

theorem step_fileChanged_of_document_none [RegexLibrary] (hdoc : s.document = none)
    (text : String) : (s.step (.fileChanged text)).1 = s := by
  rw [step]
  cases hresult : s.fileChanged text with
  | error e => rfl
  | ok t =>
    obtain ⟨d, hopen, -⟩ := fileChanged_eq_ok hresult
    rw [(openDocument_eq_ok_iff.1 hopen).1] at hdoc
    cases hdoc

end Session

namespace Backing

variable [RegexLibrary] {b : Backing} {st : Standing} {text : String}

/-- What becomes of a saved text: it is the text of the document already, or the patch that leads
    to it waits, or it is settled at once. -/
theorem save_cases (h : Mirrors b st) (hadmits : b.Admits (.save text)) {d : Document}
    (hdoc : b.session.document = some d) :
    ∃ candidate, candidate.text = text ∧ d.ids.count + candidate.blocks.length < 2 ^ 64 ∧
      (((b.session.step (.fileChanged text)).1 = b.session ∧ text = d.text) ∨
        (∃ phase, (b.session.step (.fileChanged text)).1 = { b.session with
          phase, queue := b.session.queue ++ [⟨.fileSystem, d.diff candidate, false⟩] }) ∨
        ∃ start last : Session, start.document = some d ∧ start.events = [] ∧ start.queue = [] ∧
          start.process ⟨.fileSystem, d.diff candidate, false⟩ = last ∧
          (b.session.step (.fileChanged text)).1 = { last with phase := .synced }) := by
  obtain ⟨hnew, hsegments⟩ := hadmits
  obtain ⟨candidate, hcandidate, hroom⟩ := hsegments d hdoc
  obtain ⟨t, hresult⟩ := Session.exists_fileChanged h.consistent hdoc hcandidate
  have htext : candidate.text = text := Document.text_of_openWith hcandidate
  have heq : (b.session.step (.fileChanged text)).1 = t := by rw [Session.step, hresult]; rfl
  obtain ⟨d', hopen, ⟨-, hecho, -⟩ | ⟨candidate', hcandidate', hcase⟩⟩ :=
    Session.fileChanged_eq_ok hresult
  · exact absurd hecho hnew
  · have hsame : d' = d := by
      have hdoc' := (Session.openDocument_eq_ok_iff.1 hopen).1
      rw [hdoc] at hdoc'
      exact (Option.some.inj hdoc').symm
    subst hsame
    rw [hcandidate] at hcandidate'
    cases hcandidate'
    refine ⟨candidate, htext, hroom, ?_⟩
    obtain ⟨ht, hempty⟩ | hsubmit := hcase
    · refine .inl ⟨heq.trans ht, ?_⟩
      rw [← htext, Document.text_eq_of_outline_eq
        (Document.outline_eq_of_diff_nil (h.named.document _ hdoc) hroom hempty)]
    · obtain ⟨e, -, ⟨-, ht⟩ | ⟨hpending, ht⟩⟩ := Session.enqueue_eq_ok hsubmit
      · exact .inr (.inl ⟨_, heq.trans ht⟩)
      · have hqueue := h.consistent.queue_nil hpending
        have hdrain := Session.drain_of_not_pending (s := { b.session with
          queue := b.session.queue ++ [⟨.fileSystem, d'.diff candidate, false⟩] }) hpending
          (by simp [hdoc])
        refine .inr (.inr ⟨{ b.session with queue := [] }, _, hdoc, h.events_nil, rfl, ?_,
          heq.trans (ht.trans hdrain)⟩)
        simp only [Session.settled, hqueue, List.nil_append, List.foldl_cons, List.foldl_nil]

/-- A saved text is met by the document, or its patch waits. -/
theorem Mirrors.saved (h : Mirrors b st) (hadmits : b.Admits (.save text)) {d : Document}
    (hd : (b.session.step (.fileChanged text)).1.document = some d) :
    Traced d (b.session.step (.fileChanged text)).1.queue (b.session.step (.fileChanged text)).1
      (written text (b.session.step (.fileChanged text)).1.events) ∧
    (OfPeers b.session.queue → Agrees d (b.session.step (.fileChanged text)).1.queue
      (b.session.step (.fileChanged text)).1.history
      (written text (b.session.step (.fileChanged text)).1.events) .level) := by
  cases hdoc : b.session.document with
  | none =>
    rw [Session.step_fileChanged_of_document_none hdoc, hdoc] at hd
    cases hd
  | some current =>
    obtain ⟨candidate, htext, hroom, ⟨heq, hsame⟩ | ⟨phase, heq⟩ |
      ⟨start, last, hstart, hevents, hempty, hlast, heq⟩⟩ := save_cases h hadmits hdoc
    · rw [heq, hdoc] at hd
      cases hd
      rw [heq, h.events_nil]
      exact ⟨.inl hsame, fun hpeers => .inl ⟨hsame, hpeers⟩⟩
    · rw [heq, hdoc] at hd
      cases hd
      rw [heq, h.events_nil]
      exact ⟨.inr (.inr ⟨_, List.mem_append_right _ List.mem_cons_self, candidate, rfl, hroom⟩),
        fun hpeers => .inr ⟨b.session.queue, _, [], candidate, rfl, by rwa [List.append_nil], rfl,
          hroom, htext.symm⟩⟩
    · obtain ⟨next, hreconcile, hnext⟩ :=
        Session.reconcile_diff (h.named.document current hdoc) hroom start .fileSystem
      have hprocess : start.process ⟨.fileSystem, current.diff candidate, false⟩ = _ :=
        Session.process_of_ok hstart hreconcile
      have hquiet : Quiet (start.acceptEvents ⟨.fileSystem, current.diff candidate, false⟩
          ⟨current.diff candidate, []⟩ next) := quiet_acceptEvents start rfl _ next
      rw [hlast] at hprocess
      rw [heq, hprocess] at hd ⊢
      cases hd
      have hwritten : written text (start.events ++ start.acceptEvents
          ⟨.fileSystem, current.diff candidate, false⟩ ⟨current.diff candidate, []⟩ d) =
          d.text := by
        rw [hevents, List.nil_append, written_of_quiet hquiet, hnext, htext]
      exact ⟨.inl hwritten, fun _ => .inl ⟨hwritten, by rw [hempty]; exact ofPeers_nil⟩⟩

/-- A save leaves the file level with the document or its patch waiting, unless it overtakes an
    earlier one. -/
theorem Mirrors.save (h : Mirrors b st) (hadmits : b.Admits (.save text)) :
    Mirrors (b.step (.save text)) (b.stands st (.save text)) := by
  have hconsistent : Session.Consistent { b with file := text }.session := h.consistent
  rw [stands]
  split
  · rename_i hmeets
    have hpeers : OfPeers b.session.queue := by
      obtain hpending | ⟨-, hpeers⟩ := hmeets
      · rw [h.consistent.queue_nil hpending]
        exact ofPeers_nil
      · exact hpeers
    exact .of_ask (c := .fileChanged text) hconsistent h.named trivial
      (fun d hd => (h.saved hadmits hd).1) fun d hd => (h.saved hadmits hd).2 hpeers
  · exact .of_ask (c := .fileChanged text) hconsistent h.named trivial
      (fun d hd => (h.saved hadmits hd).1) fun _ _ => trivial

end Backing

end LiterateSync
