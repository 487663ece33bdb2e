import LiterateSync.Document.Basic
import LiterateSync.Proofs.Segment.Lines

namespace LiterateSync

namespace Document

theorem openWith_eq_ok_iff [RegexLibrary] {p : Profile} {ids : IdSource} {source : String}
    {d : Document} :
    openWith p ids source = .ok d ↔
      ∃ segments, segment p source = .ok segments ∧ d = build p ids segments := by
  rw [openWith]
  cases segment p source <;> simp [Except.map, eq_comm]

theorem outline_build (p : Profile) (ids : IdSource) (segments : List Segment) :
    (build p ids segments).outline = segments.map fun s => (s.kind, s.text) := by
  rw [outline, build]
  induction segments generalizing ids with
  | nil => rfl
  | cons s segments ih =>
    simp only [nameSegments, List.map_cons, List.cons.injEq, true_and]
    exact ih ids.fresh.2

theorem outline_place (start : Nat) (spans : List Span) :
    (Segment.place start spans).map (fun s => (s.kind, s.text)) =
      spans.map fun x => (x.kind, String.ofList x.chars) := by
  induction spans generalizing start with
  | nil => rfl
  | cons x spans ih => simp [Segment.place, ih]

/-- The blocks of a document that was opened are the spans of its text, with stretches of code
    joined. -/
theorem exists_spans_of_openWith [RegexLibrary] {p : Profile} {ids : IdSource} {source : String}
    {d : Document} (h : openWith p ids source = .ok d) :
    p.fault? = none ∧ d.profile = p ∧ ∃ spans, p.grammar.spans source.toList = .ok spans ∧
      d.outline = (joinCode spans).map fun x => (x.kind, String.ofList x.chars) := by
  obtain ⟨segments, hsegments, rfl⟩ := openWith_eq_ok_iff.1 h
  obtain ⟨hfault, spans, hspans, rfl⟩ := segment_eq_ok_iff.1 hsegments
  exact ⟨hfault, rfl, spans, hspans, by rw [outline_build, outline_place]⟩

theorem exists_openWith_of_spans [RegexLibrary] {p : Profile} {source : String} {spans : List Span}
    (hfault : p.fault? = none) (hspans : p.grammar.spans source.toList = .ok spans)
    (ids : IdSource) :
    ∃ d, openWith p ids source = .ok d ∧
      d.outline = (joinCode spans).map fun x => (x.kind, String.ofList x.chars) :=
  ⟨_, openWith_eq_ok_iff.2 ⟨_, segment_eq_ok_iff.2 ⟨hfault, spans, hspans, rfl⟩, rfl⟩,
    by rw [outline_build, outline_place]⟩

end Document

end LiterateSync
