import LiterateSync.Proofs.Document.ProseEdit
import LiterateSync.Proofs.Segment.LineFeeds
import LiterateSync.Proofs.Segment.Prose
import LiterateSync.Proofs.Text.PatternReader

namespace LiterateSync

open Grammar

variable {p : Profile}

/-- Whether a text that stands alone is comments and nothing else. -/
def ReadsAsProse [RegexLibrary] (p : Profile) (source : String) : Prop :=
  ∃ segments, segment p source = .ok segments ∧ ∀ s ∈ segments, s.kind = .doc

theorem readsAsProse_iff [RegexLibrary] {source : String} :
    ReadsAsProse p source ↔ p.fault? = none ∧ p.grammar.IsProse source.toList := by
  have hkinds : ∀ spans : List Span,
      (∀ s ∈ Segment.place 0 (joinCode spans), s.kind = .doc) ↔ ∀ x ∈ spans, x.kind = .doc := by
    intro spans
    rw [← forall_doc_joinCode]
    have hplace := congrArg (List.map Prod.fst) (Document.outline_place 0 (joinCode spans))
    simp only [List.map_map, Function.comp_def] at hplace
    rw [← List.forall_mem_map (f := Segment.kind) (P := (· = .doc)), hplace, List.forall_mem_map]
  constructor
  · rintro ⟨segments, hsegments, hdoc⟩
    obtain ⟨hfault, spans, hspans, rfl⟩ := segment_eq_ok_iff.1 hsegments
    exact ⟨hfault, spans, hspans, (hkinds spans).1 hdoc⟩
  · rintro ⟨hfault, spans, hspans, hdoc⟩
    exact ⟨_, segment_eq_ok_iff.2 ⟨hfault, spans, hspans, rfl⟩, (hkinds spans).2 hdoc⟩

namespace Document

variable {d : Document} {text prose : String} {before after : List Block} {b : Block}
  {comment : DocComment}

/-- The text of a document's code. -/
def codeText (d : Document) : String :=
  String.join ((d.blocks.filter (·.kind = .code)).map (·.content))

theorem toList_codeText {spans : List Span}
    (h : d.outline = (joinCode spans).map fun x => (x.kind, String.ofList x.chars)) :
    d.codeText.toList = codeOf spans := by
  have houtline : (d.blocks.filter (·.kind = .code)).map (·.content) =
      (d.outline.filter (·.1 = .code)).map (·.2) := by
    rw [outline, List.filter_map, List.map_map]
    rfl
  rw [codeText, houtline, h, List.filter_map, List.map_map, toList_join, List.map_map,
    ← codeOf_joinCode, codeOf, List.flatMap]
  simp [Function.comp_def]

/-- The text of a document can be opened with comments in the place of a doc block, and holds the
    same code then. -/
theorem exists_openWith_of_isProse [RegexLibrary] (hp : p.IsRegular) (h : ofText p text = .ok d)
    (hblocks : d.blocks = before ++ b :: after) (hkind : b.kind = .doc) {new : List Char}
    (hfront : p.grammar.SameFront (b.content.toList ++ charsOf after) (new ++ charsOf after))
    (hends : charsOf after ≠ [] → EndsLine new) (hprose : p.grammar.IsProse new)
    (ids : IdSource) :
    ∃ opened, openWith p ids (String.ofList (charsOf before ++ new ++ charsOf after)) =
        .ok opened ∧ opened.codeText = d.codeText := by
  obtain ⟨hfault, -, spans, hspans, houtline⟩ := exists_spans_of_openWith h
  obtain ⟨hne, -, first, second, hold, hsecond, hbefore, hafter⟩ :=
    exists_spans_of_blocks h hblocks hkind
  obtain ⟨all, hall, hcode⟩ := exists_spans_append hp hprose (fun hr _ => hends hr) hsecond
  have hnew := hp.isLineBound.spans_replace hne hfront (by rwa [flatten_of_joinCode hbefore])
  rw [hall, flatten_of_joinCode hbefore, ← List.append_assoc] at hnew
  have hspans' : p.grammar.spans (String.ofList (charsOf before ++ new ++ charsOf after)).toList =
      .ok (first ++ all) := by
    rw [String.toList_ofList, hnew]
    rfl
  obtain ⟨opened, hopened, hout⟩ := exists_openWith_of_spans hfault hspans' ids
  refine ⟨opened, hopened, ?_⟩
  have hblocks' : d.outline = (joinCode (first ++ ⟨.doc, b.content.toList⟩ :: second)).map
      fun x => (x.kind, String.ofList x.chars) := by
    rw [joinCode_append_doc, List.map_append, List.map_cons, hbefore, hafter, outline, hblocks,
      List.map_append, List.map_cons, hkind, String.ofList_toList]
  rw [← String.toList_inj, toList_codeText hout, toList_codeText hblocks', codeOf_append,
    codeOf_append, codeOf_doc, hcode]

/-- The source of prose ends a line if blocks follow, and begins like the doc block that the prose is
    given back for. -/
theorem sameFront_proseSource [RegexLibrary] (hp : p.HasPlainComments) (h : ofText p text = .ok d)
    (hblocks : d.blocks = before ++ b :: after) (hkind : b.kind = .doc)
    (hcomment : b.comment? d.profile = some comment) (hreturn : '\r' ∉ prose.toList) :
    p.grammar.SameFront (b.content.toList ++ charsOf after)
        ((d.proseSource b after.isEmpty prose).toList ++ charsOf after) ∧
      (charsOf after ≠ [] → EndsLine (d.proseSource b after.isEmpty prose).toList) := by
  obtain ⟨-, hrun, -⟩ := exists_spans_of_blocks h hblocks hkind
  obtain ⟨-, rfl, -⟩ := exists_spans_of_openWith h
  have hparse : DocComment.parse? d.profile (String.ofList b.content.toList) = some comment := by
    rw [String.ofList_toList, ← hcomment, Block.comment?, hkind]
  have hterminated : charsOf after ≠ [] → EndsLine (terminated after.isEmpty prose).toList := by
    intro hafter
    cases after with
    | nil => cases hafter rfl
    | cons c after => exact endsLine_terminated prose
  rw [proseSource, viewSource_doc hkind hkind hcomment]
  split
  · exact ⟨⟨rfl, rfl⟩, endsLine_cutDocRun? hrun⟩
  · refine ⟨sameFront_markUp hp hrun hparse (fun hmem => ?_) hterminated, fun hafter => ?_⟩
    · exact (mem_terminated hmem).elim hreturn (by decide)
    · exact LineEnding.endsLine_convert _ (endsLine_markUp _ _ (hterminated hafter))

end Document

end LiterateSync
