import LiterateSync.Proofs.Document.View
import LiterateSync.Proofs.Segment.Rewriting
import LiterateSync.Proofs.Text.PatternReader

namespace LiterateSync

open Grammar

variable {p : Profile} {run : List Char} {comment : DocComment}

/-- The prose of a comment that ends a line ends a line. -/
theorem endsLine_contents (hp : p.HasPlainComments) (hends : EndsLine run)
    (hcomment : DocComment.parse? p (String.ofList run) = some comment) :
    EndsLine comment.contents.toList := by
  rw [parse?_ofList p []] at hcomment
  split at hcomment
  · rename_i d hd
    cases hcomment
    have hplain := hp.line d (Text.mem_longestFirst.1 (List.mem_of_find?_eq_some hd))
    rw [String.toList_ofList]
    exact DocComment.endsLine_flatMap_proseOfLine (not_mem_indent (by decide) run)
      (hplain.not_mem (by simp)) hends
  · obtain ⟨b, hb, hfound⟩ := Option.bind_eq_some_iff.1 hcomment
    obtain ⟨⟨inner, tail⟩, hsplit, rfl⟩ := Option.map_eq_some_iff.1 hfound
    have hplain := hp.closing b (Text.mem_longestFirst.1 (List.mem_of_find?_eq_some hb))
    obtain ⟨body, hbody⟩ := prefix_of_blockComment? hb
    rw [← hbody, List.drop_left' String.length_toList] at hsplit
    rw [← indent_append_unindented run, ← hbody, Text.append_of_splitLast? hsplit,
      ← List.append_assoc, ← List.append_assoc, EndsLine] at hends
    -- no line feed ends the closing delimiter, so there is one behind it
    have htail : tail ≠ [] := by
      rintro rfl
      rw [List.append_nil, ← List.append_assoc, List.getLast?_append_of_ne_nil _ hplain.1] at hends
      exact hplain.not_mem (by simp) (List.mem_of_getLast? hends)
    rw [List.getLast?_append_of_ne_nil _ htail] at hends
    rw [String.toList_ofList, DocComment.proseOfBlock,
      if_pos (List.contains_iff_mem.2 (List.mem_of_getLast? hends))]
    exact List.getLast?_concat

theorem Profile.HasPlainComments.isPlain_of_closing? (hp : p.HasPlainComments) {closing : String}
    (h : comment.closing? p = some closing) : IsPlain closing := by
  rw [DocComment.closing?, Option.ite_none_left_eq_some] at h
  obtain ⟨b, hb, rfl⟩ := Option.map_eq_some_iff.1 h.2
  exact hp.closing b (List.mem_of_find?_eq_some hb)

namespace Document

variable {d : Document} {text prose : String} {before after : List Block} {b : Block}

/-- The characters of blocks in a row. -/
def charsOf (blocks : List Block) : List Char :=
  (blocks.map fun b => b.content.toList).flatten

theorem flatten_of_joinCode {spans : List Span} {blocks : List Block}
    (h : (joinCode spans).map (fun x => (x.kind, String.ofList x.chars)) =
      blocks.map fun b => (b.kind, b.content)) :
    (spans.map (·.chars)).flatten = charsOf blocks := by
  have hcontents := congrArg (List.map fun pair : BlockKind × String => pair.2.toList) h
  simp only [List.map_map, Function.comp_def, String.toList_ofList] at hcontents
  rw [← flatten_joinCode, charsOf, ← hcontents]

/-- A doc block is a doc run of the text that begins with it, between the spans of the blocks before
    it and those of the blocks after it. -/
theorem exists_spans_of_blocks [RegexLibrary] (h : ofText p text = .ok d)
    (hblocks : d.blocks = before ++ b :: after) (hkind : b.kind = .doc) :
    b.content.toList ++ charsOf after ≠ [] ∧
    p.grammar.cutDocRun? (b.content.toList ++ charsOf after) =
      .ok (some (b.content.toList, charsOf after)) ∧
    ∃ first second,
      p.grammar.spans (charsOf before ++ (b.content.toList ++ charsOf after)) =
        .ok (first ++ ⟨.doc, b.content.toList⟩ :: second) ∧
      p.grammar.spans (charsOf after) = .ok second ∧
      (joinCode first).map (fun x => (x.kind, String.ofList x.chars)) =
        before.map (fun b => (b.kind, b.content)) ∧
      (joinCode second).map (fun x => (x.kind, String.ofList x.chars)) =
        after.map fun b => (b.kind, b.content) := by
  obtain ⟨-, -, spans, hspans, houtline⟩ := exists_spans_of_openWith h
  rw [outline, hblocks, List.map_append, List.map_cons, eq_comm, List.map_eq_append_iff] at houtline
  obtain ⟨A, B, hjoined, hbefore, hB⟩ := houtline
  obtain ⟨⟨kind, run⟩, B, rfl, hx, hafter⟩ := List.map_eq_cons_iff.1 hB
  obtain ⟨rfl, hrun⟩ := Prod.mk.inj (hx.trans (by rw [hkind]))
  obtain rfl : run = b.content.toList := by rw [← hrun, String.toList_ofList]
  obtain ⟨first, second, rfl, rfl, rfl⟩ := exists_of_joinCode_eq hjoined
  obtain ⟨t, ht, hrest⟩ := spans_append_eq_ok hspans
  obtain ⟨hne, rest, rfl, hsecond, hcut⟩ := spans_eq_ok_cons hrest
  obtain rfl : rest = charsOf after := by
    rw [← flatten_of_joinCode hafter, flatten_of_spans hsecond]
  rw [ht, flatten_of_joinCode hbefore] at hspans
  exact ⟨hne, hcut, first, second, hspans, hsecond, hbefore, hafter⟩

/-- The text of a document can be opened with other text in the place of a doc block, and has the
    same blocks around the new one then. -/
theorem exists_openWith_of_rewrites [RegexLibrary] (hp : p.IsRegular) (h : ofText p text = .ok d)
    (hblocks : d.blocks = before ++ b :: after) (hkind : b.kind = .doc) {new prose : List Char}
    (hnew : Rewrites p b.content.toList (charsOf after) new prose) (ids : IdSource) :
    ∃ opened, openWith p ids (String.ofList (charsOf before ++ new ++ charsOf after)) =
        .ok opened ∧
      opened.outline = d.outline.set before.length (.doc, String.ofList new) := by
  obtain ⟨hne, -, first, second, hspans, hsecond, hbefore, hafter⟩ :=
    exists_spans_of_blocks h hblocks hkind
  have hreplace := hp.isLineBound.spans_replace hne hnew.sameFront
    (by rwa [flatten_of_joinCode hbefore])
  rw [spans_of_cutDocRun? hnew.cutDocRun (by simp [hnew.ne_nil]), hsecond,
    flatten_of_joinCode hbefore, ← List.append_assoc] at hreplace
  have hspans' : p.grammar.spans (String.ofList (charsOf before ++ new ++ charsOf after)).toList =
      .ok (first ++ ⟨.doc, new⟩ :: second) := by
    rw [String.toList_ofList, hreplace]
    rfl
  obtain ⟨hfault, -⟩ := exists_spans_of_openWith h
  obtain ⟨opened, hopened, hout⟩ := exists_openWith_of_spans hfault hspans' ids
  refine ⟨opened, hopened, ?_⟩
  have hlength : before.length = (before.map fun b => (b.kind, b.content)).length := by simp
  rw [hout, joinCode_append_doc, List.map_append, List.map_cons, hbefore, hafter, outline, hblocks,
    List.map_append, List.map_cons, hlength, List.set_append_right _ _ le_rfl]
  simp

/-- A doc block that takes the place of a doc run shows the prose that it was made for. -/
theorem shownText_of_rewrites [RegexLibrary] {rest : List Char} (hkind : b.kind = .doc)
    (h : Rewrites p run rest b.content.toList prose.toList) : shownText p b = prose := by
  obtain ⟨comment, hcomment, hprose⟩ := h.prose
  rw [String.ofList_toList] at hcomment
  simp only [shownText, Block.comment?, hkind, hcomment, Option.map_some, Option.getD_some]
  rw [← String.toList_inj, LineEnding.toList_convert, ← hprose]
  rfl

/-- The source of prose that a view gives back in the place of a doc block. -/
def proseSource (d : Document) (b : Block) (isLast : Bool) (prose : String) : String :=
  d.viewSource (some b) isLast { d.shown b with content := prose }

theorem endsLine_of_isChain
    (hends : (before ++ b :: after).IsChain fun b _ => EndsLine b.content.toList) :
    ∀ a ∈ before, EndsLine a.content.toList := by
  induction before with
  | nil => simp
  | cons a before ih =>
    obtain ⟨ha, hends⟩ := List.isChain_cons.1 hends
    refine List.forall_mem_cons.2 ⟨?_, ih hends⟩
    cases before with
    | nil => exact ha b rfl
    | cons c before => exact ha c rfl

/-- Where the code has the line endings of the document, prose that is given back for a doc block
    leaves all other text as it was. -/
theorem toList_viewText_modify (hspells : d.SpellsComments) (hkeeps : d.KeepsEndings)
    (hends : d.blocks.IsChain fun b _ => EndsLine b.content.toList)
    (hblocks : d.blocks = before ++ b :: after) :
    (d.viewText (d.rendered.modify before.length fun v => { v with content := prose })).toList =
      charsOf before ++ (d.proseSource b after.isEmpty prose).toList ++ charsOf after := by
  have hreturned : ∀ blocks ⊆ d.blocks,
      ((blocks.map d.returned).map String.toList).flatten = charsOf blocks := fun blocks hsub => by
    rw [List.map_congr_left fun b hb => keepsEndings_iff.1 hkeeps b (hsub hb), List.map_map]
    rfl
  have hbefore : before ⊆ d.blocks := by simp [hblocks]
  have hafter : after ⊆ d.blocks := by simp [hblocks]
  have hview : d.rendered.modify before.length (fun v => { v with content := prose }) =
      before.map d.shown ++ { d.shown b with content := prose } :: after.map d.shown := by
    rw [rendered_eq, hblocks, List.modify_eq_take_cons_drop (by simp)]
    simp [List.drop_append]
  rw [hblocks] at hends
  rw [viewText, hview, hblocks, viewSources_append_shown (fun b hb => hspells b (hbefore hb))
    (endsLine_of_isChain hends), viewSources, List.head?_cons, List.tail_cons,
    viewSources_shown (fun b hb => hspells b (hafter hb)) hends.right_of_append.of_cons,
    toList_join, List.map_append, List.map_cons, List.flatten_append, List.flatten_cons,
    hreturned before hbefore, hreturned after hafter, proseSource, List.isEmpty_map,
    List.append_assoc]

theorem endsLine_terminated (prose : String) : EndsLine (terminated false prose).toList := by
  rw [terminated]
  split
  · rename_i hends
    simpa [EndsLine] using hends
  · simp [EndsLine]

theorem mem_terminated {isLast : Bool} {c : Char} (hc : c ∈ (terminated isLast prose).toList) :
    c ∈ prose.toList ∨ c = '\n' := by
  rw [terminated] at hc
  split at hc
  · exact .inl hc
  · simpa using hc

theorem infix_of_infix_terminated {isLast : Bool} {closing : String} (hclosing : IsPlain closing)
    (h : closing.toList <:+: (terminated isLast prose).toList) :
    closing.toList <:+: prose.toList := by
  rw [terminated] at h
  split at h
  · exact h
  · rw [String.toList_append] at h
    rcases (Text.infix_append_cons_iff (hclosing.not_mem (c := '\n') (by simp))).1 h with h | h
    · exact h
    · exact absurd (List.infix_nil.1 h) hclosing.1

/-- The source of prose takes the place of the doc block that the prose is given back for. -/
theorem rewrites_proseSource [RegexLibrary] (hp : p.HasPlainComments) (h : ofText p text = .ok d)
    (hblocks : d.blocks = before ++ b :: after) (hkind : b.kind = .doc)
    (hcomment : b.comment? d.profile = some comment) (hreturn : '\r' ∉ prose.toList)
    (hclosing : ∀ closing ∈ comment.closing? p, ¬ closing.toList <:+: prose.toList) :
    Rewrites p b.content.toList (charsOf after)
      (d.proseSource b after.isEmpty prose).toList (terminated after.isEmpty prose).toList := by
  obtain ⟨hne, hrun, -⟩ := exists_spans_of_blocks h hblocks hkind
  obtain ⟨-, rfl, -⟩ := exists_spans_of_openWith h
  have hparse : DocComment.parse? d.profile (String.ofList b.content.toList) = some comment := by
    rw [String.ofList_toList, ← hcomment, Block.comment?, hkind]
  have hlast : charsOf after ≠ [] → after.isEmpty = false := by
    rintro hafter
    cases after
    · cases hafter rfl
    · rfl
  rw [proseSource, viewSource_doc hkind hkind hcomment]
  split
  · rename_i hshown
    have hshown : shownText d.profile b = prose := hshown
    have hcontents : LineEnding.toLf comment.contents.toList = prose.toList := by
      rw [← hshown, shownText, hcomment, Option.map_some, Option.getD_some,
        LineEnding.toList_convert]
      rfl
    have hends : after.isEmpty = true ∨ EndsLine prose.toList := by
      cases after with
      | nil => exact .inl rfl
      | cons c after =>
        have hchain := isChain_of_ofText h
        rw [hblocks] at hchain
        have hblock := (List.isChain_cons_cons.1 hchain.right_of_append).1
        exact .inr (hcontents ▸ LineEnding.endsLine_toLf (endsLine_contents hp hblock hparse))
    refine ⟨⟨rfl, rfl⟩, hrun, cutDocRun?_ne_nil hrun hne, comment, hparse, ?_⟩
    rw [hcontents, terminated, if_pos (by simpa [EndsLine] using hends)]
  · refine rewrites_of_cutDocRun? hp hrun hparse (fun closing hmem hwithin => ?_) (fun hmem => ?_)
      fun hafter => by rw [hlast hafter]; exact endsLine_terminated prose
    · exact hclosing closing hmem (infix_of_infix_terminated (hp.isPlain_of_closing? hmem) hwithin)
    · exact (mem_terminated hmem).elim hreturn (by decide)

end Document

end LiterateSync
