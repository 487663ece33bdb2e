import LiterateSync.Document.View
import LiterateSync.Language.Builtin
import LiterateSync.Proofs.Document.DiffApply
import LiterateSync.Proofs.Document.Opening
import LiterateSync.Proofs.Segment.Markup
import LiterateSync.Proofs.Segment.Spans
import LiterateSync.Proofs.Segment.Tiling
import LiterateSync.Proofs.Text.LineEnding
import LiterateSync.Proofs.Text.LongestFirst
import LiterateSync.Text.Pattern.Library

namespace LiterateSync

/-- Stretches of text with as many line feeds each, all at the ends of lines, are the same if
    longer texts begin with them. -/
theorem EndsLine.eq_of_append_eq {s t x y : List Char} (hs : EndsLine s) (ht : EndsLine t)
    (hcount : s.count '\n' = t.count '\n') (h : s ++ x = t ++ y) : s = t := by
  rcases List.append_eq_append_iff.1 h with ⟨z, rfl, -⟩ | ⟨z, rfl, -⟩
  · by_cases hz : z = []
    · rw [hz, List.append_nil]
    · have hmem : '\n' ∈ z := List.mem_of_getLast? (by
        rwa [EndsLine, List.getLast?_append_of_ne_nil _ hz] at ht)
      rw [List.count_append] at hcount
      exact absurd (List.count_pos_iff.2 hmem) (by omega)
  · by_cases hz : z = []
    · rw [hz, List.append_nil]
    · have hmem : '\n' ∈ z := List.mem_of_getLast? (by
        rwa [EndsLine, List.getLast?_append_of_ne_nil _ hz] at hs)
      rw [List.count_append] at hcount
      exact absurd (List.count_pos_iff.2 hmem) (by omega)

namespace Document

variable {d : Document} {p : Profile} {text : String} {blocks : List Block} {b : Block}

/-- The blocks of a document that was opened end lines, the last one apart, and its doc blocks
    are doc runs of its text. -/
theorem isChain_of_ofText [RegexLibrary] (h : ofText p text = .ok d) :
    d.blocks.IsChain fun b _ => EndsLine b.content.toList := by
  obtain ⟨segments, hsegments, rfl⟩ := openWith_eq_ok_iff.1 h
  have hmeets := (Segment.tiling_of_segment hsegments).meets
  have hcontents := content_nameSegments .unseeded segments
  have hchain : (segments.map (·.text)).IsChain fun s _ => EndsLine s.toList :=
    (List.isChain_map _).2 (hmeets.imp fun _ _ h => h.endsLine)
  rw [← hcontents, List.isChain_map] at hchain
  exact hchain

/-- No block of a text that was opened is empty. -/
theorem content_ne_nil [RegexLibrary] {ids : IdSource} (h : openWith p ids text = .ok d) :
    ∀ b ∈ d.blocks, b.content.toList ≠ [] := by
  obtain ⟨-, -, spans, hspans, houtline⟩ := exists_spans_of_openWith h
  obtain ⟨hne, hchain⟩ := Grammar.spans_endsLine hspans
  intro b hb
  have hmem : (b.kind, b.content) ∈ d.outline := List.mem_map_of_mem hb
  rw [houtline] at hmem
  obtain ⟨x, hx, heq⟩ := List.mem_map.1 hmem
  rw [← (Prod.mk.inj heq).2, String.toList_ofList]
  exact (isChain_joinCode hne hchain).1 x hx

/-- The text that a block comes back as when its view is given back unchanged. -/
def returned (d : Document) (b : Block) : String :=
  match b.kind with
  | .doc => b.content
  | .code => d.lineEnding.convert (LineEnding.lf.convert b.content)

/-- Whether all code of a document is written with the line endings of the document. -/
def KeepsEndings (d : Document) : Prop :=
  ∀ b ∈ d.blocks, b.kind = .code →
    d.lineEnding.convert (LineEnding.lf.convert b.content) = b.content

instance (d : Document) : Decidable d.KeepsEndings :=
  inferInstanceAs (Decidable (∀ b ∈ d.blocks, b.kind = .code →
    d.lineEnding.convert (LineEnding.lf.convert b.content) = b.content))

/-- Whether all doc blocks of a document spell comments, by whose markup a view gives them back. -/
def SpellsComments (d : Document) : Prop :=
  ∀ b ∈ d.blocks, b.kind = .doc → (b.comment? d.profile).isSome

/-- A block as a view shows it. -/
def shown (d : Document) (b : Block) : ViewBlock :=
  ⟨b.kind, d.profile.id, shownText d.profile b⟩

theorem rendered_eq (d : Document) : d.rendered = d.blocks.map d.shown := rfl

theorem shownText_of_code (hkind : b.kind = .code) :
    shownText p b = LineEnding.lf.convert b.content := by
  simp [shownText, Block.comment?, hkind]

/-- Prose in the place of a doc block has the source of that block if it is what is shown of the
    block, and is marked up like it otherwise. -/
theorem viewSource_doc {isLast : Bool} {v : ViewBlock} {comment : DocComment} (hv : v.kind = .doc)
    (hkind : b.kind = .doc) (hcomment : b.comment? d.profile = some comment) :
    d.viewSource (some b) isLast v =
      if shownText d.profile b = v.content then b.content
      else d.lineEnding.convert
        (markUp d.profile comment.indent comment.delimiter (terminated isLast v.content)) := by
  have hfilter : (some b).filter (fun b => decide (b.kind = .doc)) = some b := by
    simp [Option.filter, hkind]
  simp only [viewSource, hv, hfilter, docSource, Option.bind_some, hcomment, Option.map_some,
    shownText, Option.getD_some]

/-- A block that is given back as it is shown comes back as what it holds, or as its code with
    the line endings of the document. -/
theorem viewSource_shown {isLast : Bool}
    (hread : b.kind = .doc → (b.comment? d.profile).isSome)
    (hends : isLast = true ∨ EndsLine b.content.toList) :
    d.viewSource (some b) isLast (d.shown b) = d.returned b := by
  cases hkind : b.kind with
  | code =>
    have hterminated : terminated isLast (LineEnding.lf.convert b.content) =
        LineEnding.lf.convert b.content := by
      rw [terminated, if_pos]
      simp only [Bool.or_eq_true, decide_eq_true_eq]
      exact hends.imp_right (LineEnding.endsLine_convert .lf)
    simp only [viewSource, shown, returned, hkind, shownText_of_code hkind, hterminated]
  | doc =>
    obtain ⟨comment, hcomment⟩ := Option.isSome_iff_exists.1 (hread hkind)
    rw [viewSource_doc hkind hkind hcomment, returned, hkind]
    exact if_pos rfl

theorem viewSources_append_shown {blocks : List Block}
    (hread : ∀ b ∈ blocks, b.kind = .doc → (b.comment? d.profile).isSome)
    (hends : ∀ b ∈ blocks, EndsLine b.content.toList) (rest : List Block) (view : List ViewBlock) :
    d.viewSources (blocks ++ rest) (blocks.map d.shown ++ view) =
      blocks.map d.returned ++ d.viewSources rest view := by
  induction blocks with
  | nil => rfl
  | cons b blocks ih =>
    obtain ⟨hb, hread⟩ := List.forall_mem_cons.1 hread
    obtain ⟨hend, hends⟩ := List.forall_mem_cons.1 hends
    rw [List.map_cons, List.cons_append, List.cons_append, viewSources, List.head?_cons,
      viewSource_shown hb (.inr hend), List.tail_cons, ih hread hends]
    rfl

theorem viewSources_shown (hread : ∀ b ∈ blocks, b.kind = .doc → (b.comment? d.profile).isSome)
    (hends : blocks.IsChain fun b _ => EndsLine b.content.toList) :
    d.viewSources blocks (blocks.map d.shown) = blocks.map d.returned := by
  induction blocks with
  | nil => rfl
  | cons b blocks ih =>
    obtain ⟨hb, hread⟩ := List.forall_mem_cons.1 hread
    have hlast : (blocks.map d.shown).isEmpty = true ∨ EndsLine b.content.toList := by
      cases blocks with
      | nil => exact .inl rfl
      | cons c blocks => exact .inr (List.isChain_cons_cons.1 hends).1
    rw [List.map_cons, viewSources, List.head?_cons, viewSource_shown hb hlast, List.tail_cons,
      ih hread hends.of_cons]
    rfl

theorem endsLine_returned (h : EndsLine b.content.toList) :
    EndsLine (d.returned b).toList := by
  rw [returned]
  split
  · exact h
  · exact LineEnding.endsLine_convert _ (LineEnding.endsLine_convert _ h)

theorem count_returned (d : Document) (b : Block) :
    (d.returned b).toList.count '\n' = b.content.toList.count '\n' := by
  rw [returned]
  split
  · rfl
  · rw [LineEnding.count_convert, LineEnding.count_convert]

/-- If the blocks come back as the text that they make up, each comes back as what it holds:
    line feeds are neither made nor lost, so the ends of the blocks stay in their places. -/
theorem returned_eq_of_flatten_eq
    (hends : blocks.IsChain fun b _ => EndsLine b.content.toList)
    (h : (blocks.map fun b => (d.returned b).toList).flatten =
      (blocks.map fun b => b.content.toList).flatten) :
    ∀ b ∈ blocks, d.returned b = b.content := by
  induction blocks with
  | nil => simp
  | cons b blocks ih =>
    rw [List.map_cons, List.map_cons, List.flatten_cons, List.flatten_cons] at h
    have hb : (d.returned b).toList = b.content.toList := by
      cases blocks with
      | nil => simpa using h
      | cons c blocks =>
        have hend := (List.isChain_cons_cons.1 hends).1
        exact (endsLine_returned hend).eq_of_append_eq hend (d.count_returned b) h
    rw [hb, List.append_cancel_left_eq] at h
    exact List.forall_mem_cons.2 ⟨String.toList_inj.1 hb, ih hends.of_cons h⟩

theorem toList_join (strings : List String) :
    (String.join strings).toList = (strings.map String.toList).flatten := by
  induction strings with
  | nil => rfl
  | cons s strings ih => simp [String.join_cons, ih]

theorem keepsEndings_iff : d.KeepsEndings ↔ ∀ b ∈ d.blocks, d.returned b = b.content := by
  refine forall₂_congr fun b _ => ?_
  rw [returned]
  cases b.kind <;> simp

/-- The blocks of a text with line endings of one style have line endings of that style. -/
theorem isUniform_of_flatten {e : LineEnding}
    (hends : blocks.IsChain fun b _ => EndsLine b.content.toList)
    (h : LineEnding.isUniform e (blocks.map fun b => b.content.toList).flatten = true) :
    ∀ b ∈ blocks, LineEnding.isUniform e b.content.toList = true := by
  induction blocks with
  | nil => simp
  | cons b blocks ih =>
    rw [List.map_cons, List.flatten_cons] at h
    cases blocks with
    | nil => simpa using h
    | cons c blocks =>
      obtain ⟨hend, hends⟩ := List.isChain_cons_cons.1 hends
      rw [LineEnding.isUniform_append e hend, Bool.and_eq_true] at h
      exact List.forall_mem_cons.2 ⟨h.1, ih hends h.2⟩

theorem toList_text (d : Document) :
    d.text.toList = (d.blocks.map fun b => b.content.toList).flatten := by
  rw [text, toList_join, List.map_map]
  rfl

theorem keepsEndings_of_isUniform [RegexLibrary] {e : LineEnding} (h : ofText p text = .ok d)
    (hstyle : LineEnding.isUniform e text.toList = true) : d.KeepsEndings := by
  have htext := text_of_openWith h
  intro b hb _
  have hblock := isUniform_of_flatten (e := d.lineEnding) (isChain_of_ofText h)
    (by rw [← toList_text, htext, lineEnding, htext]
        exact LineEnding.isUniform_ofChars hstyle) b hb
  rw [← String.toList_inj, LineEnding.toList_convert, LineEnding.toList_convert]
  exact LineEnding.convertChars_toLf hblock

/-- Each doc block spells a comment, where no delimiter of line comments goes over the end of a
    line. -/
theorem spellsComments_of_ofText [RegexLibrary]
    (hfeed : ∀ delimiter ∈ p.lineComments, '\n' ∉ delimiter.toList) (h : ofText p text = .ok d) :
    d.SpellsComments := by
  obtain ⟨-, rfl, spans, hspans, houtline⟩ := exists_spans_of_openWith h
  intro b hb hkind
  have hmem : (b.kind, b.content) ∈ d.outline := List.mem_map_of_mem hb
  rw [houtline, hkind] at hmem
  obtain ⟨⟨kind, run⟩, hrun, heq⟩ := List.mem_map.1 hmem
  obtain ⟨rfl, hcontent⟩ := Prod.mk.inj heq
  obtain ⟨s, rest, hcut⟩ := Grammar.cutDocRun?_of_mem_joinCode hspans hrun
  obtain ⟨comment, hcomment, -⟩ := Grammar.exists_parse?_of_cutDocRun?
    (fun delimiter hd => hfeed delimiter (Text.mem_longestFirst.1 hd)) hcut
  rw [Block.comment?, hkind, ← hcontent]
  exact Option.isSome_iff_exists.2 ⟨comment, hcomment⟩

theorem ofView_eq_ok_iff [RegexLibrary] {view : List ViewBlock} {candidate : Document} :
    d.ofView view = .ok candidate ↔
      ∃ opened, openWith d.profile (.seeded "view") (d.viewText view) = .ok opened ∧
        candidate = { opened with revision := d.revision } := by
  rw [ofView]
  cases openWith d.profile (.seeded "view") (d.viewText view) <;> simp [Except.map, eq_comm]

/-- What a view makes up holds the text that the view assembles. -/
theorem text_of_ofView [RegexLibrary] {view : List ViewBlock} {candidate : Document}
    (h : d.ofView view = .ok candidate) : candidate.text = d.viewText view := by
  obtain ⟨opened, hopened, rfl⟩ := ofView_eq_ok_iff.1 h
  have htext : opened.text = d.viewText view := text_of_openWith hopened
  exact htext

theorem exists_name_of_openWith [RegexLibrary] {ids : IdSource} (h : openWith p ids text = .ok d) :
    ∀ b ∈ d.blocks, ∃ n, b.id = ids.name n := by
  obtain ⟨segments, -, rfl⟩ := openWith_eq_ok_iff.1 h
  intro b hb
  have hmem : b.id ∈ (nameSegments ids segments).1.map (·.id) := List.mem_map_of_mem hb
  rw [id_nameSegments] at hmem
  obtain ⟨n, -, hn⟩ := List.mem_map.1 hmem
  exact ⟨n, hn.symm⟩

/-- The names of blocks that a view makes up are not those of a text that is opened. -/
theorem id_ne_of_ofView [RegexLibrary] {view : List ViewBlock} {candidate : Document}
    (h : ofText p text = .ok d) (hview : d.ofView view = .ok candidate) :
    ∀ a ∈ d.blocks, ∀ b ∈ candidate.blocks, a.id ≠ b.id := by
  obtain ⟨opened, hopened, rfl⟩ := ofView_eq_ok_iff.1 hview
  intro a ha b hb heq
  obtain ⟨n, hn⟩ := exists_name_of_openWith h a ha
  obtain ⟨m, hm⟩ := exists_name_of_openWith hopened b hb
  rw [hn, hm] at heq
  have hheads := congrArg (fun id : BlockId => id.text.toList.head?) heq
  simp [IdSource.name, IdSource.stem, IdSource.unseeded, IdSource.seeded] at hheads

/-- A view that is given back unchanged makes up the blocks with the code in the line endings of the
    document, if the doc blocks spell comments. So nothing is changed exactly where the code has
    these line endings before, and in particular if all line endings of the text are of one
    style. Doc blocks spell comments where no delimiter goes over the end of a line. -/
theorem ofView_rendered [RegexLibrary] (h : ofText p text = .ok d) :
    (d.SpellsComments →
      d.viewText d.rendered = String.join (d.blocks.map d.returned) ∧
      ((∃ candidate, d.ofView d.rendered = .ok candidate ∧ candidate.text = text ∧
        (d.diff candidate).ops = []) ↔ d.KeepsEndings)) ∧
    (∀ e, LineEnding.isUniform e text.toList = true → d.KeepsEndings) ∧
    ((∀ delimiter ∈ p.lineComments, '\n' ∉ delimiter.toList) → d.SpellsComments) := by
  have hends := isChain_of_ofText h
  have htext := text_of_openWith h
  refine ⟨fun hspells => ?_, fun e hstyle => keepsEndings_of_isUniform h hstyle,
    fun hfeed => spellsComments_of_ofText hfeed h⟩
  have hview : d.viewText d.rendered = String.join (d.blocks.map d.returned) := by
    rw [viewText, rendered_eq, viewSources_shown hspells hends]
  refine ⟨hview, fun ⟨candidate, hcandidate, hsame, _⟩ => ?_, fun hkeeps => ?_⟩
  · rw [keepsEndings_iff]
    refine returned_eq_of_flatten_eq hends ?_
    rw [text_of_ofView hcandidate, hview, ← htext] at hsame
    rw [← toList_text, ← hsame, toList_join, List.map_map]
    rfl
  · have hsame : d.viewText d.rendered = text := by
      rw [hview, List.map_congr_left (keepsEndings_iff.1 hkeeps), ← htext]
      rfl
    obtain ⟨hfault, hp, spans, hspans, houtline⟩ := exists_spans_of_openWith h
    obtain ⟨opened, hopened, houtline'⟩ :=
      exists_openWith_of_spans hfault hspans (.seeded "view")
    have hcandidate : d.ofView d.rendered = .ok { opened with revision := d.revision } :=
      ofView_eq_ok_iff.2 ⟨opened, by rw [hp, hsame, hopened], rfl⟩
    exact ⟨_, hcandidate, (text_of_ofView hcandidate).trans hsame,
      diff_ops_of_outline_eq (houtline.trans houtline'.symm) (id_ne_of_ofView h hcandidate)⟩

/-- The code has the line endings of the document, and a doc line between it has another one. -/
theorem ofView_rendered_stray_doc_line :
    let p : Profile := { id := "sh", lineComments := ["#"], strings := [.spanning "\""] }
    let text := "x\r\n# a\n  # b\r\r\ny"
    let d := build p .unseeded
      [⟨.code, "x\r\n", ⟨0, 3⟩⟩, ⟨.doc, "# a\n", ⟨3, 7⟩⟩, ⟨.doc, "  # b\r\r\n", ⟨7, 15⟩⟩,
        ⟨.code, "y", ⟨15, 16⟩⟩]
    ofText p text = .ok d ∧
      (∃ candidate, d.ofView d.rendered = .ok candidate ∧ candidate.text = text ∧
        (d.diff candidate).ops = []) ∧
      ∀ e, LineEnding.isUniform e text.toList = false := by
  intro p text d
  have hfeed : ∀ delimiter ∈ p.lineComments, '\n' ∉ delimiter.toList := by decide
  have hd : ofText p text = .ok d := by decide +kernel
  have hkeeps : d.KeepsEndings := by decide +kernel
  obtain ⟨hview, -, hspells⟩ := ofView_rendered hd
  refine ⟨hd, (hview (hspells hfeed)).2.2 hkeeps, fun e => ?_⟩
  cases e <;> decide

/-- A view that is given back unchanged changes code whose line endings are mixed, and may even be
    refused: here an escaped line feed gets a carriage return before it, so that its literal
    ends early. Where a delimiter goes over the end of a line, its doc lines are not found again. -/
theorem ofView_rendered_mixed_endings :
    let p : Profile := .cLike "json5" [".json5"] Profile.quotes
    let q : Profile := { p with lineComments := ["#\nx"], blockComments := [] }
    (∃ d, ofText p "x\ny\r\n" = .ok d ∧
      (d.ofView d.rendered).map (·.text) = .ok "x\ny\n") ∧
    (∃ d, ofText p "a\r\n\"abc\\\n/* def\"\n" = .ok d ∧
      d.ofView d.rendered = .error (.malformed 10 ⟨"/*", "*/"⟩)) ∧
    ∃ d, ofText q "#\nx y\n" = .ok d ∧
      (d.ofView d.rendered).map (·.text) = .ok "#\nx #\nx y\n" := by
  intro p q
  refine ⟨⟨build p .unseeded [⟨.code, "x\ny\r\n", ⟨0, 5⟩⟩], ?_, ?_⟩,
    ⟨build p .unseeded [⟨.code, "a\r\n\"abc\\\n/* def\"\n", ⟨0, 17⟩⟩], ?_, ?_⟩,
    ⟨build q .unseeded [⟨.doc, "#\n", ⟨0, 2⟩⟩, ⟨.code, "x y\n", ⟨2, 6⟩⟩], ?_, ?_⟩⟩
  all_goals decide +kernel

end Document

end LiterateSync
