import LiterateSync.Proofs.Segment.Grouping
import LiterateSync.Text.Pattern.Library

namespace LiterateSync

namespace DocComment

variable {p : Profile} {indent d : String} {b : BlockComment}

/-- The source of a line comment is read again as that comment. -/
theorem exists_toSource?_of_lineComment (hp : p.HasPlainComments) (hd : d ∈ p.lineComments)
    (hindent : ∀ c ∈ indent.toList, Text.isBlank c = true) (contents : String) :
    ∃ source, toSource? p ⟨indent, d, contents⟩ = some source ∧
      parse? p source = some ⟨indent, d, contents⟩ := by
  have hline : p.isLineComment d = true := List.contains_iff_mem.2 hd
  by_cases hempty : contents = ""
  · subst hempty
    have hparse := parse?_append_delimiter hp hd hindent
    rw [String.ofList_toList] at hparse
    refine ⟨_, ?_, hparse⟩
    simp only [toSource?, hline, if_true]
    rfl
  · have hprose : contents.toList ≠ [] := by simpa using hempty
    have hparse := parse?_sourceOfLines (e := .lf) hp hd hindent hprose
    rw [LineEnding.spread_lf, LineEnding.spread_lf, String.ofList_toList, String.ofList_toList]
      at hparse
    refine ⟨_, ?_, hparse⟩
    simp only [toSource?, hline, if_true, String.isEmpty_iff, hempty, if_false, sourceOfLines]

/-- The source of a block comment is read again as that comment, even if the closing delimiter
    stands in its prose: the last one closes it. -/
theorem exists_toSource?_of_blockComment (hp : p.HasPlainComments) (hb : b ∈ p.blockComments)
    (hindent : ∀ c ∈ indent.toList, Text.isBlank c = true) (contents : String) :
    ∃ source, toSource? p ⟨indent, b.opening, contents⟩ = some source ∧
      parse? p source = some ⟨indent, b.opening, contents⟩ := by
  obtain ⟨b', -, -, -, hfor⟩ := hp.blockComment?_append (k := []) hb (s := []) rfl
  have hparse : parse? p (String.ofList (LineEnding.lf.spread
      (sourceOfBlock indent.toList b.opening.toList b'.closing.toList contents.toList))) = _ :=
    parse?_sourceOfBlock hp hb hfor hindent
  rw [LineEnding.spread_lf, LineEnding.spread_lf, bodyOfBlock_append_tailOfBlock,
    String.ofList_toList, String.ofList_toList] at hparse
  refine ⟨_, ?_, hparse⟩
  simp only [toSource?, hp.isLineComment_opening hb, hfor, Option.map_some, Bool.false_eq_true,
    if_false]

/-- A comment is found again in its source, whatever its prose is, if blanks are its indent and the
    language tells its comments by plain delimiters, this one among them. The languages that are
    always known do so. -/
theorem parse?_toSource? (p : Profile) :
    (p ∈ Profile.builtin → p.HasPlainComments) ∧
    (p.HasPlainComments → ∀ comment : DocComment,
      (∀ c ∈ comment.indent.toList, Text.isBlank c = true) →
      (comment.delimiter ∈ p.lineComments ∨
        ∃ b ∈ p.blockComments, b.opening = comment.delimiter) →
      ∃ source, comment.toSource? p = some source ∧ parse? p source = some comment) := by
  refine ⟨fun hp => Profile.hasPlainComments_of_mem_builtin hp, ?_⟩
  rintro hp ⟨indent, delimiter, contents⟩ hindent (hd | ⟨b, hb, rfl⟩)
  · exact exists_toSource?_of_lineComment hp hd hindent contents
  · exact exists_toSource?_of_blockComment hp hb hindent contents

/-- The closing delimiter within the prose, an empty line, spaces at the ends of the prose and a
    carriage return all come back. -/
theorem parse?_toSource?_closing_within :
    let p : Profile :=
      { id := "c", lineComments := ["//"], blockComments := [⟨"/*", "*/"⟩],
        strings := [.escaped "\""] }
    let comment : DocComment := ⟨"\t ", "/*", " a */\r\n\n b \n\n"⟩
    p.HasPlainComments ∧ comment.toSource? p = some "\t /*  a */\r\n\n\t  b \n */\n" ∧
      ∃ source, comment.toSource? p = some source ∧ parse? p source = some comment := by
  intro p comment
  have hp : p.HasPlainComments :=
    { line := by decide +kernel
      opening := by decide +kernel
      closing := by decide +kernel
      apart := by decide +kernel }
  have hindent : ∀ c ∈ comment.indent.toList, Text.isBlank c = true := by
    rw [← List.all_eq_true]
    decide +kernel
  refine ⟨hp, by decide +kernel, (parse?_toSource? p).2 hp comment hindent (.inr ?_)⟩
  exact ⟨⟨"/*", "*/"⟩, by decide +kernel, rfl⟩

end DocComment

/-- The delimiter that decides about the doc run at the front of a line: the one of its lines, or
    the one that opens its block comment. -/
def Grammar.runDelimiter? (g : Grammar) (s : List Char) : Option String :=
  match g.docDelimiter? (unindented s) with
  | some d => some d
  | none => (g.blockComment? (unindented s)).map (·.opening)

namespace Profile

open Grammar

variable {p : Profile} {s run rest : List Char} {d : String}

/-- The line comment that opens where a block comment makes up a doc run is a shorter delimiter,
    with which that of the block comment begins. -/
theorem lineComment?_of_blockRun [RegexLibrary] (hline : ∀ d ∈ p.lineComments, IsPlain d)
    {b : BlockComment} (hdoc : p.grammar.docDelimiter? (unindented s) = none)
    (hb : p.grammar.blockComment? (unindented s) = some b)
    (hseparated : isSeparated ((unindented s).drop b.opening.length) = true)
    (hd : p.grammar.lineComment? (unindented s) = some d) :
    p.grammar.lineComment? b.opening.toList = some d ∧ b.opening ∉ p.lineComments := by
  obtain ⟨body, hbody⟩ := prefix_of_blockComment? hb
  rw [← hbody, List.drop_left' String.length_toList] at hseparated
  have hmem := mem_grammar_lineComments.1 (List.mem_of_find?_eq_some hd)
  have hstarts := prefix_of_lineComment? hd
  rw [← hbody] at hstarts
  have hwithin := (hline d hmem).prefix_of_prefix_append hseparated hstarts
  have hopening : b.opening.toList <+: unindented s := ⟨body, hbody⟩
  refine ⟨lineComment?_of_isPrefix hd hopening hwithin, fun hopens => ?_⟩
  -- a line comment that is the whole opening delimiter is separated, and makes a doc line
  have heq := eq_of_prefix_of_utf8ByteSize_le hwithin (size_le_of_lineComment? hd hopens hopening)
  subst heq
  rw [docDelimiter?, hd] at hdoc
  simp only [← hbody, List.drop_left' String.length_toList, hseparated, if_true] at hdoc
  cases hdoc

/-- A doc run spells a comment with its own indent. The comment has the delimiter of the run just
    when that is a line comment or begins with none. Otherwise it has the longest one with which
    that delimiter begins. -/
theorem exists_parse?_of_cutDocRun? [RegexLibrary] (hline : ∀ d ∈ p.lineComments, IsPlain d)
    (h : p.grammar.cutDocRun? s = .ok (some (run, rest))) :
    ∃ d comment, p.grammar.runDelimiter? s = some d ∧
      DocComment.parse? p (String.ofList run) = some comment ∧
      comment.indent.toList = Grammar.indent run ∧
      (comment.delimiter = d ↔
        d ∈ p.lineComments ∨ ∀ d' ∈ p.lineComments, ¬ d'.toList <+: d.toList) ∧
      (comment.delimiter ≠ d → p.grammar.lineComment? d.toList = some comment.delimiter) := by
  obtain ⟨comment, hparse, hindent, hrun, hsome, hnone⟩ := Grammar.exists_parse?_of_cutDocRun?
    (not_mem_lineComments hline) h
  have hindent : comment.indent.toList = Grammar.indent run := by
    rw [hindent, hrun, String.toList_ofList]
  obtain ⟨d, hdoc, -⟩ | ⟨hdoc, b, -, -, -, hb, hseparated, -⟩ := cutDocRun?_cases h
  · have hd := (lineComment?_of_docDelimiter? hdoc).1
    have hmem := mem_grammar_lineComments.1 (List.mem_of_find?_eq_some hd)
    exact ⟨d, comment, by simp only [runDelimiter?, hdoc], hparse, hindent,
      iff_of_true (hsome d hd) (.inl hmem), fun hne => absurd (hsome d hd) hne⟩
  · refine ⟨b.opening, comment, by simp only [runDelimiter?, hdoc, hb, Option.map_some], hparse,
      hindent, ?_⟩
    cases hd : p.grammar.lineComment? (unindented s) with
    | some d =>
      obtain ⟨hopening, hnot⟩ := lineComment?_of_blockRun hline hdoc hb hseparated hd
      have hmem := mem_grammar_lineComments.1 (List.mem_of_find?_eq_some hd)
      rw [hsome d hd]
      refine ⟨iff_of_false (fun heq => hnot (heq ▸ hmem)) ?_, fun _ => hopening⟩
      rintro (hopens | hapart)
      · exact hnot hopens
      · exact hapart d hmem (prefix_of_lineComment? hopening)
    | none =>
      obtain ⟨b', hb', heq⟩ := hnone hd
      obtain rfl : b = b' := Option.some.inj (hb.symm.trans hb')
      refine ⟨iff_of_true heq (.inr fun d hmem hopens => ?_), fun hne => absurd heq hne⟩
      rw [lineComment?, List.find?_eq_none] at hd
      exact hd d (mem_grammar_lineComments.2 hmem)
        (opens_iff.2 (hopens.trans (prefix_of_blockComment? hb)))

end Profile

/-- Each doc segment spells a comment with the blanks at its front as the indent. The comment has
    the delimiter that decided about the segment, unless that opens a block comment and begins with
    a line comment: then the block comment is taken for lines of the longest such one. -/
theorem DocComment.parse?_of_doc_segment [RegexLibrary] {p : Profile}
    (hline : ∀ d ∈ p.lineComments, IsPlain d) {text : String} {segments : List Segment}
    {x : Segment} (h : segment p text = .ok segments) (hx : x ∈ segments) (hdoc : x.kind = .doc) :
    ∃ before after d comment, text = before ++ x.text ++ after ∧
      before.utf8ByteSize = x.range.start ∧
      p.grammar.cutDocRun? (x.text.toList ++ after.toList) =
        .ok (some (x.text.toList, after.toList)) ∧
      p.grammar.runDelimiter? (x.text.toList ++ after.toList) = some d ∧
      DocComment.parse? p x.text = some comment ∧
      comment.indent.toList = Grammar.indent x.text.toList ∧
      (comment.delimiter = d ↔
        d ∈ p.lineComments ∨ ∀ d' ∈ p.lineComments, ¬ d'.toList <+: d.toList) ∧
      (comment.delimiter ≠ d → p.grammar.lineComment? d.toList = some comment.delimiter) := by
  obtain ⟨before, after, htext, hsize, -, -, hcut⟩ := exists_cutDocRun?_of_segment h hx hdoc
  obtain ⟨d, comment, hd, hparse, hrest⟩ := Profile.exists_parse?_of_cutDocRun? hline hcut
  rw [String.ofList_toList] at hparse
  exact ⟨before, after, d, comment, htext, hsize, hcut, hd, hparse, hrest⟩

/-- A block comment whose opening delimiter begins with the line comment of the language is a doc
    segment. It is read as a line with that one, and the closing delimiter is left in its prose. -/
theorem DocComment.parse?_of_doc_segment_nim :
    let p : Profile :=
      { id := "nim", extensions := [".nim"], lineComments := ["#"], blockComments := [⟨"#[", "]#"⟩],
        strings := [.escaped "\""] }
    let text := "#[ a ]#\nx = 1\n  # b\n"
    let run : Segment := ⟨.doc, "#[ a ]#\n", ⟨0, 8⟩⟩
    let segments := [run, ⟨.code, "x = 1\n", ⟨8, 14⟩⟩, ⟨.doc, "  # b\n", ⟨14, 20⟩⟩]
    p.fault? = none ∧ (∀ d ∈ p.delimiters, IsPlain d) ∧ segment p text = .ok segments ∧
      p.grammar.runDelimiter? text.toList = some "#[" ∧
      DocComment.parse? p run.text = some ⟨"", "#", "[ a ]#\n"⟩ ∧
      ∀ x ∈ segments, x.kind = .doc → ∃ before after d comment,
        text = before ++ x.text ++ after ∧ before.utf8ByteSize = x.range.start ∧
        p.grammar.cutDocRun? (x.text.toList ++ after.toList) =
          .ok (some (x.text.toList, after.toList)) ∧
        p.grammar.runDelimiter? (x.text.toList ++ after.toList) = some d ∧
        DocComment.parse? p x.text = some comment ∧
        comment.indent.toList = Grammar.indent x.text.toList ∧
        (comment.delimiter = d ↔
          d ∈ p.lineComments ∨ ∀ d' ∈ p.lineComments, ¬ d'.toList <+: d.toList) ∧
        (comment.delimiter ≠ d → p.grammar.lineComment? d.toList = some comment.delimiter) := by
  intro p text run segments
  have hdelimiters : ∀ d ∈ p.delimiters, IsPlain d := by decide +kernel
  have hline : ∀ d ∈ p.lineComments, IsPlain d := by decide +kernel
  have hsegment : segment p text = .ok segments := by decide +kernel
  refine ⟨by decide +kernel, hdelimiters, hsegment, by decide +kernel, by decide +kernel, ?_⟩
  exact fun x hx hdoc => parse?_of_doc_segment hline hsegment hx hdoc

end LiterateSync
