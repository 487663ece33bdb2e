import LiterateSync.Document.View
import LiterateSync.Proofs.Segment.Rendering

namespace LiterateSync

open Grammar
open LineEnding (spread)

variable {p : Profile} {run rest : List Char} {comment : DocComment} {e : LineEnding}
  {prose : String}

/-- A doc run is one of lines with a line comment, or of one block comment, whose delimiter no line
    comment has. -/
theorem Profile.HasPlainComments.cutDocRun?_cases [RegexLibrary] (hp : p.HasPlainComments)
    {s : List Char} (h : p.grammar.cutDocRun? s = .ok (some (run, rest))) :
    (∃ d ∈ p.lineComments, p.grammar.docDelimiter? (unindented s) = some d ∧
      (rest ≠ [] →
        ¬ (indent rest = indent s ∧ p.grammar.docDelimiter? (unindented rest) = some d))) ∨
    p.grammar.lineComment? (unindented s) = none ∧
      ∃ b ∈ p.blockComments, p.grammar.blockComment? (unindented s) = some b := by
  obtain ⟨d, hdoc, hlines⟩ | ⟨hnone, b, -, -, -, hb, hseparated, -⟩ := Grammar.cutDocRun?_cases h
  · have hmem := List.mem_of_find?_eq_some (lineComment?_of_docDelimiter? hdoc).1
    exact .inl ⟨d, Text.mem_longestFirst.1 hmem, hdoc, cutDocLines_rest hlines⟩
  · have hmem := Text.mem_longestFirst.1 (List.mem_of_find?_eq_some hb)
    refine .inr ⟨?_, b, hmem, hb⟩
    obtain ⟨s', hs'⟩ := prefix_of_blockComment? hb
    rw [← hs', List.drop_left' String.length_toList] at hseparated
    rw [← hs', hp.lineComment?_eq_none hmem hseparated]

/-- Whether a text takes the place of a doc run before `rest`: it is a doc run, it is told apart
    from what is before it like the other one, and its prose is `prose`. -/
structure Rewrites [RegexLibrary] (p : Profile) (run rest new prose : List Char) : Prop where
  sameFront : p.grammar.SameFront (run ++ rest) (new ++ rest)
  cutDocRun : p.grammar.cutDocRun? (new ++ rest) = .ok (some (new, rest))
  ne_nil : new ≠ []
  prose : ∃ comment, DocComment.parse? p (String.ofList new) = some comment ∧
    LineEnding.toLf comment.contents.toList = prose

theorem toList_convert_ofList {s : List Char} (hs : '\r' ∉ s) :
    (e.convert (String.ofList s)).toList = spread e s := by
  rw [LineEnding.convert, String.toList_ofList, String.toList_ofList,
    LineEnding.convertChars_of_not_mem e hs]

theorem markUp_lineComment {d : String} (hd : d ∈ p.lineComments) (margin : List Char) :
    Document.markUp p (String.ofList margin) d prose = String.ofList
      (if prose.isEmpty then margin ++ d.toList
        else DocComment.sourceOfLines margin d.toList prose.toList) := by
  rw [Document.markUp, DocComment.toSource?, Profile.isLineComment]
  simp only [List.contains_iff_mem.2 hd, if_true, String.toList_ofList]
  split <;> rfl

theorem Profile.HasPlainComments.markUp_blockComment (hp : p.HasPlainComments) {b : BlockComment}
    (hb : b ∈ p.blockComments) {closing : String}
    (hfor : p.closingFor? b.opening = some closing) (margin : List Char) :
    Document.markUp p (String.ofList margin) b.opening prose = String.ofList
      (DocComment.sourceOfBlock margin b.opening.toList closing.toList prose.toList) := by
  simp only [Document.markUp, DocComment.toSource?, hp.isLineComment_opening hb,
    Bool.false_eq_true, if_false, hfor, Option.map_some, Option.getD_some, String.toList_ofList]

section LineComment

variable [RegexLibrary] (hp : p.HasPlainComments) {d : String} (hd : d ∈ p.lineComments)
    {margin : List Char}
  (hmargin : ∀ c ∈ margin, Text.isBlank c = true) (hindent : indent (run ++ rest) = margin)
  (hdoc : p.grammar.docDelimiter? (unindented (run ++ rest)) = some d)

include hp hd hmargin hindent hdoc

theorem sameFront_lineComment {s : List Char} (hs : isSeparated s = true) :
    p.grammar.SameFront (run ++ rest) (margin ++ (d.toList ++ s)) := by
  obtain ⟨hindent', hunindented⟩ := DocComment.indent_append_plain hmargin (hp.line d hd) s
  exact ⟨by rw [hindent, hindent'], by rw [hdoc, hunindented, hp.docDelimiter?_append hd hs]⟩

/-- A delimiter at the end of a text stands for empty prose. -/
theorem rewrites_delimiter (hrest : rest = []) : Rewrites p run rest (margin ++ d.toList) [] := by
  have hplain := hp.line d hd
  have hfront := sameFront_lineComment hp hd hmargin hindent hdoc (s := []) rfl
  subst hrest
  refine ⟨by simpa using hfront, ?_, by simp [hplain.1], _,
    DocComment.parse?_append_delimiter hp hd hmargin, rfl⟩
  simpa using DocComment.cutDocRun?_append_delimiter hp hd hmargin

theorem rewrites_sourceOfLines (e : LineEnding) {s : List Char}
    (hrest : rest ≠ [] →
      ¬ (indent rest = margin ∧ p.grammar.docDelimiter? (unindented rest) = some d))
    (hne : s ≠ []) (hreturn : '\r' ∉ s) (hends : rest ≠ [] → EndsLine s) :
    Rewrites p run rest (spread e (DocComment.sourceOfLines margin d.toList s)) s := by
  have hplain := hp.line d hd
  obtain ⟨t, ht, hseparated, hnil⟩ := DocComment.exists_sourceOfLines_eq e hmargin hplain hne
  refine ⟨?_, DocComment.cutDocRun?_sourceOfLines hp hd hmargin hrest hne hends, ?_,
    _, DocComment.parse?_sourceOfLines hp hd hmargin hne, ?_⟩
  · rw [ht, List.append_assoc, List.append_assoc]
    exact sameFront_lineComment hp hd hmargin hindent hdoc (by rwa [isSeparated_append hnil])
  · simp [ht, hplain.1]
  · rw [String.toList_ofList, LineEnding.toLf_spread e hreturn]

/-- Prose in the markup of a line comment takes the place of that comment. -/
theorem rewrites_of_lineComment
    (hrest : rest ≠ [] →
      ¬ (indent rest = margin ∧ p.grammar.docDelimiter? (unindented rest) = some d))
    (hreturn : '\r' ∉ prose.toList) (hends : rest ≠ [] → EndsLine prose.toList) :
    Rewrites p run rest
      (e.convert (Document.markUp p (String.ofList margin) d prose)).toList prose.toList := by
  have hplain := hp.line d hd
  have hmarkup := DocComment.not_mem_margin_append hmargin hplain (.inr rfl)
  rw [markUp_lineComment hd]
  by_cases hempty : prose.isEmpty = true
  · obtain rfl : prose = "" := String.isEmpty_iff.1 hempty
    have hfeed := DocComment.not_mem_margin_append hmargin hplain (.inl rfl)
    rw [if_pos hempty, toList_convert_ofList hmarkup,
      LineEnding.spread_of_not_mem e hfeed]
    refine rewrites_delimiter hp hd hmargin hindent hdoc ?_
    by_contra hne
    cases hends hne
  · have hsource : '\r' ∉ DocComment.sourceOfLines margin d.toList prose.toList := by
      intro hmem
      obtain hmem | hmem | hmem | hmem := DocComment.mem_sourceOfLines hmem
      · exact hmarkup (List.mem_append_left _ hmem)
      · exact hmarkup (List.mem_append_right _ hmem)
      · cases hmem
      · exact hreturn hmem
    rw [if_neg hempty, toList_convert_ofList hsource]
    exact rewrites_sourceOfLines hp hd hmargin hindent hdoc e hrest (by simpa using hempty)
      hreturn hends

end LineComment

section BlockComment

variable (hp : p.HasPlainComments) {b : BlockComment} (hb : b ∈ p.blockComments) {closing : String}
  (hfor : p.closingFor? b.opening = some closing) {margin : List Char}
  (hmargin : ∀ c ∈ margin, Text.isBlank c = true)

include hp hb hfor hmargin

/-- The source of a block comment begins in one way, whatever its prose is. -/
theorem sameFront_blockComment [RegexLibrary] (e : LineEnding) (s : List Char)
    (hindent : indent (run ++ rest) = margin)
    (hnone : p.grammar.lineComment? (unindented (run ++ rest)) = none) :
    p.grammar.SameFront (run ++ rest)
      (spread e (DocComment.sourceOfBlock margin b.opening.toList closing.toList s) ++ rest) := by
  have hopening := hp.opening b hb
  rw [DocComment.spread_sourceOfBlock e (DocComment.not_mem_margin hmargin (by decide))
    (hopening.not_mem (by simp)) ((hp.isPlain_of_closingFor? hfor).not_mem (by simp)),
    List.append_assoc, List.append_assoc]
  obtain ⟨hindent', hunindented⟩ := DocComment.indent_append_plain hmargin hopening
    (DocComment.bodySource e margin (DocComment.bodyOfBlock s) ++ closing.toList ++
      spread e (DocComment.tailOfBlock s) ++ rest)
  refine ⟨by rw [hindent, hindent'], ?_⟩
  rw [hunindented, docDelimiter?, docDelimiter?, hnone, hp.lineComment?_eq_none hb rfl]

theorem toList_markUp_blockComment (e : LineEnding) (hreturn : '\r' ∉ prose.toList) :
    (e.convert (Document.markUp p (String.ofList margin) b.opening prose)).toList =
      spread e (DocComment.sourceOfBlock margin b.opening.toList closing.toList prose.toList) := by
  have hsource : '\r' ∉
      DocComment.sourceOfBlock margin b.opening.toList closing.toList prose.toList := by
    intro hmem
    obtain hmem | hmem | hmem | hmem | hmem | hmem := DocComment.mem_sourceOfBlock hmem
    · cases hmem
    · exact DocComment.not_mem_margin hmargin (by decide) hmem
    · exact (hp.opening b hb).not_mem (by simp) hmem
    · cases hmem
    · exact (hp.isPlain_of_closingFor? hfor).not_mem (by simp) hmem
    · exact hreturn hmem
  rw [hp.markUp_blockComment hb hfor, toList_convert_ofList hsource]

theorem rewrites_sourceOfBlock [RegexLibrary] (e : LineEnding) {s : List Char}
    (hindent : indent (run ++ rest) = margin)
    (hnone : p.grammar.lineComment? (unindented (run ++ rest)) = none)
    (hclosing : ¬ closing.toList <:+: s) (hreturn : '\r' ∉ s) (hends : rest ≠ [] → EndsLine s) :
    Rewrites p run rest
      (spread e (DocComment.sourceOfBlock margin b.opening.toList closing.toList s)) s := by
  have hopening := hp.opening b hb
  have hspread := DocComment.spread_sourceOfBlock e (DocComment.not_mem_margin hmargin (by decide))
    (hopening.not_mem (by simp)) ((hp.isPlain_of_closingFor? hfor).not_mem (by simp)) s
  have htail : DocComment.tailOfBlock s = [] → rest = [] := by
    intro htail
    by_contra hne
    obtain ⟨body, hbody⟩ := List.getLast?_eq_some_iff.1 (hends hne)
    rw [DocComment.tailOfBlock, Text.beforeSuffix?_eq_some_iff.2 hbody] at htail
    cases htail
  refine ⟨?_, DocComment.cutDocRun?_sourceOfBlock hp hb hfor hmargin hclosing htail, ?_,
    _, DocComment.parse?_sourceOfBlock hp hb hfor hmargin, ?_⟩
  · exact sameFront_blockComment hp hb hfor hmargin e s hindent hnone
  · rw [hspread]
    simp [hopening.1]
  · have hsplit := DocComment.bodyOfBlock_append_tailOfBlock s
    have hbody : '\r' ∉ DocComment.bodyOfBlock s := fun hmem =>
      hreturn (hsplit ▸ List.mem_append_left _ hmem)
    have hfeed : LineEnding.toLf (DocComment.tailOfBlock s) = DocComment.tailOfBlock s :=
      LineEnding.toLf_of_not_mem fun hmem => hreturn (hsplit ▸ List.mem_append_right _ hmem)
    rw [String.toList_ofList, LineEnding.toLf_spread_append e hbody, hfeed, hsplit]

/-- Prose in the markup of a block comment takes the place of that comment, if it does not hold the
    closing delimiter. -/
theorem rewrites_of_blockComment [RegexLibrary] (hindent : indent (run ++ rest) = margin)
    (hnone : p.grammar.lineComment? (unindented (run ++ rest)) = none)
    (hclosing : ¬ closing.toList <:+: prose.toList)
    (hreturn : '\r' ∉ prose.toList) (hends : rest ≠ [] → EndsLine prose.toList) :
    Rewrites p run rest
      (e.convert (Document.markUp p (String.ofList margin) b.opening prose)).toList
        prose.toList := by
  rw [toList_markUp_blockComment hp hb hfor hmargin e hreturn]
  exact rewrites_sourceOfBlock hp hb hfor hmargin e hindent hnone hclosing hreturn hends

end BlockComment

/-- The closing delimiter of the block comment that a text spells, if it spells one. -/
def DocComment.closing? (p : Profile) (comment : DocComment) : Option String :=
  if p.isLineComment comment.delimiter then none else p.closingFor? comment.delimiter

/-- The markup of a doc run is that of lines with one delimiter, or that of a block comment. -/
theorem markup_cases [RegexLibrary] (hp : p.HasPlainComments)
    (hrun : p.grammar.cutDocRun? (run ++ rest) = .ok (some (run, rest)))
    (hcomment : DocComment.parse? p (String.ofList run) = some comment) :
    comment.indent = String.ofList (indent (run ++ rest)) ∧
    ((comment.delimiter ∈ p.lineComments ∧
      p.grammar.docDelimiter? (unindented (run ++ rest)) = some comment.delimiter ∧
      (rest ≠ [] → ¬ (indent rest = indent (run ++ rest) ∧
        p.grammar.docDelimiter? (unindented rest) = some comment.delimiter))) ∨
    p.grammar.lineComment? (unindented (run ++ rest)) = none ∧
      ∃ b ∈ p.blockComments, comment.delimiter = b.opening ∧
        ∃ closing, p.closingFor? b.opening = some closing ∧ comment.closing? p = some closing) := by
  have hfeed : ∀ d ∈ p.grammar.lineComments, '\n' ∉ d.toList := fun d hd =>
    (hp.line d (Text.mem_longestFirst.1 hd)).not_mem (by simp)
  obtain ⟨comment', hparse, hindent, -, hline, hblock⟩ := exists_parse?_of_cutDocRun? hfeed hrun
  obtain rfl : comment = comment' := Option.some.inj (hcomment.symm.trans hparse)
  refine ⟨hindent, ?_⟩
  obtain ⟨d, hd, hdoc, hrest⟩ | ⟨hnone, b, hb, hopens⟩ := hp.cutDocRun?_cases hrun
  · obtain rfl := hline d (lineComment?_of_docDelimiter? hdoc).1
    exact .inl ⟨hd, hdoc, hrest⟩
  · obtain ⟨b', hb', hdelimiter⟩ := hblock hnone
    obtain rfl : b = b' := Option.some.inj (hopens.symm.trans hb')
    obtain ⟨c, -, -, -, hfor⟩ := hp.blockComment?_append (k := []) hb (s := []) rfl
    refine .inr ⟨hnone, b, hb, hdelimiter, c.closing, hfor, ?_⟩
    rw [DocComment.closing?, hdelimiter, hp.isLineComment_opening hb, if_neg Bool.false_ne_true]
    exact hfor

/-- Prose in the markup of a doc run begins like the run, whatever it is. -/
theorem sameFront_markUp [RegexLibrary] (hp : p.HasPlainComments)
    (hrun : p.grammar.cutDocRun? (run ++ rest) = .ok (some (run, rest)))
    (hcomment : DocComment.parse? p (String.ofList run) = some comment)
    (hreturn : '\r' ∉ prose.toList) (hends : rest ≠ [] → EndsLine prose.toList) :
    p.grammar.SameFront (run ++ rest)
      ((e.convert (Document.markUp p comment.indent comment.delimiter prose)).toList ++ rest) := by
  have hmargin : ∀ c ∈ indent (run ++ rest), Text.isBlank c = true := fun c hc =>
    List.mem_takeWhile_imp hc
  obtain ⟨hindent, ⟨hd, hdoc, hrest⟩ | ⟨hnone, b, hb, hdelimiter, closing, hfor, -⟩⟩ :=
    markup_cases hp hrun hcomment
  · rw [hindent]
    exact (rewrites_of_lineComment hp hd hmargin rfl hdoc hrest hreturn hends).sameFront
  · rw [hindent, hdelimiter, toList_markUp_blockComment hp hb hfor hmargin e hreturn]
    exact sameFront_blockComment hp hb hfor hmargin e prose.toList rfl hnone

/-- Prose in the markup of a doc run takes the place of the run, if it does not hold the delimiter
    that closes the run. -/
theorem rewrites_of_cutDocRun? [RegexLibrary] (hp : p.HasPlainComments)
    (hrun : p.grammar.cutDocRun? (run ++ rest) = .ok (some (run, rest)))
    (hcomment : DocComment.parse? p (String.ofList run) = some comment)
    (hclosing : ∀ closing ∈ comment.closing? p, ¬ closing.toList <:+: prose.toList)
    (hreturn : '\r' ∉ prose.toList) (hends : rest ≠ [] → EndsLine prose.toList) :
    Rewrites p run rest
      (e.convert (Document.markUp p comment.indent comment.delimiter prose)).toList
        prose.toList := by
  have hmargin : ∀ c ∈ indent (run ++ rest), Text.isBlank c = true := fun c hc =>
    List.mem_takeWhile_imp hc
  obtain ⟨hindent, ⟨hd, hdoc, hrest⟩ | ⟨hnone, b, hb, hdelimiter, closing, hfor, hcloses⟩⟩ :=
    markup_cases hp hrun hcomment
  · rw [hindent]
    exact rewrites_of_lineComment hp hd hmargin rfl hdoc hrest hreturn hends
  · rw [hindent, hdelimiter]
    exact rewrites_of_blockComment hp hb hfor hmargin rfl hnone (hclosing closing hcloses) hreturn
      hends

end LiterateSync
