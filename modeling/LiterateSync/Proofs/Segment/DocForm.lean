import LiterateSync.Proofs.Segment.Rendering
import LiterateSync.Proofs.Text.Fields

namespace LiterateSync

variable {p : Profile} {margin line run rest after s t : List Char} {d : String}

/-- The lines of a text that goes on behind the end of a line. -/
theorem Text.lines_append (hs : EndsLine s) (t : List Char) :
    Text.lines (s ++ t) = Text.lines s ++ Text.lines t := by
  induction s using Text.lines_induction with
  | nil => rfl
  | last w _ hw => exact absurd hs.mem hw
  | line w s hw ih =>
    rw [List.append_assoc, List.cons_append, Text.lines_line hw, Text.lines_line hw]
    by_cases hnil : s = []
    · rw [hnil]
      rfl
    · rw [ih (hs.of_append (List.cons_ne_nil _ s) |>.of_cons hnil), List.cons_append]

/-- A text without an end is its first line, and then its other lines. -/
theorem Text.lines_eq_cutLine (hs : s ≠ []) :
    Text.lines s = (Text.cutLine s).1 :: Text.lines (Text.cutLine s).2 := by
  by_cases hfeed : '\n' ∈ s
  · obtain ⟨w, t, rfl, hw⟩ := List.eq_append_cons_of_mem hfeed
    rw [Text.lines_line hw, DocComment.cutLine_line hw]
  · rw [Text.lines_last hs hfeed, DocComment.cutLine_last hfeed]
    rfl

namespace Profile

/-- Whether a line is a doc line with an indent and a delimiter: the delimiter stands behind
    the indent, no longer one opens a comment there, and a blank or the end of the line or of the
    text is behind it. -/
structure IsDocLine (p : Profile) (margin : List Char) (d : String) (line : List Char) : Prop where
  mem : d ∈ p.lineComments
  isBlank : ∀ c ∈ margin, Text.isBlank c = true
  exists_rest : ∃ rest, line = margin ++ (d.toList ++ rest) ∧ Grammar.isSeparated rest = true ∧
    ∀ d' ∈ p.lineComments, d'.toList <+: d.toList ++ rest → d'.utf8ByteSize ≤ d.utf8ByteSize

/-- The indent and the delimiter of a doc line. -/
def docKey? [RegexLibrary] (p : Profile) (line : List Char) : Option (List Char × String) :=
  (p.grammar.docDelimiter? (Grammar.unindented line)).map (Grammar.indent line, ·)

theorem docKey?_eq_some [RegexLibrary] :
    p.docKey? line = some (margin, d) ↔ Grammar.indent line = margin ∧
      p.grammar.docDelimiter? (Grammar.unindented line) = some d := by
  simp [docKey?, and_comm]

theorem docKey?_eq_some_iff [RegexLibrary] (hline : ∀ d ∈ p.lineComments, IsPlain d) :
    p.docKey? line = some (margin, d) ↔ p.IsDocLine margin d line := by
  rw [docKey?_eq_some]
  constructor
  · rintro ⟨rfl, hdoc⟩
    obtain ⟨hcomment, hseparated⟩ := Grammar.lineComment?_of_docDelimiter? hdoc
    obtain ⟨rest, hrest⟩ := Grammar.prefix_of_lineComment? hcomment
    rw [← hrest, List.drop_left' String.length_toList] at hseparated
    refine ⟨mem_grammar_lineComments.1 (List.mem_of_find?_eq_some hcomment),
      fun c hc => List.mem_takeWhile_imp hc, rest, ?_, hseparated, fun d' hd' hstarts => ?_⟩
    · rw [hrest, Grammar.indent_append_unindented]
    · exact size_le_of_lineComment? hcomment hd' (hrest ▸ hstarts)
  · rintro ⟨hmem, hmargin, rest, rfl, hseparated, -⟩
    obtain ⟨hindent, hunindented⟩ :=
      DocComment.indent_append_plain hmargin (hline d hmem) rest
    obtain ⟨d', -, rfl, hfind, -⟩ := exists_find?_longestFirst (fun d => d) hline hmem hseparated
    have hcomment : p.grammar.lineComment? (d'.toList ++ rest) = some d' := hfind
    rw [hindent, hunindented]
    exact ⟨rfl, by simp only [Grammar.docDelimiter?, hcomment,
      List.drop_left' String.length_toList, hseparated, if_true]⟩

/-- Whether a text is a run of doc lines with one indent and one delimiter, which the line behind
    it does not have. -/
def IsLineRun (p : Profile) (run after : List Char) : Prop :=
  ∃ margin d, run ≠ [] ∧ (∀ line ∈ Text.lines run, p.IsDocLine margin d line) ∧
    (after ≠ [] → EndsLine run ∧ ¬ p.IsDocLine margin d (Text.cutLine after).1)

/-- Whether a text is a block comment that stands alone on its lines: blanks, the longest delimiter
    that opens a comment there, a body that begins with a blank or a line ending and goes on up to
    the first closing delimiter, that delimiter, and blanks or carriage returns up to a
    line feed or to the end of the text. -/
def IsBlockRun (p : Profile) (run after : List Char) : Prop :=
  ∃ margin, ∃ b ∈ p.blockComments, ∃ body idle tail,
    run = margin ++ (b.opening.toList ++ body ++ b.closing.toList ++ (idle ++ tail)) ∧
    (∀ c ∈ margin, Text.isBlank c = true) ∧
    (∀ b' ∈ p.blockComments,
      b'.opening.toList <+: b.opening.toList ++ body ++ b.closing.toList ++ (idle ++ tail) →
        b'.opening.utf8ByteSize ≤ b.opening.utf8ByteSize) ∧
    p.closingFor? b.opening = some b.closing ∧
    body ≠ [] ∧ Grammar.isSeparated body = true ∧
    ¬ b.closing.toList <:+: body ++ b.closing.toList.dropLast ∧
    (∀ c ∈ idle, Text.isBlank c = true ∨ c = '\r') ∧ (tail = ['\n'] ∨ tail = [] ∧ after = [])

theorem not_mem_lineComments [RegexLibrary] (hline : ∀ d ∈ p.lineComments, IsPlain d) :
    ∀ d ∈ p.grammar.lineComments, '\n' ∉ d.toList :=
  fun d hd => (hline d (mem_grammar_lineComments.1 hd)).not_mem (by simp)

theorem docKey?_append [RegexLibrary] (hline : ∀ d ∈ p.lineComments, IsPlain d) (hs : '\n' ∈ s)
    (t : List Char) : p.docKey? (s ++ t) = p.docKey? s := by
  obtain ⟨hmem, hindent, hunindented⟩ := Grammar.indent_append_of_mem hs t
  rw [docKey?, docKey?, hindent, hunindented,
    Grammar.docDelimiter?_append (not_mem_lineComments hline) hmem]

/-- Whether a text begins with a doc line is told by its first line. -/
theorem docKey?_cutLine [RegexLibrary] (hline : ∀ d ∈ p.lineComments, IsPlain d) (s : List Char) :
    p.docKey? (Text.cutLine s).1 = p.docKey? s := by
  have happend := Text.append_cutLine s
  by_cases hrest : (Text.cutLine s).2 = []
  · rw [hrest, List.append_nil] at happend
    rw [happend]
  · have hkey := docKey?_append hline (endsLine_cutLine hrest).mem (Text.cutLine s).2
    rw [← hkey, happend]

/-- A text of which all lines have the same indent and delimiter begins with these. -/
theorem docKey?_of_forall_lines [RegexLibrary] (hline : ∀ d ∈ p.lineComments, IsPlain d)
    (hs : s ≠ []) {key : Option (List Char × String)}
    (h : ∀ line ∈ Text.lines s, p.docKey? line = key) : p.docKey? s = key := by
  rw [← docKey?_cutLine hline]
  refine h _ ?_
  rw [Text.lines_eq_cutLine hs]
  exact List.mem_cons_self

theorem lines_cutLine_fst (s : List Char) (hs : s ≠ []) :
    Text.lines (Text.cutLine s).1 = [(Text.cutLine s).1] := by
  by_cases hfeed : '\n' ∈ s
  · obtain ⟨w, t, rfl, hw⟩ := List.eq_append_cons_of_mem hfeed
    rw [DocComment.cutLine_line hw, Text.lines_line hw]
    rfl
  · rw [DocComment.cutLine_last hfeed, Text.lines_last hs hfeed]

/-- The lines that are taken into a run of doc lines have its indent and its delimiter. -/
theorem docKey?_of_mem_cutDocLines [RegexLibrary] (hline : ∀ d ∈ p.lineComments, IsPlain d)
    {before : List Char}
    (h : p.grammar.cutDocLines margin d before s = (before.reverse ++ run, rest)) :
    ∀ line ∈ Text.lines run, p.docKey? line = some (margin, d) := by
  fun_induction Grammar.cutDocLines p.grammar margin d before s generalizing run with
  | case1 before s hdoc ih =>
    obtain ⟨more, hmore⟩ := Grammar.exists_append_cutDocLines p.grammar margin d
      ((Text.cutLine s).1.reverseAux before) (Text.cutLine s).2
    have happend := Grammar.append_cutDocLines p.grammar margin d
      ((Text.cutLine s).1.reverseAux before) (Text.cutLine s).2
    rw [h, List.reverseAux_eq, List.reverse_append, List.reverse_reverse] at hmore happend
    rw [List.append_assoc, List.append_cancel_left_eq] at hmore
    subst hmore
    simp only [List.append_assoc, List.append_cancel_left_eq] at happend
    have hlines : ∀ line ∈ Text.lines more, p.docKey? line = some (margin, d) := ih (by
      rw [h, List.reverseAux_eq, List.reverse_append, List.reverse_reverse, List.append_assoc])
    have hkey : p.docKey? (Text.cutLine s).1 = some (margin, d) := by
      rw [docKey?_cutLine hline, docKey?_eq_some]
      exact hdoc.2
    have hfirst := lines_cutLine_fst s hdoc.1
    by_cases hnil : (Text.cutLine s).2 = []
    · obtain ⟨rfl, -⟩ := List.append_eq_nil_iff.1 (happend.trans hnil)
      rw [List.append_nil, hfirst]
      simpa using hkey
    · rw [Text.lines_append (endsLine_cutLine hnil), hfirst]
      exact List.forall_mem_cons.2 ⟨hkey, hlines⟩
  | case2 before s hstop =>
    obtain rfl : run = [] := by simpa using (Prod.mk.inj h).1
    simp [Text.lines]

end Profile

theorem Grammar.exists_of_cutLineEnd? {lineEnd : List Char}
    (h : Grammar.cutLineEnd? s = some (lineEnd, rest)) :
    ∃ idle tail, lineEnd = idle ++ tail ∧ (∀ c ∈ idle, Text.isBlank c = true ∨ c = '\r') ∧
      (tail = ['\n'] ∨ tail = [] ∧ rest = []) := by
  have hidle : ∀ c ∈ s.takeWhile (fun c => Text.isBlank c || c = '\r'),
      Text.isBlank c = true ∨ c = '\r' := by
    intro c hc
    simpa using List.mem_takeWhile_imp hc
  unfold Grammar.cutLineEnd? at h
  simp only at h
  split at h
  · rename_i hdrop
    cases h
    refine ⟨s.takeWhile fun c => Text.isBlank c || c = '\r', [], ?_, hidle, .inr ⟨rfl, rfl⟩⟩
    conv_lhs => rw [← List.takeWhile_append_dropWhile (p := fun c => Text.isBlank c || c = '\r')
      (l := s), hdrop]
  · split at h
    · rename_i hfeed
      cases h
      exact ⟨_, [_], rfl, hidle, .inl (by rw [hfeed])⟩
    · cases h

namespace Profile

/-- Nothing separates a delimiter without blanks and line endings from itself. -/
theorem isSeparated_plain (hd : IsPlain d) (s : List Char) :
    Grammar.isSeparated (d.toList ++ s) = false := by
  obtain ⟨c, more, hmore⟩ := List.exists_cons_of_ne_nil hd.1
  obtain ⟨hblank, hfeed, hreturn⟩ := hd.2 c (by simp [hmore])
  simp [hmore, Grammar.isSeparated, hblank, hfeed, hreturn]

theorem isLineRun_of_cutDocLines [RegexLibrary] (hline : ∀ d ∈ p.lineComments, IsPlain d)
    (h : p.grammar.cutDocLines margin d [] s = (run, rest)) (hrun : run ≠ [])
    (hends : rest ≠ [] → EndsLine run) : p.IsLineRun run rest := by
  refine ⟨margin, d, hrun, fun line hmem => ?_, fun hrest => ⟨hends hrest, fun hdoc => ?_⟩⟩
  · exact (docKey?_eq_some_iff hline).1 (docKey?_of_mem_cutDocLines hline h line hmem)
  · have hkey := (docKey?_eq_some_iff hline).2 hdoc
    rw [docKey?_cutLine hline, docKey?_eq_some] at hkey
    exact Grammar.cutDocLines_rest h hrest hkey

theorem isBlockRun_of_cutBlockComment [RegexLibrary]
    (hblock : ∀ b ∈ p.blockComments, IsPlain b.opening ∧ IsPlain b.closing) {b : BlockComment}
    {text behind lineEnd : List Char} (hb : p.grammar.blockComment? (Grammar.unindented s) = some b)
    (hseparated : Grammar.isSeparated ((Grammar.unindented s).drop b.opening.length) = true)
    (hcut : Grammar.cutBlockComment b (Grammar.unindented s) = .ok (text, behind))
    (hend : Grammar.cutLineEnd? behind = some (lineEnd, rest)) :
    p.IsBlockRun (Grammar.indent s ++ text ++ lineEnd) rest := by
  have hmem := mem_grammar_blockComments.1 (List.mem_of_find?_eq_some hb)
  obtain ⟨body, inside, hbody, hsplit, rfl⟩ :=
    Grammar.exists_of_cutBlockComment (Grammar.prefix_of_blockComment? hb) hcut
  obtain ⟨idle, tail, rfl, hidle, htail⟩ := Grammar.exists_of_cutLineEnd? hend
  have hwhole := Text.append_of_splitFirst? hsplit
  rw [hbody, List.drop_left' String.length_toList] at hseparated
  have hinside : inside ≠ [] := by
    rintro rfl
    rw [hwhole, List.nil_append, isSeparated_plain (hblock b hmem).2] at hseparated
    cases hseparated
  -- the comment is the first of those with its opening delimiter, as the longest one counts
  obtain ⟨b', -, heq, hfind, hfirst⟩ :=
    exists_find?_longestFirst BlockComment.opening (fun b hb => (hblock b hb).1) hmem hseparated
  have hb' : p.grammar.blockComment? (b.opening.toList ++ body) = some b' := hfind
  rw [hbody, hb', Option.some.injEq] at hb
  subst hb
  refine ⟨Grammar.indent s, b', hmem, inside, idle, tail, by simp only [List.append_assoc],
    fun c hc => List.mem_takeWhile_imp hc, fun b hb hstarts => ?_, by rw [closingFor?, hfirst]; rfl,
    hinside, ?_, Text.not_infix_of_splitFirst? (hblock b' hmem).2.1 hsplit, hidle, htail⟩
  · refine Profile.size_le_of_blockComment? hb' hb (hstarts.trans ⟨rest, ?_⟩)
    rw [hwhole, ← Grammar.append_of_cutLineEnd? hend]
    simp only [List.append_assoc]
  · rwa [hwhole, List.append_assoc, Grammar.isSeparated_append hinside] at hseparated

/-- A doc run is a run of doc lines as long as it can be, or a block comment alone on its lines. -/
theorem isRun_of_cutDocRun? [RegexLibrary] (hline : ∀ d ∈ p.lineComments, IsPlain d)
    (hblock : ∀ b ∈ p.blockComments, IsPlain b.opening ∧ IsPlain b.closing)
    (h : p.grammar.cutDocRun? s = .ok (some (run, rest))) (hs : s ≠ []) :
    p.IsLineRun run rest ∨ p.IsBlockRun run rest := by
  obtain ⟨d, -, hlines⟩ | ⟨-, b, text, lineEnd, behind, hb, hseparated, hcut, hend, rfl⟩ :=
    Grammar.cutDocRun?_cases h
  · exact .inl (isLineRun_of_cutDocLines hline hlines (Grammar.cutDocRun?_ne_nil h hs)
      (Grammar.endsLine_cutDocRun? h))
  · exact .inr (isBlockRun_of_cutBlockComment hblock hb hseparated hcut hend)

end Profile

end LiterateSync
