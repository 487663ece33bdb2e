import LiterateSync.Proofs.Segment.Rewriting

namespace LiterateSync

open Grammar

namespace Text

theorem count_dropPrefix {needle : List Char} (hneedle : '\n' ∉ needle) (s : List Char) :
    (dropPrefix needle s).count '\n' = s.count '\n' := by
  rw [dropPrefix]
  cases hafter : afterPrefix? needle s with
  | none => rfl
  | some r =>
    rw [afterPrefix?_eq_some_iff.1 hafter, List.count_append,
      List.count_eq_zero_of_not_mem hneedle, Nat.zero_add]
    rfl

theorem count_flatMap_lines {f : List Char → List Char}
    (hf : ∀ line, (f line).count '\n' = line.count '\n') (s : List Char) :
    ((lines s).flatMap f).count '\n' = s.count '\n' := by
  have hcount : List.count '\n' ∘ f = List.count '\n' := funext hf
  rw [List.count_flatMap, hcount, ← List.count_flatten, flatten_lines]

theorem count_intercalate (xs : List (List Char)) :
    (['\n'].intercalate xs).count '\n' = xs.flatten.count '\n' + (xs.length - 1) := by
  induction xs with
  | nil => rfl
  | cons x xs ih =>
    cases xs with
    | nil => simp
    | cons y ys =>
      rw [List.intercalate_cons_cons, List.count_append, List.count_append, ih]
      simp
      omega

theorem intercalate_fields (s : List Char) : ['\n'].intercalate (fields '\n' s) = s := by
  induction s using lines_induction with
  | nil => rfl
  | last w _ hw => rw [fields_last hw, List.intercalate_singleton]
  | line w s hw ih =>
    rw [fields_line hw, DocComment.intercalate_cons _ _ (fields_ne_nil s), ih]
    simp

end Text

namespace DocComment

variable {margin prose inner tail : List Char}

theorem count_proseOfLine {delimiter : List Char} (hmargin : '\n' ∉ margin)
    (hdelimiter : '\n' ∉ delimiter) (line : List Char) :
    (proseOfLine margin delimiter line).count '\n' = line.count '\n' := by
  rw [proseOfLine, Text.count_dropPrefix (by simp), Text.count_dropPrefix hdelimiter,
    Text.count_dropPrefix hmargin]

theorem count_sourceOfLine {delimiter : List Char} (hmargin : '\n' ∉ margin)
    (hdelimiter : '\n' ∉ delimiter) (line : List Char) :
    (sourceOfLine margin delimiter line).count '\n' = line.count '\n' := by
  rw [sourceOfLine_eq]
  simp only [List.count_append, List.count_eq_zero_of_not_mem hmargin,
    List.count_eq_zero_of_not_mem hdelimiter,
    List.count_eq_zero_of_not_mem (not_mem_gapOfLine line), Nat.zero_add]

theorem count_sourceOfLines {delimiter : List Char} (hmargin : '\n' ∉ margin)
    (hdelimiter : '\n' ∉ delimiter) (prose : List Char) :
    (sourceOfLines margin delimiter prose).count '\n' = prose.count '\n' :=
  Text.count_flatMap_lines (count_sourceOfLine hmargin hdelimiter) prose

/-- Lines that are changed within, the first one apart, have as many line feeds between them. -/
theorem count_intercalate_map {f : List Char → List Char}
    (hf : ∀ line, (f line).count '\n' = line.count '\n') (l : List Char) (ls : List (List Char)) :
    (['\n'].intercalate (l :: ls.map f)).count '\n' =
      (['\n'].intercalate (l :: ls)).count '\n' := by
  rw [Text.count_intercalate, Text.count_intercalate]
  simp [List.count_flatten, Function.comp_def, hf]

theorem count_innerOfBlock (hmargin : '\n' ∉ margin) (body : List Char) :
    (innerOfBlock margin body).count '\n' = body.count '\n' := by
  conv_rhs => rw [← Text.intercalate_fields body]
  rw [innerOfBlock]
  cases Text.fields '\n' body with
  | nil => rfl
  | cons l ls =>
    refine count_intercalate_map (fun line => ?_) l ls
    split
    · rfl
    · rw [List.count_append, List.count_eq_zero_of_not_mem hmargin, Nat.zero_add]

theorem count_dropIndents (hmargin : '\n' ∉ margin) (inner : List Char) :
    (['\n'].intercalate (dropIndents margin (Text.fields '\n' inner))).count '\n' =
      inner.count '\n' := by
  conv_rhs => rw [← Text.intercalate_fields inner]
  cases Text.fields '\n' inner with
  | nil => rfl
  | cons l ls => exact count_intercalate_map (Text.count_dropPrefix hmargin) l ls

theorem count_dropLastSpace (s : List Char) : (dropLastSpace s).count '\n' = s.count '\n' := by
  rw [dropLastSpace]
  cases hspace : Text.beforeSuffix? [' '] s with
  | none => rfl
  | some r => simp [Text.beforeSuffix?_eq_some_iff.1 hspace]

theorem count_sourceOfBlock {opening closing : List Char} (hmargin : '\n' ∉ margin)
    (hopening : '\n' ∉ opening) (hclosing : '\n' ∉ closing) (prose : List Char) :
    (sourceOfBlock margin opening closing prose).count '\n' = prose.count '\n' := by
  have hgap : '\n' ∉ gapOfBlock (bodyOfBlock prose) := fun hfeed =>
    absurd (eq_space_of_mem_gapOfBlock hfeed) (by decide)
  conv_rhs => rw [← bodyOfBlock_append_tailOfBlock prose]
  rw [sourceOfBlock_eq]
  simp only [List.count_append, List.count_eq_zero_of_not_mem hmargin,
    List.count_eq_zero_of_not_mem hopening, List.count_eq_zero_of_not_mem hclosing,
    List.count_eq_zero_of_not_mem hgap, count_innerOfBlock hmargin]
  simp

/-- The prose of a block comment has the line feeds that stand between the delimiters, and one for
    all that stand behind them. -/
theorem count_proseOfBlock (hmargin : '\n' ∉ margin) (htail : tail.count '\n' ≤ 1)
    (inner : List Char) :
    (proseOfBlock margin inner tail).count '\n' = inner.count '\n' + tail.count '\n' := by
  have hinner : (['\n'].intercalate (dropIndents margin (Text.fields '\n'
      (dropLastSpace (Text.dropPrefix [' '] inner))))).count '\n' = inner.count '\n' := by
    rw [count_dropIndents hmargin, count_dropLastSpace, Text.count_dropPrefix (by simp)]
  rw [proseOfBlock]
  split
  · rename_i hmem
    have hpos := List.count_pos_iff.2 (List.contains_iff_mem.1 hmem)
    rw [List.count_append, hinner, List.count_singleton_self]
    omega
  · rename_i hmem
    rw [hinner, List.count_eq_zero_of_not_mem fun h => hmem (List.contains_iff_mem.2 h),
      Nat.add_zero]

theorem endsLine_sourceOfLines {delimiter : List Char} (h : EndsLine prose) :
    EndsLine (sourceOfLines margin delimiter prose) := by
  induction prose using Text.lines_induction with
  | nil => cases h
  | last w _ hw => exact absurd h.mem hw
  | line w s hw ih =>
    rw [sourceOfLines_line hw]
    by_cases hnil : s = []
    · subst hnil
      exact EndsLine.append_left (t := ['\n']) rfl _
    · rw [EndsLine, List.getLast?_append_of_ne_nil _ (List.cons_ne_nil _ s)] at h
      exact ((ih (EndsLine.of_cons h hnil)).append_left ['\n']).append_left _

theorem endsLine_sourceOfBlock {opening closing : List Char} (h : EndsLine prose) :
    EndsLine (sourceOfBlock margin opening closing prose) := by
  obtain ⟨body, hbody⟩ := List.getLast?_eq_some_iff.1 h
  rw [sourceOfBlock_eq, tailOfBlock, Text.beforeSuffix?_eq_some_iff.2 hbody]
  exact EndsLine.append_left (t := ['\n']) rfl _

end DocComment

theorem Grammar.count_cutLineEnd? {s lineEnd rest : List Char}
    (h : cutLineEnd? s = some (lineEnd, rest)) : lineEnd.count '\n' ≤ 1 := by
  have hidle : (s.takeWhile fun c => Text.isBlank c || c = '\r').count '\n' = 0 :=
    List.count_eq_zero_of_not_mem fun hmem => by
      have hfeed := List.mem_takeWhile_imp hmem
      cases hfeed
  unfold cutLineEnd? at h
  simp only at h
  split at h
  · rename_i hall
    cases h
    rw [← List.takeWhile_append_dropWhile (p := fun c => Text.isBlank c || c = '\r') (l := s), hall,
      List.append_nil, hidle]
    exact Nat.zero_le 1
  · split at h
    · cases h
      rw [List.count_append, hidle, Nat.zero_add]
      exact List.count_le_length
    · cases h

section Comment

variable {p : Profile} {run rest : List Char} {comment : DocComment}

/-- The markup of a comment stands on one line. -/
theorem not_mem_of_parse? (hp : p.HasPlainComments)
    (h : DocComment.parse? p (String.ofList run) = some comment) :
    '\n' ∉ comment.indent.toList ∧ '\n' ∉ comment.delimiter.toList := by
  rw [parse?_ofList p []] at h
  split at h
  · rename_i d hd
    cases h
    rw [String.toList_ofList]
    exact ⟨not_mem_indent (by decide) run,
      (hp.line d (Text.mem_longestFirst.1 (List.mem_of_find?_eq_some hd))).not_mem (by simp)⟩
  · obtain ⟨b, hb, hfound⟩ := Option.bind_eq_some_iff.1 h
    obtain ⟨found, -, rfl⟩ := Option.map_eq_some_iff.1 hfound
    rw [String.toList_ofList]
    exact ⟨not_mem_indent (by decide) run,
      (hp.opening b (Text.mem_longestFirst.1 (List.mem_of_find?_eq_some hb))).not_mem (by simp)⟩

/-- The prose of a doc run has as many line feeds as the run. -/
theorem count_contents [RegexLibrary] (hp : p.HasPlainComments)
    (hrun : p.grammar.cutDocRun? (run ++ rest) = .ok (some (run, rest)))
    (hcomment : DocComment.parse? p (String.ofList run) = some comment) :
    comment.contents.toList.count '\n' = run.count '\n' := by
  obtain ⟨-, hcases⟩ := markup_cases hp hrun hcomment
  have hmargin := not_mem_indent (c := '\n') (by decide) run
  rw [parse?_ofList p []] at hcomment
  split at hcomment
  · rename_i d hd
    cases hcomment
    have hplain := hp.line d (Text.mem_longestFirst.1 (List.mem_of_find?_eq_some hd))
    rw [String.toList_ofList]
    exact Text.count_flatMap_lines
      (DocComment.count_proseOfLine hmargin (hplain.not_mem (by simp))) run
  · obtain ⟨b, hb, hfound⟩ := Option.bind_eq_some_iff.1 hcomment
    obtain ⟨⟨inner, tail⟩, hsplit, rfl⟩ := Option.map_eq_some_iff.1 hfound
    have hmem := Text.mem_longestFirst.1 (List.mem_of_find?_eq_some hb)
    have hclosing := (hp.closing b hmem).not_mem (c := '\n') (by simp)
    have hopening := (hp.opening b hmem).not_mem (c := '\n') (by simp)
    obtain ⟨hline, -⟩ | ⟨hnone, -⟩ := hcases
    · have hnot := hp.isLineComment_opening hmem
      rw [Profile.isLineComment, ← Bool.not_eq_true, List.contains_iff_mem] at hnot
      exact absurd hline hnot
    obtain ⟨b', inside, lineEnd, -, hb', hindent, hunindented, hend⟩ :=
      exists_blockRun (by rw [docDelimiter?, hnone]) hrun
    obtain rfl : b = b' := Option.some.inj (hb.symm.trans hb')
    rw [hunindented, List.drop_left' String.length_toList] at hsplit
    have hbody := Text.append_of_splitLast? hsplit
    -- the closing delimiter that is found last is followed by no more than the one of the run
    have htail : tail.count '\n' ≤ 1 := by
      have hlen := Text.length_le_of_splitLast? hsplit rfl
      have hshort : tail <:+ inner ++ b.closing.toList ++ tail := List.suffix_append _ _
      have hsuffix : tail <:+ lineEnd := by
        refine List.suffix_of_suffix_length_le hshort ?_ hlen
        rw [← hbody]
        exact List.suffix_append _ _
      exact (hsuffix.sublist.count_le '\n').trans (count_cutLineEnd? hend)
    rw [String.toList_ofList, DocComment.count_proseOfBlock hmargin htail,
      ← indent_append_unindented run, hunindented, hbody]
    simp only [List.count_append, List.count_eq_zero_of_not_mem hmargin,
      List.count_eq_zero_of_not_mem hopening, List.count_eq_zero_of_not_mem hclosing]
    omega

end Comment

namespace Document

variable {p : Profile} {margin delimiter prose : String}

/-- Prose that ends a line does so in its markup. -/
theorem endsLine_markUp (margin delimiter : String) (h : EndsLine prose.toList) :
    EndsLine (markUp p margin delimiter prose).toList := by
  rw [markUp, DocComment.toSource?]
  split
  · rw [if_neg (by simpa using h.ne_nil), Option.getD_some, String.toList_ofList]
    exact DocComment.endsLine_sourceOfLines h
  · cases p.closingFor? delimiter with
    | none => exact h
    | some closing =>
      rw [Option.map_some, Option.getD_some, String.toList_ofList]
      exact DocComment.endsLine_sourceOfBlock h

/-- Markup neither makes nor loses line feeds. -/
theorem count_markUp (hmargin : '\n' ∉ margin.toList) (hdelimiter : '\n' ∉ delimiter.toList)
    (hclosing : ∀ closing ∈ p.closingFor? delimiter, '\n' ∉ closing.toList) (prose : String) :
    (markUp p margin delimiter prose).toList.count '\n' = prose.toList.count '\n' := by
  rw [markUp, DocComment.toSource?]
  split
  · split
    · rename_i hempty
      obtain rfl := String.isEmpty_iff.1 hempty
      rw [Option.getD_some, String.toList_ofList, List.count_eq_zero_of_not_mem (by
        simp [hmargin, hdelimiter])]
      rfl
    · rw [Option.getD_some, String.toList_ofList]
      exact DocComment.count_sourceOfLines hmargin hdelimiter prose.toList
  · cases hfor : p.closingFor? delimiter with
    | none => rfl
    | some closing =>
      rw [Option.map_some, Option.getD_some, String.toList_ofList]
      exact DocComment.count_sourceOfBlock hmargin hdelimiter (hclosing closing hfor) prose.toList

end Document

end LiterateSync
