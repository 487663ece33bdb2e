import Mathlib.Data.List.TakeWhile
import LiterateSync.DocComment
import LiterateSync.Proofs.Segment.Lines
import LiterateSync.Proofs.Text.Search

namespace LiterateSync

theorem EndsLine.mem {s : List Char} (h : EndsLine s) : '\n' ∈ s :=
  List.mem_of_getLast? h

theorem Text.prefix_cutLine {needle s : List Char} (hneedle : '\n' ∉ needle) (h : needle <+: s) :
    needle <+: (Text.cutLine s).1 := by
  have happend := Text.append_cutLine s
  by_cases hrest : (Text.cutLine s).2 = []
  · rw [hrest, List.append_nil] at happend
    rwa [happend]
  · rw [← happend, Text.prefix_append_iff hneedle (endsLine_cutLine hrest).mem] at h
    exact h

namespace Grammar

variable {g : Grammar} {s run rest : List Char}

theorem opens_iff {d : String} : opens d s ↔ d.toList <+: s :=
  Text.isSome_afterPrefix?_iff

theorem not_mem_indent {c : Char} (hc : Text.isBlank c = false) (s : List Char) : c ∉ indent s :=
  fun hmem => by simpa [hc] using List.mem_takeWhile_imp hmem

/-- Text behind the indent of a line has that indent before it and begins with no blank. -/
theorem indent_append {more : List Char} (h : more <+: unindented s) :
    indent (indent s ++ more) = indent s ∧ unindented (indent s ++ more) = more := by
  have hblank : ∀ c ∈ indent s, Text.isBlank c = true := fun c hc => List.mem_takeWhile_imp hc
  have hmore : more.takeWhile Text.isBlank = [] ∧ more.dropWhile Text.isBlank = more := by
    cases more with
    | nil => exact ⟨rfl, rfl⟩
    | cons c more =>
      obtain ⟨r, hr⟩ := h
      rw [unindented] at hr
      have hc := List.head_dropWhile_not Text.isBlank (l := s) (by simp [← hr])
      simp only [← hr, List.cons_append, List.head_cons] at hc
      simp [hc]
  rw [indent, unindented, List.takeWhile_append_of_pos hblank, List.dropWhile_append_of_pos hblank,
    hmore.1, hmore.2, List.append_nil]
  exact ⟨rfl, rfl⟩

/-- The first of some delimiters that opens a text opens one that opens no other of them. -/
theorem find?_opens_eq_some {α : Type} (delimiter : α → String) {xs : List α} {x : α}
    {s t : List Char} (h : xs.find? (fun y => opens (delimiter y) s) = some x)
    (hx : opens (delimiter x) t) (ht : ∀ y ∈ xs, opens (delimiter y) t → opens (delimiter y) s) :
    xs.find? (fun y => opens (delimiter y) t) = some x := by
  obtain ⟨-, before, after, rfl, hbefore⟩ := List.find?_eq_some_iff_append.1 h
  refine List.find?_eq_some_iff_append.2 ⟨hx, before, after, rfl, fun y hy => ?_⟩
  have hnot := hbefore y hy
  simp only [Bool.not_eq_true', ← Bool.not_eq_true] at hnot ⊢
  exact fun hopens => hnot (ht y (List.mem_append_left _ hy) hopens)

theorem lineComment?_of_isPrefix {more : List Char} {d : String} (h : g.lineComment? s = some d)
    (hmore : more <+: s) (hd : d.toList <+: more) : g.lineComment? more = some d :=
  find?_opens_eq_some id h (opens_iff.2 hd) fun _ _ hopens =>
    opens_iff.2 ((opens_iff.1 hopens).trans hmore)

theorem blockComment?_of_isPrefix {more : List Char} {b : BlockComment}
    (h : g.blockComment? s = some b) (hmore : more <+: s) (hb : b.opening.toList <+: more) :
    g.blockComment? more = some b :=
  find?_opens_eq_some BlockComment.opening h (opens_iff.2 hb) fun _ _ hopens =>
    opens_iff.2 ((opens_iff.1 hopens).trans hmore)

theorem lineComment?_eq_none_of_isPrefix {more : List Char} (h : g.lineComment? s = none)
    (hmore : more <+: s) : g.lineComment? more = none := by
  rw [lineComment?, List.find?_eq_none] at h ⊢
  exact fun d hd hopens => h d hd (opens_iff.2 ((opens_iff.1 hopens).trans hmore))

theorem prefix_of_lineComment? {d : String} (h : g.lineComment? s = some d) : d.toList <+: s :=
  opens_iff.1 (List.find?_some (p := fun d => opens d s) h)

theorem prefix_of_blockComment? {b : BlockComment} (h : g.blockComment? s = some b) :
    b.opening.toList <+: s :=
  opens_iff.1 (List.find?_some (p := fun b : BlockComment => opens b.opening s) h)

/-- A block comment is what stands between its delimiters, and the delimiters. -/
theorem cutBlockComment_append {b : BlockComment} {body inside behind : List Char}
    (h : Text.splitFirst? b.closing.toList body = some (inside, behind)) :
    cutBlockComment b (b.opening.toList ++ body) =
      .ok (b.opening.toList ++ inside ++ b.closing.toList, behind) := by
  rw [cutBlockComment, ← String.length_toList, List.drop_left, h, List.take_left]

theorem exists_of_cutBlockComment {b : BlockComment} {text behind : List Char}
    (hb : b.opening.toList <+: s) (h : cutBlockComment b s = .ok (text, behind)) :
    ∃ body inside, s = b.opening.toList ++ body ∧
      Text.splitFirst? b.closing.toList body = some (inside, behind) ∧
      text = b.opening.toList ++ inside ++ b.closing.toList := by
  obtain ⟨body, rfl⟩ := hb
  rw [cutBlockComment, ← String.length_toList, List.drop_left, List.take_left] at h
  split at h
  · rename_i inside rest hsplit
    cases h
    exact ⟨body, inside, rfl, hsplit, rfl⟩
  · cases h

/-- A block comment is not cut only if it is not closed. -/
theorem cutBlockComment_eq_error {b : BlockComment} {body : List Char} {fault : ScanFault}
    (h : cutBlockComment b (b.opening.toList ++ body) = .error fault) :
    fault = .unclosed (b.opening.toList ++ body) b ∧
      Text.splitFirst? b.closing.toList body = none := by
  rw [cutBlockComment, ← String.length_toList, List.drop_left] at h
  split at h
  · cases h
  · rename_i hnone
    cases h
    exact ⟨rfl, hnone⟩

theorem lineComment?_of_docDelimiter? {d : String} (h : g.docDelimiter? s = some d) :
    g.lineComment? s = some d ∧ isSeparated (s.drop d.length) = true := by
  unfold docDelimiter? at h
  split at h
  · cases h
  · split at h
    · cases h
      exact ⟨by assumption, by assumption⟩
    · cases h

theorem exists_append_cutDocLines (g : Grammar) (margin : List Char) (d : String)
    (before s : List Char) :
    ∃ more, (g.cutDocLines margin d before s).1 = before.reverse ++ more := by
  fun_induction cutDocLines g margin d before s with
  | case1 before s _ ih =>
    obtain ⟨more, hmore⟩ := ih
    refine ⟨(Text.cutLine s).1 ++ more, hmore.trans ?_⟩
    simp [List.reverseAux_eq]
  | case2 before s _ => exact ⟨[], by simp⟩

/-- A run of doc lines begins with the indent and the delimiter of its first line. -/
theorem prefix_cutDocLines {d : String} (hd : '\n' ∉ d.toList)
    (hdoc : g.docDelimiter? (unindented s) = some d)
    (h : g.cutDocLines (indent s) d [] s = (run, rest)) : indent s ++ d.toList <+: run := by
  have hopens := prefix_of_lineComment? (lineComment?_of_docDelimiter? hdoc).1
  have hstarts : indent s ++ d.toList <+: s := by
    rw [← List.prefix_append_right_inj (indent s), indent_append_unindented] at hopens
    exact hopens
  by_cases hs : s = []
  · rw [cutDocLines, if_neg fun hcond => hcond.1 hs] at h
    cases h
    rwa [hs] at hstarts ⊢
  · rw [cutDocLines, if_pos ⟨hs, rfl, hdoc⟩] at h
    obtain ⟨more, hmore⟩ := exists_append_cutDocLines g (indent s) d
      ((Text.cutLine s).1.reverseAux []) (Text.cutLine s).2
    rw [h, List.reverseAux_eq, List.append_nil, List.reverse_reverse] at hmore
    obtain rfl : run = _ := hmore
    refine (Text.prefix_cutLine ?_ hstarts).trans (List.prefix_append _ _)
    rw [List.mem_append, not_or]
    exact ⟨not_mem_indent (by decide) s, hd⟩

/-- A run of doc lines goes on as far as it can. -/
theorem cutDocLines_rest {margin : List Char} {d : String}
    {before : List Char} (h : g.cutDocLines margin d before s = (run, rest)) (hrest : rest ≠ []) :
    ¬ (indent rest = margin ∧ g.docDelimiter? (unindented rest) = some d) := by
  fun_induction cutDocLines g margin d before s with
  | case1 before s _ ih => exact ih h
  | case2 before s hstop =>
    cases h
    exact fun hfront => hstop ⟨hrest, hfront⟩

/-- The comment that a text spells, by the delimiters that open it. -/
theorem parse?_ofList (p : Profile) (k : List (Heredoc × Regex)) (s : List Char) :
    DocComment.parse? p (String.ofList s) =
      match (p.grammarWith k).lineComment? (unindented s) with
      | some d =>
        some ⟨String.ofList (indent s), d,
          String.ofList ((Text.lines s).flatMap (DocComment.proseOfLine (indent s) d.toList))⟩
      | none => ((p.grammarWith k).blockComment? (unindented s)).bind fun b =>
        (Text.splitLast? b.closing.toList ((unindented s).drop b.opening.length)).map fun found =>
          ⟨String.ofList (indent s), b.opening,
            String.ofList (DocComment.proseOfBlock (indent s) found.1 found.2)⟩ := by
  have hlines : p.lineCommentsLongestFirst.find? (fun d =>
      (Text.afterPrefix? d.toList (s.dropWhile Text.isBlank)).isSome) =
        (p.grammarWith k).lineComment? (unindented s) := rfl
  have hblocks : p.blockCommentsLongestFirst.find? (fun b =>
      (Text.afterPrefix? b.opening.toList (s.dropWhile Text.isBlank)).isSome) =
        (p.grammarWith k).blockComment? (unindented s) := rfl
  rw [DocComment.parse?, String.toList_ofList, hlines, hblocks]
  cases (p.grammarWith k).lineComment? (unindented s) with
  | some d => rfl
  | none =>
    cases (p.grammarWith k).blockComment? (unindented s) with
    | none => rfl
    | some b =>
      simp only [Option.bind_eq_bind, Option.bind_some, unindented]
      cases Text.splitLast? b.closing.toList ((s.dropWhile Text.isBlank).drop b.opening.length) <;>
        rfl

/-- A doc run of a block comment has the indent of the text before the delimiters of the comment, and
    the end of its line behind them. -/
theorem exists_blockRun (hnone : g.docDelimiter? (unindented s) = none)
    (h : g.cutDocRun? s = .ok (some (run, rest))) :
    ∃ b inside lineEnd, g.blockComment? (unindented s) = some b ∧
      g.blockComment? (unindented run) = some b ∧ indent run = indent s ∧
      unindented run = b.opening.toList ++ (inside ++ b.closing.toList ++ lineEnd) ∧
      cutLineEnd? (lineEnd ++ rest) = some (lineEnd, rest) := by
  obtain ⟨d, hdoc, -⟩ | ⟨-, b, text, lineEnd, behind, hb, -, hblock, hend, rfl⟩ := cutDocRun?_cases h
  · rw [hnone] at hdoc
    cases hdoc
  · obtain ⟨body, inside, -, -, rfl⟩ := exists_of_cutBlockComment (prefix_of_blockComment? hb) hblock
    have hmore : b.opening.toList ++ inside ++ b.closing.toList ++ lineEnd <+: unindented s := by
      refine ⟨rest, ?_⟩
      rw [List.append_assoc _ lineEnd, append_of_cutLineEnd? hend,
        append_of_cutBlockComment hblock]
    obtain ⟨hindent, hunindented⟩ := indent_append hmore
    rw [List.append_assoc, hindent, hunindented]
    exact ⟨b, inside, lineEnd, hb, blockComment?_of_isPrefix hb hmore (by simp), rfl, by simp,
      by rwa [append_of_cutLineEnd? hend]⟩

/-- Only a block comment that is not closed keeps a doc run from being cut. -/
theorem exists_of_cutDocRun?_eq_error {fault : ScanFault} (h : g.cutDocRun? s = .error fault) :
    ∃ b body, g.blockComment? (unindented s) = some b ∧
      unindented s = b.opening.toList ++ body ∧
      Text.splitFirst? b.closing.toList body = none ∧ fault = .unclosed (unindented s) b := by
  unfold cutDocRun? at h
  simp only at h
  split at h
  · cases h
  · split at h
    · cases h
    · rename_i b hb
      split at h
      · obtain ⟨body, hbody⟩ := prefix_of_blockComment? hb
        cases hcut : cutBlockComment b (unindented s) with
        | error fault' =>
          rw [hcut] at h
          cases h
          rw [← hbody] at hcut
          obtain ⟨hfault, hnone⟩ := cutBlockComment_eq_error hcut
          exact ⟨b, body, hb, hbody.symm, hnone, by rw [hfault, hbody]⟩
        | ok found => simp [hcut, Except.map] at h
      · cases h

/-- A text on one line that a doc run and what is behind it begin with, after the indent, lies
    within the run. -/
theorem prefix_unindented_of_cutDocRun? (h : g.cutDocRun? s = .ok (some (run, rest)))
    {needle : List Char} (hneedle : '\n' ∉ needle) (hstarts : needle <+: unindented run ++ rest) :
    needle <+: unindented run := by
  by_cases hrest : rest = []
  · rwa [hrest, List.append_nil] at hstarts
  · have hmem := (endsLine_cutDocRun? h hrest).mem
    rw [← indent_append_unindented run, List.mem_append] at hmem
    have hfeed := hmem.resolve_left (not_mem_indent (by decide) run)
    exact (Text.prefix_append_iff hneedle hfeed rest).1 hstarts

/-- A doc run spells a comment with its own indent. Its delimiter is the line comment that opens
    behind the indent, or that of the block comment if none does, where no delimiter of line
    comments goes over the end of a line. -/
theorem exists_parse?_of_cutDocRun? [RegexLibrary] {p : Profile}
    (hfeed : ∀ d ∈ p.grammar.lineComments, '\n' ∉ d.toList)
    (h : p.grammar.cutDocRun? s = .ok (some (run, rest))) :
    ∃ comment, DocComment.parse? p (String.ofList run) = some comment ∧
      comment.indent = String.ofList (indent s) ∧ indent run = indent s ∧
      (∀ d, p.grammar.lineComment? (unindented s) = some d → comment.delimiter = d) ∧
      (p.grammar.lineComment? (unindented s) = none →
        ∃ b, p.grammar.blockComment? (unindented s) = some b ∧ comment.delimiter = b.opening) := by
  have happend := append_of_cutDocRun? h
  obtain ⟨d, hdoc, hlines⟩ | ⟨hnone, -⟩ := cutDocRun?_cases h
  · have hline := (lineComment?_of_docDelimiter? hdoc).1
    have hd := hfeed d (List.mem_of_find?_eq_some hline)
    obtain ⟨more, rfl⟩ := prefix_cutDocLines hd hdoc hlines
    have hmore : d.toList ++ more <+: unindented s := by
      rw [← List.prefix_append_right_inj (indent s), indent_append_unindented]
      exact ⟨rest, by simpa only [List.append_assoc] using happend⟩
    obtain ⟨hindent, hunindented⟩ := indent_append hmore
    rw [List.append_assoc, parse?_ofList, hindent, hunindented,
      lineComment?_of_isPrefix hline hmore (List.prefix_append _ _)]
    refine ⟨_, rfl, rfl, rfl, fun d' hd' => Option.some.inj (hline.symm.trans hd'), fun hnone => ?_⟩
    rw [hline] at hnone
    cases hnone
  · obtain ⟨b', inside, lineEnd, hb, hopens, hindent, hunindented, -⟩ := exists_blockRun hnone h
    have hwhole : unindented run ++ rest = unindented s := by
      rw [← List.append_cancel_left_eq (indent s), indent_append_unindented, ← List.append_assoc,
        ← hindent, indent_append_unindented, happend]
    have hmore : unindented run <+: unindented s := ⟨rest, hwhole⟩
    rw [parse?_ofList, hindent]
    cases hline : p.grammar.lineComment? (unindented s) with
    | some d =>
      have hd := hfeed d (List.mem_of_find?_eq_some hline)
      have hstarts := prefix_unindented_of_cutDocRun? h hd (hwhole ▸ prefix_of_lineComment? hline)
      rw [lineComment?_of_isPrefix hline hmore hstarts]
      exact ⟨_, rfl, rfl, rfl, fun d' hd' => Option.some.inj hd', nofun⟩
    | none =>
      rw [lineComment?_eq_none_of_isPrefix hline hmore, hopens, Option.bind_some]
      have hfound : (Text.splitLast? b'.closing.toList
          ((unindented run).drop b'.opening.length)).isSome := by
        rw [Text.isSome_splitLast?_iff, hunindented, List.drop_left' String.length_toList]
        exact List.infix_append _ _ _
      obtain ⟨found, hfound⟩ := Option.isSome_iff_exists.1 hfound
      rw [hfound]
      exact ⟨_, rfl, rfl, rfl, nofun, fun _ => ⟨b', hb, rfl⟩⟩

end Grammar

end LiterateSync
