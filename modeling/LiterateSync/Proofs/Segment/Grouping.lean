import Mathlib.Data.List.SplitBy
import LiterateSync.Proofs.Segment.DocForm
import LiterateSync.Proofs.Segment.Faults
import LiterateSync.Proofs.Segment.Parts
import LiterateSync.Text.Pattern.Library

namespace LiterateSync

namespace Grammar

variable {g : Grammar} {before s t : List Char}

/-- Whether nothing but line comments opens anywhere in a text. -/
def OpensLinesOnly (g : Grammar) (s : List Char) : Prop :=
  ∀ t, t <:+ s → g.blockComment? t = none ∧ g.cutHeredoc? t = none ∧ g.string? t = none

theorem OpensLinesOnly.of_suffix (h : g.OpensLinesOnly s) (hs : t <:+ s) : g.OpensLinesOnly t :=
  fun u hu => h u (hu.trans hs)

/-- Without a continuation mark a line comment goes on up to the next line feed. -/
theorem cutLineComment_eq (h : g.continuation = none) (before s : List Char) :
    g.cutLineComment before s =
      (before.reverse ++ s.takeWhile (· != '\n'), s.dropWhile (· != '\n')) := by
  induction s generalizing before with
  | nil => simp [cutLineComment]
  | cons c s ih =>
    rw [cutLineComment, continues, h]
    by_cases hc : c = '\n'
    · simp [hc]
    · simp [hc, ih]

/-- Where nothing but line comments opens, a line of code goes on up to the next line feed. -/
theorem OpensLinesOnly.cutCodeLine_eq (hopens : g.OpensLinesOnly s)
    (hcontinuation : g.continuation = none) (before : List Char) :
    g.cutCodeLine [] before s = .ok (before.reverse ++ (Text.cutLine s).1, (Text.cutLine s).2) := by
  induction s generalizing before with
  | nil => simpa [Text.cutLine] using g.cutCodeLine_empty before
  | cons c s ih =>
    by_cases hc : c = '\n'
    · rw [hc, cutCodeLine_line_feed]
      simp [Text.cutLine]
    · obtain ⟨hblock, hheredoc, hstring⟩ := hopens (c :: s) (List.suffix_refl _)
      cases hline : g.lineComment? (c :: s) with
      | none =>
        have hmove : g.move [] (c :: s) = .ok ⟨[c], s, some []⟩ := by
          simp [move, hc, tokenMove, token?, hblock, hline, hheredoc, hstring]
        rw [cutCodeLine_of_move hmove rfl]
        simp only [List.reverseAux_cons, List.reverseAux_nil]
        rw [ih (hopens.of_suffix (List.suffix_cons c s))]
        simp [Text.cutLine, hc]
      | some d =>
        have hmove : g.move [] (c :: s) = .ok ⟨(c :: s).takeWhile (· != '\n'),
            (c :: s).dropWhile (· != '\n'), some []⟩ := by
          simp [move, hc, tokenMove, token?, hblock, hline, cutLineComment_eq hcontinuation,
            Token.enter]
        rw [cutCodeLine_of_move hmove rfl]
        cases hdrop : (c :: s).dropWhile (· != '\n') with
        | nil => simp [Text.cutLine, hdrop, cutCodeLine_empty, List.reverseAux_eq]
        | cons e r =>
          have he := List.head_dropWhile_not (fun c => c != '\n') (l := c :: s) (by simp [hdrop])
          obtain rfl : e = '\n' := by simpa [hdrop] using he
          simp [Text.cutLine, hdrop, cutCodeLine_line_feed, List.reverseAux_eq]

end Grammar

/-- The lines of joined code are those of the code. -/
theorem forall_lines_joinCode {q : List Char → Prop} {all : List Span}
    (hends : all.IsChain fun x _ => EndsLine x.chars)
    (h : ∀ x ∈ all, x.kind = .code → ∀ line ∈ Text.lines x.chars, q line) :
    ∀ x ∈ joinCode all, x.kind = .code → ∀ line ∈ Text.lines x.chars, q line := by
  induction all with
  | nil => simp [joinCode]
  | cons x all ih =>
    obtain ⟨kind, s⟩ := x
    obtain ⟨hs, hall⟩ := List.forall_mem_cons.1 h
    have htail := ih hends.of_cons hall
    cases kind with
    | doc =>
      rw [joinCode]
      exact List.forall_mem_cons.2 ⟨by simp, htail⟩
    | code =>
      rw [joinCode]
      split
      · rename_i t rest hjoined
        rw [hjoined] at htail
        obtain ⟨ht, hrest⟩ := List.forall_mem_cons.1 htail
        refine List.forall_mem_cons.2 ⟨fun _ => ?_, hrest⟩
        have hend : EndsLine s := by
          cases all with
          | nil => cases hjoined
          | cons y all => exact (List.isChain_cons_cons.1 hends).1
        rw [Text.lines_append hend]
        exact List.forall_mem_append.2 ⟨hs rfl, ht rfl⟩
      · exact List.forall_mem_cons.2 ⟨hs, htail⟩

theorem lines_flatten {all : List Span} (hends : all.IsChain fun x _ => EndsLine x.chars) :
    Text.lines (all.map (·.chars)).flatten = (all.map fun x => Text.lines x.chars).flatten := by
  induction all with
  | nil => rfl
  | cons x all ih =>
    rw [List.map_cons, List.flatten_cons, List.map_cons, List.flatten_cons, ← ih hends.of_cons]
    cases all with
    | nil => simp [Text.lines]
    | cons y all => exact Text.lines_append (List.isChain_cons_cons.1 hends).1 _

namespace Profile

variable {p : Profile} {s : List Char} {all : List Span}

/-- The span that a group of lines makes up: a doc run, if a doc line is among them. -/
def spanOfLines [RegexLibrary] (p : Profile) (group : List (List Char)) : Span :=
  ⟨if group.any fun line => (p.docKey? line).isSome then .doc else .code, group.flatten⟩

/-- The groups of neighbouring lines with one indent and one delimiter, or without any. -/
def lineRuns [RegexLibrary] (p : Profile) (s : List Char) : List Span :=
  ((Text.lines s).splitBy fun line next => p.docKey? line = p.docKey? next).map p.spanOfLines

/-- Whether the lines of a span are doc lines with one indent and one delimiter, or no doc lines,
    as the kind of the span says. -/
structure IsGroup [RegexLibrary] (p : Profile) (x : Span) : Prop where
  ne_nil : x.chars ≠ []
  docKey? : ∀ line ∈ Text.lines x.chars, p.docKey? line = p.docKey? x.chars
  kind : x.kind = if (p.docKey? x.chars).isSome then .doc else .code

theorem lines_ne_nil (hs : s ≠ []) : Text.lines s ≠ [] := by
  rw [Text.lines_eq_cutLine hs]
  exact List.cons_ne_nil _ _

theorem spanOfLines_of_isGroup [RegexLibrary] {x : Span} (hx : p.IsGroup x) :
    p.spanOfLines (Text.lines x.chars) = x := by
  have hany : (Text.lines x.chars).any (fun line => (p.docKey? line).isSome) =
      (p.docKey? x.chars).isSome := by
    obtain ⟨line, more, hlines⟩ := List.exists_cons_of_ne_nil (lines_ne_nil hx.ne_nil)
    have hkeys := hx.docKey?
    rw [hlines] at hkeys ⊢
    rw [Bool.eq_iff_iff, List.any_eq_true]
    refine ⟨fun ⟨l, hl, hsome⟩ => hkeys l hl ▸ hsome, fun hsome => ⟨line, by simp, ?_⟩⟩
    rwa [hkeys line List.mem_cons_self]
  obtain ⟨kind, chars⟩ := x
  have hkind := hx.kind
  simp only at hkind hany ⊢
  rw [spanOfLines, hany, Text.flatten_lines, ← hkind]

/-- Groups of lines of which no two neighbouring ones are alike are the groups of the text that they
    make up. -/
theorem lineRuns_flatten [RegexLibrary] (hgroups : ∀ x ∈ all, p.IsGroup x)
    (hchain : all.IsChain fun x y => EndsLine x.chars ∧ p.docKey? x.chars ≠ p.docKey? y.chars) :
    p.lineRuns (all.map (·.chars)).flatten = all := by
  have hsplit : (all.map fun x => Text.lines x.chars).flatten.splitBy
      (fun line next => p.docKey? line = p.docKey? next) = all.map fun x => Text.lines x.chars := by
    refine List.splitBy_flatten ?_ ?_ ?_
    · simp only [List.mem_map, not_exists, not_and]
      exact fun x hx => lines_ne_nil (hgroups x hx).ne_nil
    · simp only [List.forall_mem_map]
      refine fun x hx => (List.pairwise_of_forall_mem_list fun l hl l' hl' => ?_).isChain
      rw [(hgroups x hx).docKey? l hl, (hgroups x hx).docKey? l' hl']
      simp
    · rw [List.isChain_map]
      refine hchain.imp_of_mem_imp fun x y hx hy hxy => ?_
      have hgx := hgroups x hx
      have hgy := hgroups y hy
      refine ⟨lines_ne_nil hgx.ne_nil, lines_ne_nil hgy.ne_nil, decide_eq_false ?_⟩
      rw [hgx.docKey? _ (List.getLast_mem _), hgy.docKey? _ (List.head_mem _)]
      exact hxy.2
  rw [lineRuns, lines_flatten (hchain.imp fun _ _ h => h.1), hsplit, List.map_map]
  refine (List.map_congr_left fun x hx => ?_).trans (List.map_id all)
  exact spanOfLines_of_isGroup (hgroups x hx)

/-- A run of doc lines has one indent and one delimiter, and the text behind it has another. -/
theorem IsLineRun.exists_docKey? [RegexLibrary] {run after : List Char}
    (hline : ∀ d ∈ p.lineComments, IsPlain d) (h : p.IsLineRun run after) :
    ∃ key, (∀ line ∈ Text.lines run, p.docKey? line = some key) ∧
      (after ≠ [] → p.docKey? after ≠ some key) := by
  obtain ⟨margin, d, -, hlines, hmax⟩ := h
  refine ⟨(margin, d), fun line hmem => (docKey?_eq_some_iff hline).2 (hlines line hmem),
    fun hafter hkey => (hmax hafter).2 ?_⟩
  rwa [← docKey?_cutLine hline, docKey?_eq_some_iff hline] at hkey

section LinesOnly

variable [RegexLibrary] (hline : ∀ d ∈ p.lineComments, IsPlain d)
    (hopens : p.grammar.OpensLinesOnly s)
  (hcontinuation : p.lineContinuation = none) (hall : p.grammar.spans s = .ok all)

include hline hopens hall

/-- The doc runs of a text in which no block comment opens are runs of doc lines. -/
theorem isLineRun_of_joinCode {before behind : List Span} {run : List Char}
    (hjoined : joinCode all = before ++ ⟨.doc, run⟩ :: behind) :
    p.IsLineRun run (behind.map (·.chars)).flatten := by
  obtain ⟨t, hne, rfl, -, hrun⟩ := Grammar.exists_cutDocRun?_of_joinCode hall hjoined
  obtain ⟨d, -, hlines⟩ | ⟨-, b, -, -, -, hb, -⟩ := Grammar.cutDocRun?_cases hrun
  · exact isLineRun_of_cutDocLines hline hlines (Grammar.cutDocRun?_ne_nil hrun hne)
      (Grammar.endsLine_cutDocRun? hrun)
  · have hsuffix : Grammar.unindented t <:+ (before.map (·.chars)).flatten ++ t :=
      (List.dropWhile_suffix Text.isBlank).trans (List.suffix_append _ t)
    rw [(hopens _ hsuffix).1] at hb
    cases hb

include hcontinuation

/-- The lines of code of a text in which nothing but line comments opens are no doc lines. -/
theorem docKey?_of_mem_joinCode :
    ∀ x ∈ joinCode all, x.kind = .code → ∀ line ∈ Text.lines x.chars, p.docKey? line = none := by
  refine forall_lines_joinCode (Grammar.spans_endsLine hall).2 fun x hx hkind => ?_
  obtain ⟨before, behind, rfl⟩ := List.append_of_mem hx
  obtain ⟨t, rfl, ht⟩ := Grammar.spans_append_eq_ok hall
  obtain ⟨hne, rest, -, -, hspan⟩ := Grammar.spans_eq_ok_cons ht
  rw [hkind] at hspan
  obtain ⟨hnone, hcut⟩ := hspan
  have hsuffix := List.suffix_append (before.map (·.chars)).flatten t
  rw [(hopens.of_suffix hsuffix).cutCodeLine_eq hcontinuation] at hcut
  obtain ⟨hchars, -⟩ := Prod.mk.inj (Except.ok.inj hcut)
  have hkey : p.docKey? t = none := by
    rw [docKey?, Option.map_eq_none_iff]
    cases hdoc : p.grammar.docDelimiter? (Grammar.unindented t) with
    | none => rfl
    | some d => simp [Grammar.cutDocRun?, hdoc] at hnone
  rw [List.reverse_nil, List.nil_append] at hchars
  rw [← hchars, lines_cutLine_fst t hne]
  simpa [docKey?_cutLine hline] using hkey

/-- The joined spans of a text in which nothing but line comments opens are groups of lines. -/
theorem isGroup_of_mem_joinCode : ∀ x ∈ joinCode all, p.IsGroup x := by
  obtain ⟨hne, -, -⟩ := isChain_joinCode (Grammar.spans_endsLine hall).1
    (Grammar.spans_endsLine hall).2
  rintro ⟨kind, chars⟩ hx
  obtain ⟨key, hlines, hkind⟩ : ∃ key, (∀ line ∈ Text.lines chars, p.docKey? line = key) ∧
      kind = if key.isSome then .doc else .code := by
    cases kind with
    | doc =>
      obtain ⟨before, behind, hjoined⟩ := List.append_of_mem hx
      obtain ⟨key, hlines, -⟩ :=
        (isLineRun_of_joinCode hline hopens hall hjoined).exists_docKey? hline
      exact ⟨some key, hlines, rfl⟩
    | code =>
      exact ⟨none, docKey?_of_mem_joinCode hline hopens hcontinuation hall _ hx rfl, rfl⟩
  have hkey := docKey?_of_forall_lines hline (hne _ hx) hlines
  exact ⟨hne _ hx, fun line hmem => (hlines line hmem).trans hkey.symm, hkey ▸ hkind⟩

/-- Neighbouring groups of lines are not alike: a doc run is as long as it can be, and code is
    joined. -/
theorem isChain_docKey?_joinCode : (joinCode all).IsChain fun x y =>
    EndsLine x.chars ∧ p.docKey? x.chars ≠ p.docKey? y.chars := by
  have hgroups := isGroup_of_mem_joinCode hline hopens hcontinuation hall
  obtain ⟨-, hmeets, -⟩ := isChain_joinCode (Grammar.spans_endsLine hall).1
    (Grammar.spans_endsLine hall).2
  rw [List.isChain_iff_forall_rel_of_append_cons_cons] at hmeets ⊢
  rintro ⟨kind, chars⟩ y before behind hjoined
  obtain ⟨hend, hkinds⟩ := hmeets hjoined
  have hx := hgroups ⟨kind, chars⟩ (by simp [hjoined])
  have hy := hgroups y (by simp [hjoined])
  refine ⟨hend, fun hsame => ?_⟩
  cases kind with
  | doc =>
    obtain ⟨key, hlines, hmax⟩ :=
      (isLineRun_of_joinCode hline hopens hall hjoined).exists_docKey? hline
    rw [docKey?_of_forall_lines hline hx.ne_nil hlines] at hsame
    rw [List.map_cons, List.flatten_cons] at hmax
    refine hmax (by simp [hy.ne_nil]) ?_
    cases behind with
    | nil => simpa using hsame.symm
    | cons z behind =>
      have hnext : joinCode all = (before ++ [⟨.doc, chars⟩]) ++ y :: z :: behind := by
        simp [hjoined]
      rw [docKey?_append hline (hmeets hnext).1.mem, hsame]
  | code =>
    have hkind := hy.kind
    rw [hkinds.resolve_left nofun, ← hsame] at hkind
    exact absurd (hx.kind.trans hkind.symm) nofun

/-- The joined spans of a text in which nothing but line comments opens are its groups of lines. -/
theorem joinCode_eq_lineRuns : joinCode all = p.lineRuns s := by
  rw [← lineRuns_flatten (isGroup_of_mem_joinCode hline hopens hcontinuation hall)
    (isChain_docKey?_joinCode hline hopens hcontinuation hall), flatten_joinCode,
    Grammar.flatten_of_spans hall]

end LinesOnly

/-- Where no delimiter of block comments, heredocs or literals occurs, only line comments open. -/
theorem opensLinesOnly_grammar [RegexLibrary]
    (hblocks : ∀ b ∈ p.blockComments, ¬ b.opening.toList <:+: s)
    (hheredocs : ∀ h ∈ p.heredocs, ¬ h.startPrefix.toList <:+: s)
    (hstrings : ∀ q ∈ p.strings, ¬ q.delimiter.toList <:+: s) : p.grammar.OpensLinesOnly s := by
  have hoccurs : ∀ {d t : List Char}, t <:+ s → ¬ d <:+: s → ¬ d <+: t :=
    fun ht hd hopens => hd (hopens.isInfix.trans ht.isInfix)
  refine fun t ht => ⟨Grammar.blockComment?_eq_none fun b hb => ?_,
    Grammar.cutHeredoc?_eq_none fun h hh => ?_, Grammar.string?_eq_none fun q hq => ?_⟩
  · exact hoccurs ht (hblocks b (mem_grammar_blockComments.1 hb))
  · exact hoccurs ht (hheredocs h.1 (mem_heredocs_of_grammar hh).1)
  · exact hoccurs ht (hstrings q (mem_grammar_strings.1 hq))

/-- A text in which only line comments open has spans: no block comment is left open, and no
    delimiter begins with a line feed. -/
theorem exists_spans [RegexLibrary] (hp : p.fault? = none) (hline : ∀ d ∈ p.lineComments, IsPlain d)
    (hopens : p.grammar.OpensLinesOnly s) : ∃ all, p.grammar.spans s = .ok all := by
  cases hspans : p.grammar.spans s with
  | ok all => exact ⟨all, rfl⟩
  | error fault =>
    cases fault with
    | unclosed rest b =>
      obtain ⟨before, body, rfl, -, hb, -⟩ := Grammar.exists_of_spans_unclosed hspans
      rw [(hopens rest (List.suffix_append before rest)).1] at hb
      cases hb
    | stalled rest =>
      obtain ⟨hsuffix, ⟨-, d, hd, hhead, -⟩ | hquotes⟩ :=
        (p.opensVisibly_grammar hp).exists_of_spans_stalled hspans
      · exact absurd (List.mem_of_mem_head? hhead) (not_mem_lineComments hline d hd)
      · exact absurd (hopens rest hsuffix).2.1 hquotes.cutHeredoc?_ne_none

/-- Each doc segment stands where a line starts, and is a doc run. -/
theorem isRun_of_segment [RegexLibrary] (hline : ∀ d ∈ p.lineComments, IsPlain d)
    (hblock : ∀ b ∈ p.blockComments, IsPlain b.opening ∧ IsPlain b.closing) {text : String}
    {segments : List Segment} {x : Segment} (h : segment p text = .ok segments)
    (hx : x ∈ segments) (hdoc : x.kind = .doc) :
    ∃ before after, text = before ++ x.text ++ after ∧ before.utf8ByteSize = x.range.start ∧
      (before ≠ "" → EndsLine before.toList) ∧
      (p.IsLineRun x.text.toList after.toList ∨ p.IsBlockRun x.text.toList after.toList) := by
  obtain ⟨before, after, htext, hsize, hstart, hne, hcut⟩ := exists_cutDocRun?_of_segment h hx hdoc
  exact ⟨before, after, htext, hsize, hstart, isRun_of_cutDocRun? hline hblock hcut hne⟩

end Profile

/-- A line is a doc line with the indent and the delimiter that the scan sees in it. Each doc
    segment starts a line, and is a run of doc lines with one indent and one delimiter, as long as it
    can be, or a block comment that stands alone on its lines. A text in which only line comments
    open is cut into the groups of neighbouring lines with one indent and one delimiter, or without
    any. -/
theorem segment_doc_form [RegexLibrary] {p : Profile} (hline : ∀ d ∈ p.lineComments, IsPlain d)
    (hblock : ∀ b ∈ p.blockComments, IsPlain b.opening ∧ IsPlain b.closing) (text : String) :
    (∀ line margin d, p.docKey? line = some (margin, d) ↔ p.IsDocLine margin d line) ∧
    (∀ segments, segment p text = .ok segments → ∀ s ∈ segments, s.kind = .doc →
      ∃ before after, text = before ++ s.text ++ after ∧ before.utf8ByteSize = s.range.start ∧
        (before ≠ "" → EndsLine before.toList) ∧
        (p.IsLineRun s.text.toList after.toList ∨ p.IsBlockRun s.text.toList after.toList)) ∧
    (p.fault? = none → p.lineContinuation = none →
      (∀ b ∈ p.blockComments, ¬ b.opening.toList <:+: text.toList) →
      (∀ h ∈ p.heredocs, ¬ h.startPrefix.toList <:+: text.toList) →
      (∀ q ∈ p.strings, ¬ q.delimiter.toList <:+: text.toList) →
      segment p text = .ok (Segment.place 0 (p.lineRuns text.toList))) := by
  refine ⟨fun line margin d => Profile.docKey?_eq_some_iff hline,
    fun segments h s hs hdoc => Profile.isRun_of_segment hline hblock h hs hdoc,
    fun hp hcontinuation hblocks hheredocs hstrings => ?_⟩
  have hopens := Profile.opensLinesOnly_grammar hblocks hheredocs hstrings
  obtain ⟨all, hall⟩ := Profile.exists_spans hp hline hopens
  refine segment_eq_ok_iff.2 ⟨hp, all, hall, ?_⟩
  rw [Profile.joinCode_eq_lineRuns hline hopens hcontinuation hall]

/-- Doc lines of another indent or another delimiter make up another segment, and a block comment
    that code follows makes up none. -/
theorem segment_doc_form_of_neighbours :
    let p : Profile :=
      { id := "p", lineComments := ["//", "///"], blockComments := [⟨"/*", "*/"⟩],
        strings := [.escaped "\""] }
    let lines := "x // é\n// a\n  // b\n  // c\n///d\n/// e"
    let comment := "/* é */ x\n  /* a\n\" */ \r\n"
    let run : Segment := ⟨.doc, "  /* a\n\" */ \r\n", ⟨11, 25⟩⟩
    (∀ d ∈ p.lineComments, IsPlain d) ∧
      (∀ b ∈ p.blockComments, IsPlain b.opening ∧ IsPlain b.closing) ∧ p.fault? = none ∧
      segment p comment = .ok [⟨.code, "/* é */ x\n", ⟨0, 11⟩⟩, run] ∧
      (∃ before after, comment = before ++ run.text ++ after ∧
        before.utf8ByteSize = run.range.start ∧ (before ≠ "" → EndsLine before.toList) ∧
        (p.IsLineRun run.text.toList after.toList ∨ p.IsBlockRun run.text.toList after.toList)) ∧
      segment p lines = .ok (Segment.place 0 (p.lineRuns lines.toList)) ∧
      (p.docKey? "  // b\n".toList = some ("  ".toList, "//") ↔
        p.IsDocLine "  ".toList "//" "  // b\n".toList) ∧
      p.lineRuns lines.toList = [⟨.code, "x // é\n".toList⟩, ⟨.doc, "// a\n".toList⟩,
        ⟨.doc, "  // b\n  // c\n".toList⟩, ⟨.code, "///d\n".toList⟩, ⟨.doc, "/// e".toList⟩] := by
  intro p lines comment run
  have hline : ∀ d ∈ p.lineComments, IsPlain d := by decide +kernel
  have hblock : ∀ b ∈ p.blockComments, IsPlain b.opening ∧ IsPlain b.closing := by decide +kernel
  have hp : p.fault? = none := by decide +kernel
  have hcomment : segment p comment = .ok [⟨.code, "/* é */ x\n", ⟨0, 11⟩⟩, run] := by
    decide +kernel
  exact ⟨hline, hblock, hp, hcomment,
    (segment_doc_form hline hblock comment).2.1 _ hcomment run (by simp) rfl,
    (segment_doc_form hline hblock lines).2.2 hp rfl (by decide +kernel) (by decide +kernel)
      (by decide +kernel),
    (segment_doc_form hline hblock lines).1 _ _ _, by decide +kernel⟩

end LiterateSync
