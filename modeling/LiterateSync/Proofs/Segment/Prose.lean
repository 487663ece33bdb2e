import LiterateSync.Proofs.Segment.RunLocality

namespace LiterateSync

/-- The characters of the code among the spans of a text. -/
def codeOf (spans : List Span) : List Char :=
  (spans.filter (·.kind = .code)).flatMap (·.chars)

@[simp] theorem codeOf_nil : codeOf [] = [] := rfl

@[simp] theorem codeOf_doc (run : List Char) (spans : List Span) :
    codeOf (⟨.doc, run⟩ :: spans) = codeOf spans := rfl

@[simp] theorem codeOf_code (line : List Char) (spans : List Span) :
    codeOf (⟨.code, line⟩ :: spans) = line ++ codeOf spans := rfl

@[simp] theorem codeOf_append (first second : List Span) :
    codeOf (first ++ second) = codeOf first ++ codeOf second := by
  rw [codeOf, List.filter_append, List.flatMap_append]
  rfl

theorem codeOf_of_forall_doc {runs : List Span} (h : ∀ x ∈ runs, x.kind = .doc) :
    codeOf runs = [] := by
  rw [codeOf, List.filter_eq_nil_iff.2 fun x hx => by simp [h x hx]]
  rfl

/-- Stretches of code hold the same characters when they are joined. -/
@[simp] theorem codeOf_joinCode (spans : List Span) : codeOf (joinCode spans) = codeOf spans := by
  induction spans with
  | nil => rfl
  | cons x spans ih =>
    obtain ⟨kind, s⟩ := x
    cases kind with
    | doc => rw [joinCode, codeOf_doc, codeOf_doc, ih]
    | code =>
      rw [joinCode]
      split
      · rename_i t rest heq
        rw [heq] at ih
        rw [codeOf_code, codeOf_code, ← ih, codeOf_code, List.append_assoc]
      · rw [codeOf_code, codeOf_code, ih]

/-- Doc runs stay doc runs when stretches of code are joined, and code stays code. -/
theorem forall_doc_joinCode {spans : List Span} :
    (∀ x ∈ joinCode spans, x.kind = .doc) ↔ ∀ x ∈ spans, x.kind = .doc := by
  induction spans with
  | nil => rfl
  | cons x spans ih =>
    obtain ⟨kind, s⟩ := x
    cases kind with
    | doc => rw [joinCode, List.forall_mem_cons, List.forall_mem_cons, ih]
    | code =>
      rw [joinCode]
      split <;> simp

namespace Grammar

variable {g : Grammar} {before s r : List Char}

/-- What doc lines take from a text does not depend on the lines that were taken before. -/
theorem cutDocLines_behind (g : Grammar) (margin : List Char) (d : String)
    (before first s : List Char) :
    g.cutDocLines margin d (before ++ first) s =
      (first.reverse ++ (g.cutDocLines margin d before s).1,
        (g.cutDocLines margin d before s).2) := by
  fun_induction cutDocLines g margin d before s with
  | case1 before s hdoc ih =>
    rw [cutDocLines, if_pos hdoc, ← ih, List.reverseAux_eq, List.reverseAux_eq, List.append_assoc]
  | case2 before s hstop => rw [cutDocLines, if_neg hstop, List.reverse_append]

/-- Doc lines that make up all of a text go on in the text that is put behind it. -/
theorem IsOneLine.cutDocLines_through (hg : g.IsOneLine) {margin : List Char} {d : String}
    (hs : s ≠ [] → EndsLine s) (h : g.cutDocLines margin d before s = (before.reverse ++ s, []))
    (r : List Char) :
    g.cutDocLines margin d before (s ++ r) = g.cutDocLines margin d (s.reverse ++ before) r := by
  fun_induction cutDocLines g margin d before s with
  | case1 before s hdoc ih =>
    have hends := hs hdoc.1
    obtain ⟨hindent, hdelimiter⟩ := hg.sameFront_append hends.mem [] r
    rw [List.append_nil] at hindent hdelimiter
    have hstep := ih (endsLine_cutLine_snd hends) (by
      rw [h, List.reverseAux_eq, List.reverse_append, List.reverse_reverse, List.append_assoc,
        Text.append_cutLine])
    rw [cutDocLines, if_pos ⟨by simp [hdoc.1], hindent ▸ hdoc.2.1, hdelimiter ▸ hdoc.2.2⟩,
      cutLine_append hends.mem, hstep, List.reverseAux_eq, ← List.append_assoc,
      ← List.reverse_append, Text.append_cutLine]
  | case2 before s hstop =>
    obtain rfl : s = [] := (Prod.mk.inj h).2
    rfl

/-- A doc run that makes up all of a text takes, of a text that is put behind it, nothing or a doc
    run that goes on with its lines. -/
theorem exists_cutDocRun?_append [RegexLibrary] {p : Profile} (hp : p.IsRegular) (hs : EndsLine s)
    (h : p.grammar.cutDocRun? s = .ok (some (s, []))) (r : List Char) :
    ∃ more rest, more ++ rest = r ∧
      p.grammar.cutDocRun? (s ++ r) = .ok (some (s ++ more, rest)) ∧
      (more ≠ [] → p.grammar.cutDocRun? r = .ok (some (more, rest))) := by
  have hg := hp.isLineBound.isOneLine
  obtain ⟨d, hdoc, hlines⟩ | ⟨hnone, b, text, lineEnd, behind, hb, hseparated, hblock, hend, hrun⟩ :=
    cutDocRun?_cases h
  · obtain ⟨hmem, hindent, hunindented⟩ := indent_append_of_mem hs.mem r
    obtain ⟨⟨more, rest⟩, hmore⟩ : ∃ lines, p.grammar.cutDocLines (indent s) d [] r = lines :=
      ⟨_, rfl⟩
    have hthrough := hg.cutDocLines_through (fun _ => hs) hlines r
    rw [List.append_nil, ← List.nil_append s.reverse, cutDocLines_behind, List.reverse_reverse,
      hmore] at hthrough
    refine ⟨more, rest, ?_, ?_, fun hne => ?_⟩
    · have happend := p.grammar.append_cutDocLines (indent s) d [] r
      rwa [hmore] at happend
    · simp only [cutDocRun?, hunindented, hg.docDelimiter?_append hmem, hdoc, hindent, hthrough]
    · have hfront : indent r = indent s ∧ p.grammar.docDelimiter? (unindented r) = some d := by
        by_contra hstop
        rw [cutDocLines, if_neg fun hcond => hstop hcond.2] at hmore
        exact hne (Prod.mk.inj hmore).1.symm
      simp only [cutDocRun?, hfront.2, hfront.1, hmore]
  · -- a closing delimiter holds no line feed, so the one at the end of the text is behind it
    obtain rfl : lineEnd = behind := by simpa using append_of_cutLineEnd? hend
    have hfeed : '\n' ∈ lineEnd := by
      obtain ⟨body, inside, -, -, rfl⟩ := exists_of_cutBlockComment (prefix_of_blockComment? hb) hblock
      have hclosing := hp.closing b (Text.mem_longestFirst.1 (List.mem_of_find?_eq_some hb))
      rw [hrun, EndsLine] at hs
      by_cases hnil : lineEnd = []
      · rw [hnil, List.append_nil, ← List.append_assoc,
          List.getLast?_append_of_ne_nil _ hclosing.1] at hs
        exact absurd (List.mem_of_getLast? hs) (hclosing.not_mem (by simp))
      · rw [List.getLast?_append_of_ne_nil _ hnil] at hs
        exact List.mem_of_getLast? hs
    refine ⟨[], r, rfl, ?_, fun hne => absurd rfl hne⟩
    rw [List.append_nil]
    exact hg.cutDocRun?_replace_blockComment (r := []) hfeed (by simpa using hrun)
      (by simpa using hnone) (by simpa using hb) (by simpa using hseparated) (by simpa using hblock)
      (by simpa using hend) r

/-- Whether the scan finds doc runs in a text and nothing else. -/
def IsProse (g : Grammar) (s : List Char) : Prop :=
  ∃ runs, g.spans s = .ok runs ∧ ∀ x ∈ runs, x.kind = .doc

/-- A doc run is found as such where nothing stands behind it. -/
theorem IsOneLine.isProse_of_cutDocRun? (hg : g.IsOneLine) (hs : s ≠ [])
    (h : g.cutDocRun? (s ++ r) = .ok (some (s, r))) : g.IsProse s := by
  have hrun : g.cutDocRun? s = .ok (some (s, [])) := by
    by_cases hr : r = []
    · rwa [hr, List.append_nil] at h
    · simpa using hg.cutDocRun?_replace hr (fun hnil => absurd rfl hnil) h
  refine ⟨[⟨.doc, s⟩], ?_, by simp⟩
  rw [spans_of_cutDocRun? hrun hs, spans]
  rfl

theorem spans_eq_ok_of_cutDocRun? {run rest : List Char} {all : List Span} (hs : s ≠ [])
    (h : g.cutDocRun? s = .ok (some (run, rest))) :
    g.spans s = .ok all ↔ ∃ more, g.spans rest = .ok more ∧ all = ⟨.doc, run⟩ :: more := by
  rw [spans_of_cutDocRun? h hs]
  cases g.spans rest <;> simp [Except.map, eq_comm]

/-- Text of doc runs that is put before other text leaves the code of that text as it is. Its last
    doc run may go on in the doc lines behind it. -/
theorem exists_spans_append [RegexLibrary] {p : Profile} (hp : p.IsRegular) {second : List Span}
    (hs : p.grammar.IsProse s) (hends : r ≠ [] → s ≠ [] → EndsLine s)
    (hr : p.grammar.spans r = .ok second) :
    ∃ all, p.grammar.spans (s ++ r) = .ok all ∧ codeOf all = codeOf second := by
  obtain ⟨runs, hruns, hdoc⟩ := hs
  by_cases hnil : r = []
  · subst hnil
    rw [spans] at hr
    cases hr
    exact ⟨runs, by rwa [List.append_nil], codeOf_of_forall_doc hdoc⟩
  replace hends := hends hnil
  induction runs generalizing s with
  | nil =>
    obtain rfl : [] = s := by simpa using flatten_of_spans hruns
    exact ⟨second, hr, rfl⟩
  | cons x runs ih =>
    obtain ⟨hx, hothers⟩ := List.forall_mem_cons.1 hdoc
    obtain ⟨hne, rest, rfl, hrest, hrun⟩ := spans_eq_ok_cons hruns
    obtain ⟨kind, run⟩ := x
    obtain rfl : kind = .doc := hx
    have hne' : run ++ rest ++ r ≠ [] := by simp [hnil]
    by_cases hempty : rest = []
    · -- the last doc run: what it takes of the text behind it begins the doc run there
      simp only [hempty, List.append_nil] at hne hne' hrun hends ⊢
      obtain ⟨more, behind, hbehind, hcut, hmore⟩ :=
        exists_cutDocRun?_append hp (hends hne) hrun r
      by_cases hgoes : more = []
      · obtain rfl : behind = r := by rw [← hbehind, hgoes, List.nil_append]
        exact ⟨_, (spans_eq_ok_of_cutDocRun? hne' hcut).2 ⟨second, hr, rfl⟩, rfl⟩
      · obtain ⟨tail, htail, rfl⟩ := (spans_eq_ok_of_cutDocRun? hnil (hmore hgoes)).1 hr
        exact ⟨_, (spans_eq_ok_of_cutDocRun? hne' hcut).2 ⟨tail, htail, rfl⟩, rfl⟩
    · have hrestEnds : EndsLine rest := by
        have hends := hends hne
        rwa [EndsLine, List.getLast?_append_of_ne_nil _ hempty] at hends
      have hfront := hp.isLineBound.isOneLine.sameFront_append hrestEnds.mem [] r
      rw [List.append_nil] at hfront
      obtain ⟨all, hall, hcode⟩ := ih hrest hothers fun _ => hrestEnds
      have hcut := hp.isLineBound.isOneLine.cutDocRun?_replace hempty (fun _ => hfront) hrun
      rw [List.append_assoc] at hne' ⊢
      exact ⟨_, (spans_eq_ok_of_cutDocRun? hne' hcut).2 ⟨all, hall, rfl⟩, hcode⟩

end Grammar

end LiterateSync
