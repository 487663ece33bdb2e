import LiterateSync.Proofs.Language.Openings
import LiterateSync.Proofs.Segment.Locality
import LiterateSync.Proofs.Segment.Spans

namespace LiterateSync.Grammar

variable {g : Grammar} {before line rest s t r r' : List Char}

theorem isSeparated_append (hs : s ≠ []) (r : List Char) :
    isSeparated (s ++ r) = isSeparated s := by
  obtain ⟨c, s, rfl⟩ := List.exists_cons_of_ne_nil hs
  rfl

theorem indent_append_of_mem (hs : '\n' ∈ s) (r : List Char) :
    '\n' ∈ unindented s ∧ indent (s ++ r) = indent s ∧
      unindented (s ++ r) = unindented s ++ r := by
  obtain ⟨htake, hdrop, hmem⟩ := Text.takeWhile_append_of_mem (p := Text.isBlank) (by decide) hs r
  exact ⟨hmem, htake, hdrop⟩

/-- Whether two texts agree in all that a run of doc lines before them looks at. -/
def SameFront (g : Grammar) (r r' : List Char) : Prop :=
  indent r = indent r' ∧ g.docDelimiter? (unindented r) = g.docDelimiter? (unindented r')

theorem isSeparated_drop_append {d : String} (hd : '\n' ∉ d.toList) (hstarts : d.toList <+: s)
    (hs : '\n' ∈ s) (r : List Char) :
    isSeparated ((s ++ r).drop d.length) = isSeparated (s.drop d.length) := by
  obtain ⟨u, rfl⟩ := hstarts
  have hu := (List.mem_append.1 hs).resolve_left hd
  rw [List.append_assoc, List.drop_left' String.length_toList,
    List.drop_left' String.length_toList, isSeparated_append (List.ne_nil_of_mem hu)]

/-- The delimiter of a doc line is told by the line. -/
theorem docDelimiter?_append (hline : ∀ d ∈ g.lineComments, '\n' ∉ d.toList) (hs : '\n' ∈ s)
    (r : List Char) : g.docDelimiter? (s ++ r) = g.docDelimiter? s := by
  have hfind : g.lineComment? (s ++ r) = g.lineComment? s := find?_opens_append hline hs r
  rw [docDelimiter?, docDelimiter?, hfind]
  cases hcomment : g.lineComment? s with
  | none => rfl
  | some d =>
    have hd := hline d (List.mem_of_find?_eq_some hcomment)
    simp only [isSeparated_drop_append hd (prefix_of_lineComment? hcomment) hs]

namespace IsOneLine

theorem docDelimiter?_append (hg : g.IsOneLine) (hs : '\n' ∈ s) (r : List Char) :
    g.docDelimiter? (s ++ r) = g.docDelimiter? s :=
  Grammar.docDelimiter?_append hg.line hs r

theorem sameFront_append (hg : g.IsOneLine) (hs : '\n' ∈ s) (r r' : List Char) :
    g.SameFront (s ++ r) (s ++ r') := by
  obtain ⟨hmem, hindent, hunindented⟩ := indent_append_of_mem hs r
  obtain ⟨-, hindent', hunindented'⟩ := indent_append_of_mem hs r'
  exact ⟨hindent.trans hindent'.symm, by
    rw [hunindented, hunindented', hg.docDelimiter?_append hmem, hg.docDelimiter?_append hmem]⟩

end IsOneLine

theorem cutLine_append (hs : '\n' ∈ s) (r : List Char) :
    Text.cutLine (s ++ r) = ((Text.cutLine s).1, (Text.cutLine s).2 ++ r) := by
  induction s with
  | nil => cases hs
  | cons c s ih =>
    by_cases hc : c = '\n'
    · simp [Text.cutLine, hc]
    · have hs := List.mem_of_ne_of_mem (Ne.symm hc) hs
      have hih := ih hs
      simp only [Text.cutLine, Prod.mk.injEq] at hih ⊢
      simp [hc, hih]

theorem endsLine_cutLine_snd (h : EndsLine s) (hrest : (Text.cutLine s).2 ≠ []) :
    EndsLine (Text.cutLine s).2 := by
  rw [← Text.append_cutLine s] at h
  exact h.of_append hrest

/-- Where a run of doc lines ends depends on the front of the text behind it, if there is any. -/
theorem IsOneLine.cutDocLines_replace (hg : g.IsOneLine) {margin : List Char} {d : String}
    (hr : r ≠ []) (hfront : r' ≠ [] → g.SameFront r r') (ht : t ≠ [] → EndsLine t)
    (h : g.cutDocLines margin d before (t ++ r) = (before.reverse ++ t, r)) :
    g.cutDocLines margin d before (t ++ r') = (before.reverse ++ t, r') := by
  generalize hs : t ++ r = s at h
  fun_induction cutDocLines g margin d before s generalizing t with
  | case1 before s hdoc ih =>
    subst hs
    by_cases hnil : t = []
    · have hlen := g.cutDocLines_length_le margin d
        ((Text.cutLine (t ++ r)).1.reverseAux before) (Text.cutLine (t ++ r)).2
      have hline := Text.cutLine_length_le (t ++ r)
      have hpos := List.length_pos_iff.2 hr
      rw [h] at hlen
      rw [hnil, List.nil_append] at hline hlen
      simp only at hlen
      omega
    · have hmem := (ht hnil).mem
      rw [cutLine_append hmem] at h ih
      have hstep := ih (t := (Text.cutLine t).2) (endsLine_cutLine_snd (ht hnil)) rfl (by
        rw [h, List.reverseAux_eq, List.reverse_append, List.reverse_reverse, List.append_assoc,
          Text.append_cutLine])
      obtain ⟨hindent, hdelimiter⟩ := hg.sameFront_append hmem r r'
      rw [cutDocLines, if_pos ⟨by simp [hnil], hindent ▸ hdoc.2.1, hdelimiter ▸ hdoc.2.2⟩,
        cutLine_append hmem, hstep, List.reverseAux_eq, List.reverse_append, List.reverse_reverse,
        List.append_assoc, Text.append_cutLine]
  | case2 before s hdoc =>
    obtain rfl : t = [] := by simpa using (Prod.mk.inj h).1
    subst hs
    rw [List.nil_append, cutDocLines, if_neg, List.append_nil]
    exact fun h => hdoc ⟨hr, (hfront h.1).1.trans h.2.1, (hfront h.1).2.trans h.2.2⟩

theorem cutLineEnd?_append (ht : '\n' ∈ t) (r : List Char) :
    cutLineEnd? (t ++ r) = (cutLineEnd? t).map fun (lineEnd, rest) => (lineEnd, rest ++ r) := by
  obtain ⟨htake, hdrop, hmem⟩ :=
    Text.takeWhile_append_of_mem (p := fun c => Text.isBlank c || c = '\r') (by decide) ht r
  obtain ⟨c, rest, hrest⟩ := List.exists_cons_of_ne_nil (List.ne_nil_of_mem hmem)
  simp only [cutLineEnd?, htake, hdrop, hrest, List.cons_append]
  split <;> rfl

/-- The end of a line behind a comment, with a line feed in it, is told by its own characters. -/
theorem cutLineEnd?_replace (h : cutLineEnd? (t ++ r) = some (t, r)) (ht : '\n' ∈ t)
    (r' : List Char) : cutLineEnd? (t ++ r') = some (t, r') := by
  rw [cutLineEnd?_append ht, Option.map_eq_some_iff] at h ⊢
  obtain ⟨⟨lineEnd, rest⟩, hend, heq⟩ := h
  obtain ⟨rfl, hrest⟩ := Prod.mk.inj heq
  obtain rfl : rest = [] := by simpa using hrest
  exact ⟨_, hend, rfl⟩

namespace IsOneLine

/-- A doc run that is a block comment with a line feed behind it is told by its own text. -/
theorem cutDocRun?_replace_blockComment (hg : g.IsOneLine) {b : BlockComment}
    {text lineEnd : List Char} (hfeed : '\n' ∈ lineEnd)
    (hrun : t = indent (t ++ r) ++ text ++ lineEnd)
    (hnone : g.docDelimiter? (unindented (t ++ r)) = none)
    (hb : g.blockComment? (unindented (t ++ r)) = some b)
    (hseparated : isSeparated ((unindented (t ++ r)).drop b.opening.length) = true)
    (hblock : cutBlockComment b (unindented (t ++ r)) = .ok (text, lineEnd ++ r))
    (hend : cutLineEnd? (lineEnd ++ r) = some (lineEnd, r)) (r' : List Char) :
    g.cutDocRun? (t ++ r') = .ok (some (t, r')) := by
  have ht : '\n' ∈ t := hrun ▸ List.mem_append_right _ hfeed
  obtain ⟨hmem, hindent, hunindented⟩ := indent_append_of_mem ht r
  obtain ⟨-, hindent', hunindented'⟩ := indent_append_of_mem ht r'
  have htext : unindented t = text ++ lineEnd := by
    have happend := append_of_cutBlockComment hblock
    rw [hunindented, ← List.append_assoc] at happend
    exact (List.append_cancel_right happend).symm
  rw [hunindented] at hnone hb hseparated hblock
  rw [hg.docDelimiter?_append hmem] at hnone
  rw [hg.blockComment?_append hmem] at hb
  have hopening := hg.opening b (List.mem_of_find?_eq_some hb)
  rw [isSeparated_drop_append hopening (prefix_of_blockComment? hb) hmem] at hseparated
  have hcut : cutBlockComment b (unindented t ++ r') = .ok (text, lineEnd ++ r') := by
    rw [htext, List.append_assoc] at hblock ⊢
    exact cutBlockComment_replace
      ((htext ▸ prefix_of_blockComment? hb).trans (by simp)) hblock _
  simp only [cutDocRun?, hunindented', hg.docDelimiter?_append hmem, hnone,
    hg.blockComment?_append hmem, hb, isSeparated_drop_append hopening
    (prefix_of_blockComment? hb) hmem, hseparated, if_true, hcut, Except.map,
    cutLineEnd?_replace hend hfeed, Option.map_some, hindent']
  rw [hindent] at hrun
  rw [← hrun]

/-- A doc run is told by its own text, and by the front of the text behind it if there is any. -/
theorem cutDocRun?_replace (hg : g.IsOneLine) (hr : r ≠ [])
    (hfront : r' ≠ [] → g.SameFront r r')
    (h : g.cutDocRun? (t ++ r) = .ok (some (t, r))) :
    g.cutDocRun? (t ++ r') = .ok (some (t, r')) := by
  have hends := endsLine_cutDocRun? h hr
  obtain ⟨d, hdoc, hlines⟩ |
    ⟨hnone, b, text, lineEnd, behind, hb, hseparated, hblock, hend, hrun⟩ := cutDocRun?_cases h
  · obtain ⟨hmem, hindent, hunindented⟩ := indent_append_of_mem hends.mem r
    obtain ⟨-, hindent', hunindented'⟩ := indent_append_of_mem hends.mem r'
    rw [hunindented, hg.docDelimiter?_append hmem] at hdoc
    simp only [cutDocRun?, hunindented', hg.docDelimiter?_append hmem, hdoc, hindent']
    rw [hindent] at hlines
    rw [hg.cutDocLines_replace hr hfront (fun _ => hends) hlines]
    rfl
  · obtain rfl : lineEnd ++ r = behind := append_of_cutLineEnd? hend
    exact hg.cutDocRun?_replace_blockComment (endsLine_cutLineEnd? hend hr).mem hrun hnone hb
      hseparated hblock hend r'

end IsOneLine

theorem blockComment?_eq_none (h : ∀ b ∈ g.blockComments, ¬ b.opening.toList <+: s) :
    g.blockComment? s = none :=
  List.find?_eq_none.2 fun b hb => by rw [opens_iff]; exact h b hb

theorem lineComment?_eq_none (h : ∀ d ∈ g.lineComments, ¬ d.toList <+: s) :
    g.lineComment? s = none :=
  List.find?_eq_none.2 fun d hd => by rw [opens_iff]; exact h d hd

theorem string?_eq_none (h : ∀ q ∈ g.strings, ¬ q.delimiter.toList <+: s) : g.string? s = none :=
  List.find?_eq_none.2 fun q hq => by rw [opens_iff]; exact h q hq

theorem cutHeredoc?_eq_none (h : ∀ heredoc ∈ g.heredocs, ¬ heredoc.1.startPrefix.toList <+: s) :
    g.cutHeredoc? s = none := by
  rw [cutHeredoc?, List.findSome?_eq_none_iff]
  exact fun heredoc hmem => cutHeredocOf?_of_not_starts (h heredoc hmem)

/-- No token begins where no comment or literal opens. -/
theorem token?_eq_none_of_openings (h : ∀ d ∈ g.openings, ¬ d.toList <+: s) :
    g.token? s = .ok none := by
  obtain ⟨hlines, hblocks, hheredocs, hstrings⟩ := forall_mem_openings.1 h
  simp [token?, blockComment?_eq_none hblocks, lineComment?_eq_none hlines,
    cutHeredoc?_eq_none hheredocs, string?_eq_none hstrings]

/-- Whether no comment or literal opens at a blank. -/
def LeavesBlanks (g : Grammar) : Prop :=
  ∀ c s, Text.isBlank c = true → g.token? (c :: s) = .ok none

theorem leavesBlanks_of_openings
    (h : ∀ d ∈ g.openings, ∃ c ∈ d.toList.head?, Text.isBlank c = false) : g.LeavesBlanks := by
  intro c s hc
  refine token?_eq_none_of_openings fun d hd hstarts => ?_
  obtain ⟨e, he, hblank⟩ := h d hd
  obtain ⟨more, hmore⟩ := List.head?_eq_some_iff.1 he
  rw [hmore, List.cons_prefix_cons] at hstarts
  rw [hstarts.1, hc] at hblank
  cases hblank

theorem IsLineBound.leavesBlanks (hg : g.IsLineBound) : g.LeavesBlanks := by
  have hplain : ∀ {d : String}, IsPlain d → ∃ c ∈ d.toList.head?, Text.isBlank c = false := by
    intro d hd
    obtain ⟨c, more, hmore⟩ := List.exists_cons_of_ne_nil hd.1
    exact ⟨c, by simp [hmore], (hd.2 c (by simp [hmore])).1⟩
  refine leavesBlanks_of_openings (forall_mem_openings.2 ⟨?_, ?_, ?_, ?_⟩)
  · exact fun d hd => hplain (hg.line d hd)
  · exact fun b hb => hplain (hg.opening b hb)
  · exact fun h hh => hplain (hg.startPrefix h hh)
  · exact fun q hq => hplain (hg.delimiter q hq)

namespace LeavesBlanks

theorem opening_ne_nil (hblank : g.LeavesBlanks) {b : BlockComment} (hb : b ∈ g.blockComments) :
    b.opening.toList ≠ [] := by
  intro hnil
  have hopens : (g.blockComment? [' ']).isSome :=
    List.find?_isSome.2 ⟨b, hb, opens_iff.2 (hnil ▸ List.nil_prefix)⟩
  obtain ⟨b', hb'⟩ := Option.isSome_iff_exists.1 hopens
  have hnone := hblank ' ' [] rfl
  rw [token?, hb'] at hnone
  cases hcut : cutBlockComment b' [' '] <;> simp [hcut, Except.map] at hnone

/-- The scan of a line of code goes over the indent of the line. -/
theorem cutCodeLine_indent (hblank : g.LeavesBlanks) (before s : List Char) :
    g.cutCodeLine [] before s =
      g.cutCodeLine [] ((indent s).reverseAux before) (unindented s) := by
  induction s generalizing before with
  | nil => rfl
  | cons c s ih =>
    cases hc : Text.isBlank c with
    | false => simp [indent, unindented, hc]
    | true =>
      have hfeed : c ≠ '\n' := by
        rintro rfl
        cases hc
      have hmove : g.move [] (c :: s) = .ok ⟨[c], s, some []⟩ := by
        rw [move]
        simp [hfeed, tokenMove, hblank c s hc]
      rw [cutCodeLine_of_move hmove rfl]
      simp only [indent, unindented] at ih ⊢
      simp [hc, ih]

/-- Code that begins with a block comment takes the comment before anything else. -/
theorem exists_of_cutCodeLine_blockComment (hblank : g.LeavesBlanks) (hg : g.IsOneLine)
    {b : BlockComment} {text behind : List Char} (hb : g.blockComment? (unindented s) = some b)
    (hcut : cutBlockComment b (unindented s) = .ok (text, behind))
    (h : g.cutCodeLine [] [] s = .ok (line, r)) (hr : r ≠ []) :
    ∃ taken, line = indent s ++ text ++ taken ∧ behind = taken ++ r ∧ EndsLine taken := by
  have hmem := List.mem_of_find?_eq_some hb
  obtain ⟨c, more, hbegin⟩ := List.exists_cons_of_ne_nil (hblank.opening_ne_nil hmem)
  obtain ⟨body, inside, hbody, -, htext⟩ :=
    exists_of_cutBlockComment (prefix_of_blockComment? hb) hcut
  have hfeed : c ≠ '\n' := by
    rintro rfl
    exact hg.opening b hmem (hbegin ▸ List.mem_cons_self)
  have hs : unindented s = c :: (more ++ body) := by rw [hbody, hbegin, List.cons_append]
  have htoken : g.token? (c :: (more ++ body)) = .ok (some ⟨text, behind, none⟩) := by
    simp only [← hs, token?, hb, hcut]
    rfl
  have hmove : g.move [] (unindented s) = .ok ⟨text, behind, some []⟩ := by
    rw [hs, move]
    simp only [hfeed, if_false, tokenMove, htoken]
    rw [htext, hbegin]
    rfl
  rw [hblank.cutCodeLine_indent, cutCodeLine_of_move hmove rfl] at h
  obtain ⟨taken, hline, happend, hends⟩ := exists_taken_of_cutCodeLine h
  exact ⟨taken, by simpa [List.reverseAux_eq] using hline, happend.symm, hends hr⟩

/-- Whether a line of code begins a doc run is told by its own text: a block comment that does
    not stand alone is followed by code of the same line. -/
theorem cutDocRun?_eq_none (hblank : g.LeavesBlanks) (hg : g.IsOneLine) (hr : r ≠ [])
    (h : g.cutDocRun? (t ++ r) = .ok none) (hline : g.cutCodeLine [] [] (t ++ r) = .ok (t, r))
    (r' : List Char) : g.cutDocRun? (t ++ r') = .ok none := by
  obtain ⟨taken, htaken, -, hends⟩ := exists_taken_of_cutCodeLine hline
  obtain rfl : t = taken := by simpa using htaken
  obtain ⟨hmem, hindent, hunindented⟩ := indent_append_of_mem (hends hr).mem r
  obtain ⟨-, hindent', hunindented'⟩ := indent_append_of_mem (hends hr).mem r'
  simp only [cutDocRun?, hunindented, hunindented', hg.docDelimiter?_append hmem,
    hg.blockComment?_append hmem] at h ⊢
  split at h
  · cases h
  · split at h
    · rfl
    · rename_i b hb
      have hopening := hg.opening b (List.mem_of_find?_eq_some hb)
      rw [isSeparated_drop_append hopening (prefix_of_blockComment? hb) hmem] at h ⊢
      split at h
      · rename_i hseparated
        rw [if_pos hseparated]
        cases hcut : cutBlockComment b (unindented t ++ r) with
        | error fault => simp [hcut, Except.map] at h
        | ok found =>
          obtain ⟨text, behind⟩ := found
          simp only [hcut, Except.map, Except.ok.injEq, Option.map_eq_none_iff] at h
          have hb' : g.blockComment? (unindented (t ++ r)) = some b := by
            rw [hunindented, hg.blockComment?_append hmem, hb]
          obtain ⟨taken, htaken, rfl, hend⟩ := hblank.exists_of_cutCodeLine_blockComment hg hb'
            (by rw [hunindented, hcut]) hline hr
          have htext : unindented t = text ++ taken := by
            rw [hindent, List.append_assoc] at htaken
            rw [← List.append_cancel_left_eq (indent t), indent_append_unindented, ← htaken]
          have hcut' : cutBlockComment b (unindented t ++ r') = .ok (text, taken ++ r') := by
            rw [htext, List.append_assoc] at hcut ⊢
            exact cutBlockComment_replace
              ((htext ▸ prefix_of_blockComment? hb).trans (by simp)) hcut _
          rw [cutLineEnd?_append hend.mem, Option.map_eq_none_iff] at h
          simp only [hcut', Except.map, cutLineEnd?_append hend.mem, h, Option.map_none]
      · rename_i hseparated
        rw [if_neg hseparated]

end LeavesBlanks

/-- The first span of a text stays the same when other text with the same front takes the place of
    all that follows it. -/
theorem IsOneLine.spans_cons_replace (hg : g.IsOneLine) (hagree : g.HeredocsAgree r r')
    (hr : r ≠ []) (hfront : r' ≠ [] → g.SameFront r r') {x : Span} {more : List Span}
    (h : g.spans (x.chars ++ r) = .ok (x :: more))
    (hnone : x.kind = .code → g.cutDocRun? (x.chars ++ r') = .ok none) :
    g.spans (x.chars ++ r') = (g.spans r').map (x :: ·) := by
  have hs : x.chars ++ r' ≠ [] := by simp [(endsLine_of_spans h hr).ne_nil]
  obtain ⟨-, rest, happend, -, hx⟩ := spans_eq_ok_cons h
  obtain rfl := List.append_cancel_left happend
  obtain ⟨kind, chars⟩ := x
  cases kind with
  | doc => exact spans_of_cutDocRun? (hg.cutDocRun?_replace hr hfront hx) hs
  | code =>
    have hline : g.cutCodeLine [] [] (chars ++ r') = .ok ([].reverse ++ chars, r') :=
      hg.cutCodeLine_replace hagree (fun q hq => by cases hq) hx.2 hr
    exact spans_of_cutCodeLine (hnone rfl) hline hs

/-- Spans with something behind them keep the front of a text that they begin. -/
theorem IsOneLine.sameFront_of_spans (hg : g.IsOneLine) {first second : List Span} (hr : r ≠ [])
    (hfront : r' ≠ [] → g.SameFront r r')
    (h : g.spans ((first.map (·.chars)).flatten ++ r) = .ok (first ++ second))
    (hne : (first.map (·.chars)).flatten ++ r' ≠ []) :
    g.SameFront ((first.map (·.chars)).flatten ++ r) ((first.map (·.chars)).flatten ++ r') := by
  cases first with
  | nil => exact hfront hne
  | cons x first =>
    rw [List.map_cons, List.flatten_cons, List.append_assoc] at h ⊢
    rw [List.append_assoc]
    exact hg.sameFront_append (endsLine_of_spans h (by simp [hr])).mem _ _

/-- The spans before a doc run stay the same when other text with the same front takes the place
    of the run and of all that follows it. -/
theorem IsLineBound.spans_replace (hg : g.IsLineBound) {first second : List Span} (hr : r ≠ [])
    (hfront : g.SameFront r r')
    (h : g.spans ((first.map (·.chars)).flatten ++ r) = .ok (first ++ second)) :
    g.spans ((first.map (·.chars)).flatten ++ r') = (g.spans r').map (first ++ ·) := by
  induction first with
  | nil =>
    simp only [List.map_nil, List.flatten_nil, List.nil_append]
    cases g.spans r' <;> rfl
  | cons x first ih =>
    rw [List.map_cons, List.flatten_cons, List.append_assoc] at h ⊢
    obtain ⟨-, rest, happend, hrest, hx⟩ := spans_eq_ok_cons h
    obtain rfl := List.append_cancel_left happend
    have hne : (first.map (·.chars)).flatten ++ r ≠ [] := by simp [hr]
    have hnext := hg.isOneLine.sameFront_of_spans hr (fun _ => hfront) hrest
    rw [hg.isOneLine.spans_cons_replace (hg.heredocsAgree _ _) hne hnext h, ih hrest]
    · cases g.spans r' <;> rfl
    · intro hkind
      rw [hkind] at hx
      exact hg.leavesBlanks.cutDocRun?_eq_none hg.isOneLine hne hx.1 hx.2 _

end LiterateSync.Grammar
