import LiterateSync.Proofs.Segment.Lines

namespace LiterateSync

/-- A doc run stands between stretches of code, which are joined on either side of it. -/
theorem joinCode_append_doc (before : List Span) (run : List Char) (after : List Span) :
    joinCode (before ++ ⟨.doc, run⟩ :: after) =
      joinCode before ++ ⟨.doc, run⟩ :: joinCode after := by
  induction before with
  | nil => rfl
  | cons x before ih =>
    obtain ⟨kind, s⟩ := x
    cases kind with
    | doc => rw [List.cons_append, joinCode, ih, joinCode, List.cons_append]
    | code =>
      rw [List.cons_append, joinCode, ih, joinCode]
      cases joinCode before with
      | nil => rfl
      | cons y rest =>
        obtain ⟨kind, t⟩ := y
        cases kind <;> rfl

/-- Joined spans are cut in two where the spans themselves can be. -/
theorem exists_of_joinCode_eq_append {all left right : List Span}
    (h : joinCode all = left ++ right) :
    ∃ first second, all = first ++ second ∧ joinCode first = left ∧ joinCode second = right := by
  induction all generalizing left with
  | nil =>
    obtain ⟨rfl, rfl⟩ := List.append_eq_nil_iff.1 h.symm
    exact ⟨[], [], rfl, rfl, rfl⟩
  | cons x all ih =>
    cases left with
    | nil => exact ⟨[], x :: all, rfl, rfl, h⟩
    | cons y left =>
      obtain ⟨kind, s⟩ := x
      cases kind with
      | doc =>
        rw [joinCode, List.cons_append, List.cons.injEq] at h
        obtain ⟨first, second, rfl, hfirst, hsecond⟩ := ih h.2
        exact ⟨⟨.doc, s⟩ :: first, second, rfl, by rw [joinCode, hfirst, h.1], hsecond⟩
      | code =>
        rw [joinCode] at h
        split at h
        · rename_i t rest hjoined
          rw [List.cons_append, List.cons.injEq] at h
          have hjoined' : joinCode all = (⟨.code, t⟩ :: left) ++ right := by
            rw [hjoined, h.2, List.cons_append]
          obtain ⟨first, second, rfl, hfirst, hsecond⟩ := ih hjoined'
          exact ⟨⟨.code, s⟩ :: first, second, rfl, by rw [joinCode, hfirst, ← h.1], hsecond⟩
        · rename_i hjoined
          rw [List.cons_append, List.cons.injEq] at h
          obtain ⟨first, second, rfl, rfl, hsecond⟩ := ih h.2
          refine ⟨⟨.code, s⟩ :: first, second, rfl, ?_, hsecond⟩
          rw [joinCode, ← h.1]
          split
          · rename_i t rest hcode
            rw [hcode] at h
            exact absurd h.2 (hjoined t _)
          · rfl

/-- A doc run among joined spans is one of the spans. -/
theorem exists_of_joinCode_eq {all before after : List Span} {run : List Char}
    (h : joinCode all = before ++ ⟨.doc, run⟩ :: after) :
    ∃ first second, all = first ++ ⟨.doc, run⟩ :: second ∧ joinCode first = before ∧
      joinCode second = after := by
  obtain ⟨first, second, rfl, hfirst, hsecond⟩ := exists_of_joinCode_eq_append h
  cases second with
  | nil => cases hsecond
  | cons x second =>
    obtain ⟨kind, s⟩ := x
    cases kind with
    | doc =>
      rw [joinCode, List.cons.injEq] at hsecond
      obtain ⟨hrun, hafter⟩ := hsecond
      exact ⟨first, second, by rw [hrun], hfirst, hafter⟩
    | code =>
      rw [joinCode] at hsecond
      split at hsecond <;> cases hsecond

namespace Grammar

variable {g : Grammar} {s : List Char}

/-- The last of the spans of a text are those of the text behind the first of them. -/
theorem spans_append_eq_ok {first second : List Span} (h : g.spans s = .ok (first ++ second)) :
    ∃ t, s = (first.map (·.chars)).flatten ++ t ∧ g.spans t = .ok second := by
  induction first generalizing s with
  | nil => exact ⟨s, rfl, h⟩
  | cons x first ih =>
    cases s with
    | nil =>
      rw [spans] at h
      cases h
    | cons c s =>
      obtain ⟨y, more, rest, heq, happend, hmore, -⟩ := spans_cons_eq_ok h
      rw [List.cons_append, List.cons.injEq] at heq
      obtain ⟨rfl, rfl⟩ := heq
      obtain ⟨t, rfl, ht⟩ := ih hmore
      exact ⟨t, by rw [← happend, List.map_cons, List.flatten_cons, List.append_assoc], ht⟩

/-- The first of the spans of a text is what the scan takes from it. -/
theorem spans_eq_ok_cons {x : Span} {more : List Span} (h : g.spans s = .ok (x :: more)) :
    s ≠ [] ∧ ∃ rest, x.chars ++ rest = s ∧ g.spans rest = .ok more ∧
      match x.kind with
      | .doc => g.cutDocRun? s = .ok (some (x.chars, rest))
      | .code => g.cutDocRun? s = .ok none ∧ g.cutCodeLine [] [] s = .ok (x.chars, rest) := by
  cases s with
  | nil =>
    rw [spans] at h
    cases h
  | cons c s =>
    obtain ⟨y, more', rest, heq, happend, hmore, hx⟩ := spans_cons_eq_ok h
    obtain ⟨rfl, rfl⟩ := List.cons.inj heq
    exact ⟨List.cons_ne_nil c s, rest, happend, hmore, hx⟩

theorem spans_of_cutDocRun? {run rest : List Char} (h : g.cutDocRun? s = .ok (some (run, rest)))
    (hs : s ≠ []) : g.spans s = (g.spans rest).map (⟨.doc, run⟩ :: ·) := by
  obtain ⟨c, s, rfl⟩ := List.exists_cons_of_ne_nil hs
  rw [spans]
  split
  · rename_i fault hfault
    rw [h] at hfault
    cases hfault
  · rename_i run' rest' hrun
    rw [h] at hrun
    cases hrun
    rfl
  · rename_i hnone
    rw [h] at hnone
    cases hnone

theorem spans_of_cutCodeLine {line rest : List Char} (hnone : g.cutDocRun? s = .ok none)
    (h : g.cutCodeLine [] [] s = .ok (line, rest)) (hs : s ≠ []) :
    g.spans s = (g.spans rest).map (⟨.code, line⟩ :: ·) := by
  obtain ⟨c, s, rfl⟩ := List.exists_cons_of_ne_nil hs
  rw [spans]
  split
  · rename_i fault hfault
    rw [hnone] at hfault
    cases hfault
  · rename_i run' rest' hrun
    rw [hnone] at hrun
    cases hrun
  · split
    · rename_i fault hfault
      rw [h] at hfault
      cases hfault
    · rename_i line' rest' hline
      rw [h] at hline
      cases hline
      rfl

theorem spans_of_cutDocRun?_error {fault : ScanFault} (h : g.cutDocRun? s = .error fault)
    (hs : s ≠ []) : g.spans s = .error fault := by
  obtain ⟨c, s, rfl⟩ := List.exists_cons_of_ne_nil hs
  rw [spans]
  split
  · rename_i fault' hfault
    exact congrArg _ (Except.error.inj (hfault.symm.trans h))
  · rename_i run rest hrun
    rw [h] at hrun
    cases hrun
  · rename_i hnone
    rw [h] at hnone
    cases hnone

theorem spans_of_cutCodeLine_error {fault : ScanFault} (hnone : g.cutDocRun? s = .ok none)
    (h : g.cutCodeLine [] [] s = .error fault) (hs : s ≠ []) : g.spans s = .error fault := by
  obtain ⟨c, s, rfl⟩ := List.exists_cons_of_ne_nil hs
  rw [spans]
  split
  · rename_i fault' hfault
    rw [hnone] at hfault
    cases hfault
  · rename_i run rest hrun
    rw [hnone] at hrun
    cases hrun
  · split
    · rename_i fault' hfault
      exact congrArg _ (Except.error.inj (hfault.symm.trans h))
    · rename_i line rest hline
      rw [h] at hline
      cases hline

/-- A text has no spans only if the scan stops at the front of one of its lines. -/
theorem exists_of_spans_eq_error {fault : ScanFault} (h : g.spans s = .error fault) :
    ∃ t, t <:+ s ∧ (g.cutDocRun? t = .error fault ∨
      g.cutDocRun? t = .ok none ∧ g.cutCodeLine [] [] t = .error fault) := by
  fun_induction Grammar.spans g s with
  | case1 => cases h
  | case2 c s fault' hrun =>
    cases h
    exact ⟨c :: s, List.suffix_refl _, .inl hrun⟩
  | case3 c s run rest hrun ih =>
    cases hrest : g.spans rest with
    | error fault' =>
      rw [hrest] at h
      cases h
      obtain ⟨t, hsuffix, ht⟩ := ih hrest
      exact ⟨t, hsuffix.trans ⟨run, append_of_cutDocRun? hrun⟩, ht⟩
    | ok more => simp [hrest, Except.map] at h
  | case4 c s hnone fault' hline =>
    cases h
    exact ⟨c :: s, List.suffix_refl _, .inr ⟨hnone, hline⟩⟩
  | case5 c s hnone line rest hline ih =>
    cases hrest : g.spans rest with
    | error fault' =>
      rw [hrest] at h
      cases h
      obtain ⟨t, hsuffix, ht⟩ := ih hrest
      exact ⟨t, hsuffix.trans ⟨line, append_of_cutCodeLine hline⟩, ht⟩
    | ok more => simp [hrest, Except.map] at h

/-- A span that has text behind it ends a line. -/
theorem endsLine_of_spans {x : Span} {more : List Span} {rest : List Char}
    (h : g.spans (x.chars ++ rest) = .ok (x :: more)) (hrest : rest ≠ []) : EndsLine x.chars := by
  obtain ⟨-, rest', happend, -, hx⟩ := spans_eq_ok_cons h
  obtain rfl := List.append_cancel_left happend
  split at hx
  · exact endsLine_cutDocRun? hx hrest
  · obtain ⟨taken, hline, -, hends⟩ := exists_taken_of_cutCodeLine hx.2
    rw [List.reverse_nil, List.nil_append] at hline
    exact hline ▸ hends hrest

/-- Spans that have text behind them end a line. -/
theorem endsLine_flatten_of_spans {first second : List Span} {rest : List Char}
    (h : g.spans ((first.map (·.chars)).flatten ++ rest) = .ok (first ++ second))
    (hrest : rest ≠ []) (hfirst : first ≠ []) : EndsLine (first.map (·.chars)).flatten := by
  induction first with
  | nil => exact absurd rfl hfirst
  | cons x first ih =>
    rw [List.map_cons, List.flatten_cons] at h ⊢
    rw [List.append_assoc] at h
    cases first with
    | nil => simpa using endsLine_of_spans h hrest
    | cons y first =>
      obtain ⟨-, behind, happend, hmore, -⟩ := spans_eq_ok_cons h
      obtain rfl := List.append_cancel_left happend
      exact (ih hmore (List.cons_ne_nil y first)).append_left _

/-- Each doc run among joined spans of a text was cut from the text where it stands, behind the end
    of a line, and what it leaves is the text of the spans behind it. -/
theorem exists_cutDocRun?_of_joinCode {all before behind : List Span} {run : List Char}
    (h : g.spans s = .ok all) (hjoined : joinCode all = before ++ ⟨.doc, run⟩ :: behind) :
    ∃ t, t ≠ [] ∧ s = (before.map (·.chars)).flatten ++ t ∧
      ((before.map (·.chars)).flatten ≠ [] → EndsLine (before.map (·.chars)).flatten) ∧
      g.cutDocRun? t = .ok (some (run, (behind.map (·.chars)).flatten)) := by
  obtain ⟨first, second, rfl, rfl, rfl⟩ := exists_of_joinCode_eq hjoined
  obtain ⟨t, rfl, ht⟩ := spans_append_eq_ok h
  obtain ⟨hne, rest, -, hrest, hrun⟩ := spans_eq_ok_cons ht
  rw [flatten_joinCode, flatten_joinCode, flatten_of_spans hrest]
  refine ⟨t, hne, rfl, fun hbefore => endsLine_flatten_of_spans h hne ?_, hrun⟩
  rintro rfl
  exact hbefore rfl

theorem cutDocRun?_of_mem_joinCode {all : List Span} {run : List Char} (h : g.spans s = .ok all)
    (hrun : ⟨.doc, run⟩ ∈ joinCode all) :
    ∃ t rest, g.cutDocRun? t = .ok (some (run, rest)) := by
  obtain ⟨before, after, hjoined⟩ := List.append_of_mem hrun
  obtain ⟨t, -, -, -, hcut⟩ := exists_cutDocRun?_of_joinCode h hjoined
  exact ⟨t, _, hcut⟩

end Grammar

end LiterateSync
