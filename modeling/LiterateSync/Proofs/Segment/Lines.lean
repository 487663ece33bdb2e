import Mathlib.Data.List.Chain
import LiterateSync.Segment.Split

namespace LiterateSync

/-- Whether some characters end with a line feed. -/
def EndsLine (s : List Char) : Prop :=
  s.getLast? = some '\n'

instance (s : List Char) : Decidable (EndsLine s) :=
  inferInstanceAs (Decidable (s.getLast? = some '\n'))

theorem EndsLine.append_left {t : List Char} (h : EndsLine t) (s : List Char) :
    EndsLine (s ++ t) := by
  rw [EndsLine, List.getLast?_append, h, Option.some_or]

theorem EndsLine.ne_nil {s : List Char} (h : EndsLine s) : s ≠ [] := by
  rintro rfl
  cases h

theorem EndsLine.of_append {s t : List Char} (h : EndsLine (s ++ t)) (ht : t ≠ []) :
    EndsLine t := by
  rwa [EndsLine, List.getLast?_append_of_ne_nil _ ht] at h

theorem EndsLine.of_cons {c : Char} {s : List Char} (h : EndsLine (c :: s)) (hs : s ≠ []) :
    EndsLine s :=
  EndsLine.of_append (s := [c]) h hs

theorem endsLine_cutLine {s : List Char} (h : (Text.cutLine s).2 ≠ []) :
    EndsLine (Text.cutLine s).1 := by
  rw [Text.cutLine] at h ⊢
  cases htail : s.dropWhile (· != '\n') with
  | nil => simp [htail] at h
  | cons c r =>
    have hc := List.head_dropWhile_not (fun c => c != '\n') (l := s) (by simp [htail])
    have hfeed : c = '\n' := by simpa [htail] using hc
    refine EndsLine.append_left ?_ _
    simp [EndsLine, hfeed]

namespace Grammar

variable {g : Grammar} {s line run rest : List Char}

/-- Only the end of the text and a line feed outside all contexts end a line of code. -/
theorem move_ends {contexts : List Context} {m : Move} (h : g.move contexts s = .ok m)
    (hend : m.contexts = none) : m.rest = [] ∨ contexts = [] ∧ m.taken = ['\n'] := by
  unfold move at h
  split at h
  · cases h
    exact .inl rfl
  · split at h
    · rename_i hfeed
      cases h
      exact .inr ⟨rfl, by rw [hfeed]⟩
    · rcases tokenMove_eq h with rfl | ⟨token, -, -, rfl⟩ <;> cases hend
  · cases h
    unfold stringMove at hend
    split at hend
    · cases hend
    · split at hend
      · cases hend
      · split at hend
        · cases hend
        · split at hend <;> cases hend
  · rcases tokenMove_eq h with rfl | ⟨token, -, -, rfl⟩ <;> cases hend

/-- A line of code takes what comes before its end. It ends at a line feed if there is text
    behind it. -/
theorem exists_taken_of_cutCodeLine {contexts : List Context} {before : List Char}
    (h : g.cutCodeLine contexts before s = .ok (line, rest)) :
    ∃ taken, line = before.reverse ++ taken ∧ taken ++ rest = s ∧
      (rest ≠ [] → EndsLine taken) := by
  fun_induction cutCodeLine g contexts before s with
  | case1 => cases h
  | case2 contexts before s m hmove hend =>
    cases h
    refine ⟨m.taken, by simp [List.reverseAux_eq], append_of_move hmove, fun hrest => ?_⟩
    rcases move_ends hmove hend with hnil | ⟨-, htaken⟩
    · exact absurd hnil hrest
    · rw [htaken]
      rfl
  | case3 contexts before s m hmove cs _ ih =>
    obtain ⟨taken, hline, happend, hends⟩ := ih h
    refine ⟨m.taken ++ taken, by simp [hline, List.reverseAux_eq], ?_, fun hrest => ?_⟩
    · rw [List.append_assoc, happend, append_of_move hmove]
    · exact (hends hrest).append_left _

theorem endsLine_cutDocLines {margin : List Char} {d : String} {before : List Char}
    (hbefore : s ≠ [] → before ≠ [] → EndsLine before.reverse)
    (h : g.cutDocLines margin d before s = (run, rest)) (hrest : rest ≠ []) (hrun : run ≠ []) :
    EndsLine run := by
  fun_induction cutDocLines g margin d before s with
  | case1 before s hdoc ih =>
    refine ih (fun hmore _ => ?_) h
    rw [List.reverseAux_eq, List.reverse_append, List.reverse_reverse]
    exact (endsLine_cutLine hmore).append_left _
  | case2 before s _ =>
    cases h
    exact hbefore hrest fun hnil => hrun (by rw [hnil, List.reverse_nil])

theorem endsLine_cutLineEnd? {lineEnd : List Char} (h : cutLineEnd? s = some (lineEnd, rest))
    (hrest : rest ≠ []) : EndsLine lineEnd := by
  unfold cutLineEnd? at h
  simp only at h
  split at h
  · cases h
    exact absurd rfl hrest
  · split at h
    · rename_i hfeed
      cases h
      subst hfeed
      exact EndsLine.append_left (t := ['\n']) rfl _
    · cases h

/-- A doc run is one of doc lines, or a block comment with the end of its last line. -/
theorem cutDocRun?_cases (h : g.cutDocRun? s = .ok (some (run, rest))) :
    (∃ d, g.docDelimiter? (unindented s) = some d ∧
      g.cutDocLines (indent s) d [] s = (run, rest)) ∨
    g.docDelimiter? (unindented s) = none ∧ ∃ comment text lineEnd behind,
      g.blockComment? (unindented s) = some comment ∧
      isSeparated ((unindented s).drop comment.opening.length) = true ∧
      cutBlockComment comment (unindented s) = .ok (text, behind) ∧
      cutLineEnd? behind = some (lineEnd, rest) ∧ run = indent s ++ text ++ lineEnd := by
  unfold cutDocRun? at h
  simp only at h
  split at h
  · rename_i d hd
    exact .inl ⟨d, hd, Option.some.inj (Except.ok.inj h)⟩
  · rename_i hnone
    split at h
    · cases h
    · rename_i comment hcomment
      split at h
      · rename_i hseparated
        cases hblock : cutBlockComment comment (unindented s) with
        | error fault => simp [hblock, Except.map] at h
        | ok block =>
          obtain ⟨text, behind⟩ := block
          simp only [hblock, Except.map, Except.ok.injEq, Option.map_eq_some_iff, Prod.mk.injEq,
            Prod.exists] at h
          obtain ⟨lineEnd, r, hend, rfl, rfl⟩ := h
          exact .inr ⟨hnone, comment, text, lineEnd, behind, hcomment, hseparated, hblock, hend,
            rfl⟩
      · cases h

theorem cutDocRun?_ne_nil (h : g.cutDocRun? s = .ok (some (run, rest))) (hs : s ≠ []) :
    run ≠ [] := by
  rintro rfl
  have hlt := cutDocRun?_length_lt h hs
  rw [← append_of_cutDocRun? h, List.nil_append] at hlt
  exact Nat.lt_irrefl _ hlt

/-- A doc run ends at a line feed if there is text behind it. -/
theorem endsLine_cutDocRun? (h : g.cutDocRun? s = .ok (some (run, rest))) (hrest : rest ≠ []) :
    EndsLine run := by
  have hs : s ≠ [] := by
    rintro rfl
    exact hrest (List.append_eq_nil_iff.1 (append_of_cutDocRun? h)).2
  obtain ⟨d, -, hlines⟩ | ⟨-, comment, text, lineEnd, behind, -, -, -, hend, rfl⟩ :=
    cutDocRun?_cases h
  · exact endsLine_cutDocLines (fun _ hnil => absurd rfl hnil) hlines hrest
      (cutDocRun?_ne_nil h hs)
  · exact (endsLine_cutLineEnd? hend hrest).append_left _

theorem cutCodeLine_ne_nil {c : Char} (h : g.cutCodeLine [] [] (c :: s) = .ok (line, rest)) :
    line ≠ [] := by
  rintro rfl
  have hlt := cutCodeLine_length_lt h
  have happend := append_of_cutCodeLine h
  simp only [List.nil_append, List.reverse_nil] at happend
  rw [happend] at hlt
  exact Nat.lt_irrefl _ hlt

/-- The first span of a text that is not empty, and the spans of the text behind it. -/
theorem spans_cons_eq_ok {c : Char} {all : List Span} (h : g.spans (c :: s) = .ok all) :
    ∃ x more rest, all = x :: more ∧ x.chars ++ rest = c :: s ∧ g.spans rest = .ok more ∧
      match x.kind with
      | .doc => g.cutDocRun? (c :: s) = .ok (some (x.chars, rest))
      | .code => g.cutDocRun? (c :: s) = .ok none ∧
        g.cutCodeLine [] [] (c :: s) = .ok (x.chars, rest) := by
  rw [spans] at h
  split at h
  · cases h
  · rename_i run rest hrun
    cases hmore : g.spans rest with
    | error fault => simp [hmore, Except.map] at h
    | ok more =>
      simp only [hmore, Except.map, Except.ok.injEq] at h
      exact ⟨⟨.doc, run⟩, more, rest, h.symm, append_of_cutDocRun? hrun, hmore, hrun⟩
  · rename_i hnone
    split at h
    · cases h
    · rename_i line rest hline
      cases hmore : g.spans rest with
      | error fault => simp [hmore, Except.map] at h
      | ok more =>
        simp only [hmore, Except.map, Except.ok.injEq] at h
        exact ⟨⟨.code, line⟩, more, rest, h.symm, by simpa using append_of_cutCodeLine hline,
          hmore, hnone, hline⟩

/-- No span is empty, and each that has another one behind it ends at a line feed. -/
theorem spans_endsLine {all : List Span} (h : g.spans s = .ok all) :
    (∀ x ∈ all, x.chars ≠ []) ∧ all.IsChain fun x _ => EndsLine x.chars := by
  induction hlength : s.length using Nat.strong_induction_on generalizing s all with
  | _ n ih =>
    cases s with
    | nil =>
      rw [spans] at h
      cases h
      exact ⟨by simp, .nil⟩
    | cons c s =>
      obtain ⟨x, more, rest, rfl, happend, hmore, hx⟩ := spans_cons_eq_ok h
      have hfirst : x.chars ≠ [] ∧ (rest ≠ [] → EndsLine x.chars) := by
        cases hkind : x.kind with
        | doc =>
          rw [hkind] at hx
          exact ⟨cutDocRun?_ne_nil hx (List.cons_ne_nil c s), endsLine_cutDocRun? hx⟩
        | code =>
          rw [hkind] at hx
          obtain ⟨taken, hline, -, hends⟩ := exists_taken_of_cutCodeLine hx.2
          rw [List.reverse_nil, List.nil_append] at hline
          exact ⟨cutCodeLine_ne_nil hx.2, fun hrest => hline ▸ hends hrest⟩
      have hlt : rest.length < n := by
        rw [← hlength, ← happend, List.length_append]
        have := List.length_pos_iff.2 hfirst.1
        omega
      obtain ⟨hne, hchain⟩ := ih rest.length hlt hmore rfl
      refine ⟨List.forall_mem_cons.2 ⟨hfirst.1, hne⟩, ?_⟩
      cases more with
      | nil => exact .singleton x
      | cons y more =>
        refine List.isChain_cons_cons.2 ⟨hfirst.2 ?_, hchain⟩
        rintro rfl
        rw [spans] at hmore
        cases hmore

end Grammar

theorem segment_eq_ok_iff [RegexLibrary] {p : Profile} {text : String} {segments : List Segment} :
    segment p text = .ok segments ↔ p.fault? = none ∧
      ∃ spans, p.grammar.spans text.toList = .ok spans ∧
        segments = Segment.place 0 (joinCode spans) := by
  rw [segment]
  cases p.fault? with
  | some fault => simp
  | none => cases p.grammar.spans text.toList <;> simp [eq_comm]

theorem segment_eq_error_iff [RegexLibrary] {p : Profile} {text : String} {e : SegmentError} :
    segment p text = .error e ↔ (∃ fault, p.fault? = some fault ∧ e = .ofFault p fault) ∨
      p.fault? = none ∧ ∃ fault, p.grammar.spans text.toList = .error fault ∧
        e = fault.error text.toList := by
  rw [segment]
  cases p.fault? with
  | some fault => simp [eq_comm]
  | none => cases p.grammar.spans text.toList <;> simp [eq_comm]

end LiterateSync
