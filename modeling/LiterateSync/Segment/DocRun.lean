import LiterateSync.Segment.Grammar

namespace LiterateSync.Grammar

/-- Whether a delimiter may end before the text: at its end, at a blank or at a
    line ending. -/
def isSeparated : List Char → Bool
  | [] => true
  | c :: _ => Text.isBlank c || c = '\n' || c = '\r'

/-- The delimiter of the doc line whose text after the indent this is, if it is one.
    The longest delimiter that fits decides, even if no separator follows it. -/
def docDelimiter? (g : Grammar) (s : List Char) : Option String :=
  match g.lineComment? s with
  | none => none
  | some d => if isSeparated (s.drop d.length) then some d else none

/-- The blanks before the text of a line. -/
def indent (s : List Char) : List Char :=
  s.takeWhile Text.isBlank

/-- The text of a line after its blanks. -/
def unindented (s : List Char) : List Char :=
  s.dropWhile Text.isBlank

theorem indent_append_unindented (s : List Char) : indent s ++ unindented s = s :=
  List.takeWhile_append_dropWhile

/-- The doc lines at the front of the text that have the indent `margin` and the delimiter
    `d`, behind the lines that `before` holds in reverse, and the text after them. -/
def cutDocLines (g : Grammar) (margin : List Char) (d : String) (before s : List Char) :
    List Char × List Char :=
  if s ≠ [] ∧ indent s = margin ∧ g.docDelimiter? (unindented s) = some d then
    cutDocLines g margin d ((Text.cutLine s).1.reverseAux before) (Text.cutLine s).2
  else (before.reverse, s)
termination_by s.length
decreasing_by
  rename_i h
  have hpos := List.length_pos_iff.2 h.1
  have hline := Text.cutLine_length_le s
  omega

/-- The blanks and carriage returns behind a block comment with the line feed after them, and
    the text after that, if only they stand between the comment and the end of its line or
    of the text. -/
def cutLineEnd? (s : List Char) : Option (List Char × List Char) :=
  let isIdle := fun c => Text.isBlank c || c = '\r'
  match s.dropWhile isIdle with
  | [] => some (s, [])
  | c :: rest => if c = '\n' then some (s.takeWhile isIdle ++ [c], rest) else none

/-- The doc run that starts at the front of a line, if one does, and the text after it. A run
    consists of doc lines with one indent and one delimiter, or of a block comment that
    stands alone on its lines and whose opening delimiter is separated. -/
def cutDocRun? (g : Grammar) (s : List Char) :
    Except ScanFault (Option (List Char × List Char)) :=
  let body := unindented s
  match g.docDelimiter? body with
  | some d => .ok (some (g.cutDocLines (indent s) d [] s))
  | none =>
    match g.blockComment? body with
    | none => .ok none
    | some comment =>
      if isSeparated (body.drop comment.opening.length) then
        (cutBlockComment comment body).map fun (text, rest) =>
          (cutLineEnd? rest).map fun (lineEnd, rest) => (indent s ++ text ++ lineEnd, rest)
      else .ok none

theorem append_cutDocLines (g : Grammar) (margin : List Char) (d : String) (before s : List Char) :
    (g.cutDocLines margin d before s).1 ++ (g.cutDocLines margin d before s).2 =
      before.reverse ++ s := by
  fun_induction cutDocLines g margin d before s with
  | case1 before s h ih =>
    rw [ih, List.reverseAux_eq, List.reverse_append, List.reverse_reverse, List.append_assoc,
      Text.append_cutLine]
  | case2 => rfl

theorem cutDocLines_length_le (g : Grammar) (margin : List Char) (d : String)
    (before s : List Char) : (g.cutDocLines margin d before s).2.length ≤ s.length := by
  fun_induction cutDocLines g margin d before s with
  | case1 before s h ih =>
    have hline := Text.cutLine_length_le s
    omega
  | case2 => exact Nat.le_refl _

theorem append_of_cutLineEnd? {s lineEnd rest : List Char}
    (h : cutLineEnd? s = some (lineEnd, rest)) : lineEnd ++ rest = s := by
  unfold cutLineEnd? at h
  simp only at h
  split at h
  · cases h
    exact List.append_nil s
  · rename_i c r hdrop
    split at h
    · cases h
      rw [List.append_assoc, List.singleton_append, ← hdrop, List.takeWhile_append_dropWhile]
    · cases h

theorem cutLineEnd?_length {s lineEnd rest : List Char}
    (h : cutLineEnd? s = some (lineEnd, rest)) : rest = [] ∨ rest.length < s.length := by
  unfold cutLineEnd? at h
  simp only at h
  split at h
  · cases h
    exact .inl rfl
  · rename_i c r hdrop
    split at h
    · cases h
      have hlen := (List.dropWhile_suffix (l := s) fun c => Text.isBlank c || c = '\r').length_le
      rw [hdrop, List.length_cons] at hlen
      exact .inr hlen
    · cases h

/-- A doc run and what it leaves are the text. -/
theorem append_of_cutDocRun? {g : Grammar} {s run rest : List Char}
    (h : g.cutDocRun? s = .ok (some (run, rest))) : run ++ rest = s := by
  unfold cutDocRun? at h
  simp only at h
  split at h
  · rename_i d _
    have hlines := g.append_cutDocLines (indent s) d [] s
    rw [Option.some.inj (Except.ok.inj h)] at hlines
    exact hlines
  · split at h
    · cases h
    · split at h
      · rename_i comment _ _
        cases hblock : cutBlockComment comment (unindented s) with
        | error fault => simp [hblock, Except.map] at h
        | ok block =>
          obtain ⟨text, behind⟩ := block
          simp only [hblock, Except.map, Except.ok.injEq, Option.map_eq_some_iff, Prod.mk.injEq,
            Prod.exists] at h
          obtain ⟨lineEnd, r, hend, rfl, rfl⟩ := h
          rw [List.append_assoc, append_of_cutLineEnd? hend, List.append_assoc,
            append_of_cutBlockComment hblock, indent_append_unindented]
      · cases h

/-- A doc run takes at least one character of a text that is not empty. -/
theorem cutDocRun?_length_lt {g : Grammar} {s run rest : List Char}
    (h : g.cutDocRun? s = .ok (some (run, rest))) (hne : s ≠ []) : rest.length < s.length := by
  have hpos := List.length_pos_iff.2 hne
  unfold cutDocRun? at h
  simp only at h
  split at h
  · rename_i d hd
    have hrun := Option.some.inj (Except.ok.inj h)
    rw [cutDocLines, if_pos ⟨hne, rfl, hd⟩] at hrun
    have hlines := g.cutDocLines_length_le (indent s) d ((Text.cutLine s).1.reverseAux [])
      (Text.cutLine s).2
    have hline := Text.cutLine_length_le s
    simp only [hrun] at hlines
    omega
  · split at h
    · cases h
    · split at h
      · rename_i comment _ _
        cases hblock : cutBlockComment comment (unindented s) with
        | error fault => simp [hblock, Except.map] at h
        | ok block =>
          obtain ⟨text, behind⟩ := block
          simp only [hblock, Except.map, Except.ok.injEq, Option.map_eq_some_iff, Prod.mk.injEq,
            Prod.exists] at h
          obtain ⟨lineEnd, r, hend, _, rfl⟩ := h
          have hlen := congrArg List.length (append_of_cutBlockComment hblock)
          have hindent := (List.dropWhile_suffix (l := s) Text.isBlank).length_le
          rw [List.length_append, unindented] at hlen
          rcases cutLineEnd?_length hend with rfl | hlt
          · exact hpos
          · omega
      · cases h

end LiterateSync.Grammar
