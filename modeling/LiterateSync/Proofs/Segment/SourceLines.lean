import LiterateSync.Segment.Excerpt
import Mathlib.Data.List.Basic

namespace LiterateSync.Excerpt

variable {source before before' : List Char} {column column' : Nat}

theorem flatten_sourceLines (source : List Char) : (sourceLines source).flatten = source := by
  fun_induction sourceLines source with
  | case1 => rfl
  | case2 s ih => simp [ih]
  | case3 c s _ _ ih => simp [ih]
  | case4 c s _ _ hnil ih => simp_all
  | case5 c s _ _ l ls hcons ih => simp_all

theorem ne_nil_of_mem_sourceLines {l : List Char} (h : l ∈ sourceLines source) : l ≠ [] := by
  fun_induction sourceLines source with
  | case1 => cases h
  | case2 s ih =>
    rcases List.mem_cons.1 h with rfl | h
    · exact List.cons_ne_nil _ _
    · exact ih h
  | case3 c s _ _ ih =>
    rcases List.mem_cons.1 h with rfl | h
    · exact List.cons_ne_nil _ _
    · exact ih h
  | case4 c s _ _ hnil ih =>
    rw [List.mem_singleton.1 h]
    exact List.cons_ne_nil _ _
  | case5 c s _ _ l ls hcons ih =>
    rcases List.mem_cons.1 h with rfl | h
    · exact List.cons_ne_nil _ _
    · exact ih (hcons ▸ List.mem_cons_of_mem l h)

/-- Whether the characters before a place of a source are those of the lines above a line, and those
    of the line itself that stand before a column, which is counted from one. Behind all characters
    of a line is the next line's place, unless there is none. -/
def IsPlace (source before : List Char) (l : Line) (column : Nat) : Prop :=
  ∃ above left right below, sourceLines source = above ++ (left ++ right) :: below ∧
    before = above.flatten ++ left ∧ (right = [] → below = []) ∧
    l = ⟨above.length + 1, above.flatten.length, left ++ right⟩ ∧ column = left.length + 1

/-- Each text that a source starts with ends at a place of the source. -/
theorem exists_isPlace (hsource : source ≠ []) (hbefore : before <+: source) :
    ∃ l column, IsPlace source before l column := by
  obtain ⟨rest, hrest⟩ := hbefore
  rw [← flatten_sourceLines source, eq_comm, List.flatten_eq_append_iff] at hrest
  obtain ⟨above, below, hlines, rfl, -⟩ | ⟨above, left, c, right, below, hlines, rfl, -⟩ := hrest
  · cases below with
    | cons text below =>
      have hmem : text ∈ sourceLines source := by simp [hlines]
      have hne := ne_nil_of_mem_sourceLines hmem
      exact ⟨_, _, above, [], text, below, hlines, (List.append_nil _).symm,
        fun hnil => absurd hnil hne, rfl, rfl⟩
    | nil =>
      rcases List.eq_nil_or_concat' above with rfl | ⟨above, text, rfl⟩
      · rw [← flatten_sourceLines source, hlines] at hsource
        exact absurd rfl hsource
      · exact ⟨_, _, above, text, [], [], by simpa using hlines, by simp, fun _ => rfl, rfl, rfl⟩
  · exact ⟨_, _, above, left, c :: right, below, hlines, rfl, by simp, rfl, rfl⟩

theorem lineAt?_cons {index : Nat} {l : Line} {ls : List Line} (hne : ls ≠ []) :
    lineAt? index (l :: ls) = if index < l.stop then some l else lineAt? index ls := by
  rw [lineAt?]
  exact hne

theorem mem_of_lineAt? {index : Nat} {l : Line} {ls : List Line} (h : lineAt? index ls = some l) :
    l ∈ ls := by
  induction ls with
  | nil => cases h
  | cons x ls ih =>
    by_cases hnil : ls = []
    · subst hnil
      rw [lineAt?] at h
      split_ifs at h
      exact List.mem_singleton.2 (Option.some.inj h).symm
    · rw [lineAt?_cons hnil] at h
      split_ifs at h
      · rw [Option.some.inj h]
        exact List.mem_cons_self
      · exact List.mem_cons_of_mem x (ih h)

theorem numberFrom_ne_nil {ls : List (List Char)} (hne : ls ≠ []) (first start : Nat) :
    numberFrom first start ls ≠ [] := by
  obtain ⟨l, ls, rfl⟩ := List.exists_cons_of_ne_nil hne
  exact List.cons_ne_nil _ _

theorem lineAt?_numberFrom {left right : List Char} {below : List (List Char)}
    (hright : right = [] → below = []) (above : List (List Char)) (first start : Nat) :
    lineAt? (start + (above.flatten ++ left).length)
        (numberFrom first start (above ++ (left ++ right) :: below)) =
      some ⟨first + above.length, start + above.flatten.length, left ++ right⟩ := by
  induction above generalizing first start with
  | nil =>
    cases below with
    | nil => simp [numberFrom, lineAt?, Line.stop]
    | cons l below =>
      have hpos := List.length_pos_of_ne_nil (mt hright (List.cons_ne_nil l below))
      simp [numberFrom, lineAt?, Line.stop, hpos]
  | cons l above ih =>
    have hlength : start + ((l :: above).flatten ++ left).length =
        start + l.length + (above.flatten ++ left).length := by
      simp [Nat.add_assoc]
    rw [List.cons_append, numberFrom, lineAt?_cons (numberFrom_ne_nil (by simp) _ _), hlength,
      if_neg (by simp [Line.stop]), ih]
    simp [Nat.add_assoc, Nat.add_comm 1]

theorem lines_eq (hsource : source ≠ []) :
    lines source = numberFrom 1 0 (sourceLines source) := by
  rw [lines]
  exact hsource

namespace IsPlace

variable {l l' : Line}

theorem isPrefix (h : IsPlace source before l column) : before <+: source := by
  obtain ⟨above, left, right, below, hlines, rfl, -⟩ := h
  rw [← flatten_sourceLines source, hlines]
  exact ⟨right ++ below.flatten, by simp⟩

theorem ne_nil (h : IsPlace source before l column) : source ≠ [] := by
  rintro rfl
  obtain ⟨above, left, right, below, hlines, -⟩ := h
  simp [sourceLines] at hlines

theorem lineAt?_eq (h : IsPlace source before l column) :
    lineAt? before.length (lines source) = some l := by
  rw [lines_eq h.ne_nil]
  obtain ⟨above, left, right, below, heq, rfl, hright, rfl, -⟩ := h
  rw [heq]
  simpa [Nat.add_comm] using lineAt?_numberFrom hright above 1 0

theorem start_add (h : IsPlace source before l column) : l.start + column = before.length + 1 := by
  obtain ⟨above, left, right, below, -, rfl, -, rfl, rfl⟩ := h
  simp only [List.length_append]
  omega

theorem start_le (h : IsPlace source before l column) : l.start ≤ before.length := by
  obtain ⟨above, left, right, below, -, rfl, -, rfl, -⟩ := h
  simp

/-- The line of a place ends behind it, or the place is at the end of the source. -/
theorem lt_stop_or (h : IsPlace source before l column) :
    before.length < l.stop ∨
      before = source ∧ l.stop = source.length ∧ l.number = (sourceLines source).length := by
  obtain ⟨above, left, right, below, heq, rfl, hright, rfl, -⟩ := h
  by_cases hnil : right = []
  · obtain rfl := hright hnil
    subst hnil
    have hflatten := flatten_sourceLines source
    simp only [heq, List.append_nil, List.flatten_append, List.flatten_singleton] at hflatten
    exact .inr ⟨hflatten, by simp [Line.stop, ← hflatten], by simp [heq]⟩
  · have hpos := List.length_pos_of_ne_nil hnil
    simp only [Line.stop, List.length_append]
    omega

/-- A place has the line with its number. -/
theorem eq_of_number_eq (h : IsPlace source before l column)
    (h' : IsPlace source before' l' column') (hnumber : l.number = l'.number) : l = l' := by
  obtain ⟨above, left, right, below, heq, -, -, rfl, -⟩ := h
  obtain ⟨above', left', right', below', heq', -, -, rfl, -⟩ := h'
  obtain ⟨rfl, hrest⟩ := List.append_inj (heq.symm.trans heq') (Nat.succ_inj.1 hnumber)
  rw [(List.cons.inj hrest).1]

/-- The number of a line and a column tell a place. -/
theorem before_eq (h : IsPlace source before l column) (h' : IsPlace source before' l' column)
    (hnumber : l.number = l'.number) : before = before' := by
  have hlength : before.length = before'.length := by
    have := h.start_add
    have := h'.start_add
    rw [h.eq_of_number_eq h' hnumber] at *
    omega
  rw [List.prefix_iff_eq_take.1 h.isPrefix, List.prefix_iff_eq_take.1 h'.isPrefix, hlength]

theorem number_le_length (h : IsPlace source before l column) :
    l.number ≤ (sourceLines source).length := by
  obtain ⟨above, left, right, below, heq, -, -, rfl, -⟩ := h
  rw [heq]
  simp

theorem stop_le_length (h : IsPlace source before l column) : l.stop ≤ source.length := by
  obtain ⟨above, left, right, below, heq, -, -, rfl, -⟩ := h
  rw [← flatten_sourceLines source, heq]
  simp [Line.stop]

theorem stop_le_start (h : IsPlace source before l column) (h' : IsPlace source before' l' column')
    (hlt : l.number < l'.number) : l.stop ≤ l'.start := by
  obtain ⟨above, left, right, below, heq, -, -, rfl, -⟩ := h
  obtain ⟨above', left', right', below', heq', -, -, rfl, -⟩ := h'
  have hlt : above.length < above'.length := Nat.succ_lt_succ_iff.1 hlt
  rcases List.append_eq_append_iff.1 (heq.symm.trans heq') with ⟨more, rfl, hmore⟩ | ⟨more, rfl, -⟩
  · cases more with
    | nil => simp at hlt
    | cons text more =>
      rw [← (List.cons.inj hmore).1]
      simp [Line.stop]
  · rw [List.length_append] at hlt
    omega

/-- A place behind another one is not in a line above. -/
theorem number_le (h : IsPlace source before l column) (h' : IsPlace source before' l' column')
    (hle : before.length ≤ before'.length) : l.number ≤ l'.number := by
  by_contra hlt
  have hstop := h'.stop_le_start h (Nat.lt_of_not_le hlt)
  have hstart := h.start_le
  rcases h'.lt_stop_or with hend | ⟨-, -, hend⟩
  · omega
  · have := h.number_le_length
    omega

end IsPlace

theorem lineAt?_numberFrom_eq_none {ls : List (List Char)} {index start : Nat}
    (h : start + ls.flatten.length < index) (first : Nat) :
    lineAt? index (numberFrom first start ls) = none := by
  induction ls generalizing first start with
  | nil => rfl
  | cons l ls ih =>
    simp only [List.flatten_cons, List.length_append] at h
    rw [numberFrom]
    by_cases hnil : ls = []
    · subst hnil
      rw [numberFrom, lineAt?, if_neg (by simp only [Line.stop]; omega)]
    · rw [lineAt?_cons (numberFrom_ne_nil hnil _ _), if_neg (by simp only [Line.stop]; omega),
        ih (by omega)]

theorem lineAt?_eq_none {index : Nat} (hsource : source ≠ []) (h : source.length < index) :
    lineAt? index (lines source) = none := by
  rw [lines_eq hsource]
  exact lineAt?_numberFrom_eq_none (by rwa [Nat.zero_add, flatten_sourceLines]) 1

end LiterateSync.Excerpt
