import LiterateSync.Proofs.Text.LineEnding
import LiterateSync.Proofs.Text.Search

namespace LiterateSync.Text

variable {w : List Char}

/-- What holds of the empty text and of a text of one line, and is kept when a line is put before a
    text, holds of every text. -/
theorem lines_induction {motive : List Char → Prop} (nil : motive [])
    (last : ∀ w, w ≠ [] → '\n' ∉ w → motive w)
    (line : ∀ w s, '\n' ∉ w → motive s → motive (w ++ '\n' :: s)) (s : List Char) : motive s := by
  induction hlength : s.length using Nat.strong_induction_on generalizing s with
  | _ n ih =>
    by_cases hs : '\n' ∈ s
    · obtain ⟨w, t, rfl, hw⟩ := List.eq_append_cons_of_mem hs
      refine line w t hw (ih t.length ?_ t rfl)
      rw [← hlength, List.length_append, List.length_cons]
      omega
    · by_cases hnil : s = []
      · exact hnil ▸ nil
      · exact last s hnil hs

theorem lines_line (hw : '\n' ∉ w) (s : List Char) :
    lines (w ++ '\n' :: s) = (w ++ ['\n']) :: lines s := by
  induction w with
  | nil => simp [lines]
  | cons c w ih =>
    rw [List.mem_cons, not_or] at hw
    rw [List.cons_append, lines, if_neg (Ne.symm hw.1), ih hw.2]
    rfl

theorem lines_last (hne : w ≠ []) (hw : '\n' ∉ w) : lines w = [w] := by
  induction w with
  | nil => exact absurd rfl hne
  | cons c w ih =>
    rw [List.mem_cons, not_or] at hw
    rw [lines, if_neg (Ne.symm hw.1)]
    cases w with
    | nil => rfl
    | cons d w => rw [ih (List.cons_ne_nil d w) hw.2]

theorem fields_line (hw : '\n' ∉ w) (s : List Char) :
    fields '\n' (w ++ '\n' :: s) = w :: fields '\n' s := by
  induction w with
  | nil => simp [fields]
  | cons c w ih =>
    rw [List.mem_cons, not_or] at hw
    rw [List.cons_append, fields, if_neg (Ne.symm hw.1), ih hw.2]

theorem fields_last (hw : '\n' ∉ w) : fields '\n' w = [w] := by
  induction w with
  | nil => rfl
  | cons c w ih =>
    rw [List.mem_cons, not_or] at hw
    rw [fields, if_neg (Ne.symm hw.1), ih hw.2]

theorem fields_ne_nil (s : List Char) : fields '\n' s ≠ [] := by
  induction s using lines_induction with
  | nil => simp [fields]
  | last w _ hw => simp [fields_last hw]
  | line w s hw _ => simp [fields_line hw]

end LiterateSync.Text
