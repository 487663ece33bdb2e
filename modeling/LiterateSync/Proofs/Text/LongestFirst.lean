import Mathlib.Data.List.Basic
import LiterateSync.Text.Basic

namespace LiterateSync.Text

variable {α : Type} {size : α → Nat} {x y : α} {xs : List α}

theorem mem_longestFirst_insert : y ∈ longestFirst.insert size x xs ↔ y = x ∨ y ∈ xs := by
  induction xs with
  | nil => simp [longestFirst.insert]
  | cons z xs ih =>
    rw [longestFirst.insert]
    split
    · simp
    · rw [List.mem_cons, ih, List.mem_cons, or_left_comm]

@[simp] theorem mem_longestFirst : y ∈ longestFirst size xs ↔ y ∈ xs := by
  induction xs with
  | nil => rfl
  | cons x xs ih => rw [longestFirst, mem_longestFirst_insert, ih, List.mem_cons]

/-- No item comes behind a shorter one. -/
theorem pairwise_longestFirst (size : α → Nat) (xs : List α) :
    (longestFirst size xs).Pairwise fun x y => size y ≤ size x := by
  induction xs with
  | nil => exact .nil
  | cons x xs ih =>
    rw [longestFirst]
    generalize longestFirst size xs = ys at ih
    induction ys with
    | nil => exact List.pairwise_singleton _ x
    | cons y ys ihys =>
      obtain ⟨hy, hys⟩ := List.pairwise_cons.1 ih
      rw [longestFirst.insert]
      split
      · rename_i hle
        refine List.pairwise_cons.2 ⟨fun z hz => ?_, ih⟩
        rcases List.mem_cons.1 hz with rfl | hz
        · exact hle
        · exact Nat.le_trans (hy z hz) hle
      · rename_i hlt
        refine List.pairwise_cons.2 ⟨fun z hz => ?_, ihys hys⟩
        rcases mem_longestFirst_insert.1 hz with rfl | hz
        · omega
        · exact hy z hz

/-- The first item that is fit is not shorter than any other one. -/
theorem size_le_of_find?_longestFirst {q : α → Bool}
    (h : (longestFirst size xs).find? q = some y) (hx : x ∈ xs) (hq : q x = true) :
    size x ≤ size y := by
  obtain ⟨-, first, second, hsplit, hfirst⟩ := List.find?_eq_some_iff_append.1 h
  have hsorted := pairwise_longestFirst size xs
  have hx : x ∈ longestFirst size xs := mem_longestFirst.2 hx
  rw [hsplit] at hsorted hx
  rcases List.mem_append.1 hx with hx | hx
  · have hnot := hfirst x hx
    rw [hq] at hnot
    cases hnot
  · rcases List.mem_cons.1 hx with rfl | hx
    · exact Nat.le_refl _
    · exact (List.pairwise_cons.1 (List.pairwise_append.1 hsorted).2.1).1 x hx

/-- Items of one size keep their order, so the first of them stays the first. -/
theorem find?_longestFirst {q : α → Bool}
    (hq : ∀ x ∈ xs, ∀ y ∈ xs, q x = true → q y = true → size x = size y) :
    (longestFirst size xs).find? q = xs.find? q := by
  induction xs with
  | nil => rfl
  | cons x xs ih =>
    have hrest := ih fun y hy z hz =>
      hq y (List.mem_cons_of_mem x hy) z (List.mem_cons_of_mem x hz)
    rw [longestFirst, List.find?_cons, ← hrest]
    have hlonger : ∀ y ∈ longestFirst size xs, q x = true → q y = true → size y ≤ size x :=
      fun y hy hx hqy => Nat.le_of_eq <| hq y
        (List.mem_cons_of_mem x (mem_longestFirst.1 hy)) x List.mem_cons_self hqy hx
    generalize longestFirst size xs = ys at hlonger
    clear ih hrest hq
    induction ys with
    | nil =>
      rw [longestFirst.insert, List.find?_cons]
    | cons y ys ihys =>
      have htail := ihys fun z hz => hlonger z (List.mem_cons_of_mem y hz)
      rw [longestFirst.insert]
      split
      · rw [List.find?_cons]
      · rename_i hshort
        rw [List.find?_cons, htail, List.find?_cons]
        cases hy : q y with
        | false => rfl
        | true =>
          cases hx : q x with
          | false => rfl
          | true => exact absurd (hlonger y List.mem_cons_self hx hy) hshort

end LiterateSync.Text
