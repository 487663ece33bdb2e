import Mathlib.Data.List.Basic
import Mathlib.Data.List.Forall2
import LiterateSync.Document.Subsequence

namespace LiterateSync.Subsequence

variable {α β : Type} {same : α → β → Bool}

/-- The walk along the table takes items of both lists in their order, and pairs only items
    that are the same. -/
theorem sublist_walk (same : α → β → Bool) (xs : List α) (ys : List β)
    (table : List (List Nat)) :
    ((walk same xs ys table).map (·.1)).Sublist xs ∧
      ((walk same xs ys table).map (·.2)).Sublist ys ∧
      ∀ x ∈ walk same xs ys table, same x.1 x.2 = true := by
  induction xs generalizing ys table with
  | nil => simp [walk]
  | cons x xs ihx =>
    induction ys generalizing table with
    | nil => simp [walk]
    | cons y ys ihy =>
      rw [walk]
      split
      · rename_i hsame
        obtain ⟨hxs, hys, hall⟩ := ihx ys (table.tail.map List.tail)
        refine ⟨hxs.cons_cons x, hys.cons_cons y, fun z hz => ?_⟩
        rcases List.mem_cons.1 hz with rfl | hz
        · exact hsame
        · exact hall z hz
      · split
        · obtain ⟨hxs, hys, hall⟩ := ihx (y :: ys) table.tail
          exact ⟨hxs.cons x, hys, hall⟩
        · obtain ⟨hxs, hys, hall⟩ := ihy (table.map List.tail)
          exact ⟨hxs, hys.cons y, hall⟩

/-- Lists that agree item by item are paired item by item. -/
theorem walk_of_forall₂ {xs : List α} {ys : List β} (table : List (List Nat))
    (h : List.Forall₂ (fun x y => same x y = true) xs ys) :
    walk same xs ys table = xs.zip ys := by
  induction h generalizing table with
  | nil => rw [walk]; rfl
  | cons hsame _ ih => rw [walk, if_pos hsame, ih, List.zip_cons_cons]

/-! ### The lengths that lead the walk -/

/-- The length of a longest run of pairs that two lists share in order. -/
def longest (same : α → β → Bool) (xs : List α) (ys : List β) : Nat :=
  ((lengths same xs ys).headD []).headD 0

/-- The table of the lists without the first item of the second one is that of the lists without
    its first column. -/
theorem map_tail_lengths (same : α → β → Bool) (xs : List α) (y : β) (ys : List β) :
    (lengths same xs (y :: ys)).map List.tail = lengths same xs ys := by
  induction xs with
  | nil => simp [lengths, List.replicate_succ]
  | cons x xs ih =>
    have hbelow : ((lengths same xs (y :: ys)).headD []).tail = (lengths same xs ys).headD [] := by
      rw [← ih]
      cases lengths same xs (y :: ys) <;> rfl
    rw [lengths, List.map_cons, ih, row, List.tail_cons, hbelow]
    rfl

@[simp] theorem longest_nil_left (same : α → β → Bool) (ys : List β) : longest same [] ys = 0 := by
  simp [longest, lengths, List.replicate_succ]

@[simp] theorem longest_nil_right (same : α → β → Bool) (xs : List α) : longest same xs [] = 0 := by
  cases xs <;> simp [longest, lengths, row]

theorem longest_cons_cons (same : α → β → Bool) (x : α) (xs : List α) (y : β) (ys : List β) :
    longest same (x :: xs) (y :: ys) =
      if same x y then longest same xs ys + 1
      else max (longest same xs (y :: ys)) (longest same (x :: xs) ys) := by
  have hbelow : ((lengths same xs (y :: ys)).headD []).tail = (lengths same xs ys).headD [] := by
    rw [← map_tail_lengths same xs y ys]
    cases lengths same xs (y :: ys) <;> rfl
  simp only [longest, lengths, List.headD_cons, row, hbelow]

/-- Of two ways that are equally good, the one that leaves an item of the first list behind is
    taken. -/
theorem common_cons_cons (same : α → β → Bool) (x : α) (xs : List α) (y : β) (ys : List β) :
    common same (x :: xs) (y :: ys) =
      if same x y then (x, y) :: common same xs ys
      else if longest same (x :: xs) ys ≤ longest same xs (y :: ys) then common same xs (y :: ys)
      else common same (x :: xs) ys := by
  have hright : ((lengths same (x :: xs) (y :: ys)).headD []).tail =
      (lengths same (x :: xs) ys).headD [] := by
    rw [← map_tail_lengths same (x :: xs) y ys]
    rfl
  have hbelow : (lengths same (x :: xs) (y :: ys)).tail = lengths same xs (y :: ys) := rfl
  rw [common, walk, hright, hbelow, map_tail_lengths, map_tail_lengths]
  rfl

theorem longest_le_left (same : α → β → Bool) (xs : List α) (ys : List β) :
    longest same xs ys ≤ xs.length := by
  induction xs generalizing ys with
  | nil => simp
  | cons x xs ihx =>
    induction ys with
    | nil => simp
    | cons y ys ihy =>
      rw [longest_cons_cons, List.length_cons]
      split
      · exact Nat.succ_le_succ (ihx ys)
      · exact Nat.max_le.2 ⟨Nat.le_succ_of_le (ihx (y :: ys)), ihy⟩

theorem longest_le_right (same : α → β → Bool) (xs : List α) (ys : List β) :
    longest same xs ys ≤ ys.length := by
  induction xs generalizing ys with
  | nil => simp
  | cons x xs ihx =>
    induction ys with
    | nil => simp
    | cons y ys ihy =>
      rw [longest_cons_cons, List.length_cons]
      split
      · exact Nat.succ_le_succ (ihx ys)
      · exact Nat.max_le.2 ⟨ihx (y :: ys), Nat.le_succ_of_le ihy⟩

/-- One more item in the first list makes the run longer by one pair at most, and one more in the
    second list does not make it shorter. -/
theorem longest_cons_bounds (same : α → β → Bool) (xs : List α) :
    (∀ x ys, longest same (x :: xs) ys ≤ longest same xs ys + 1) ∧
      ∀ y ys, longest same xs ys ≤ longest same xs (y :: ys) := by
  induction xs with
  | nil => exact ⟨fun x ys => by simpa using longest_le_left same [x] ys, by simp⟩
  | cons x xs ih =>
    obtain ⟨hgrows, hkeeps⟩ := ih
    have hmore : ∀ y ys, longest same (x :: xs) ys ≤ longest same (x :: xs) (y :: ys) := by
      intro y ys
      rw [longest_cons_cons]
      split
      · exact hgrows x ys
      · exact Nat.le_max_right _ _
    refine ⟨fun z ys => ?_, hmore⟩
    induction ys with
    | nil => simp
    | cons y ys ihy =>
      have hstep := hmore y ys
      rw [longest_cons_cons same z]
      split
      · omega
      · exact Nat.max_le.2 ⟨Nat.le_succ _, by omega⟩

theorem longest_le_cons_right (same : α → β → Bool) (xs : List α) (y : β) (ys : List β) :
    longest same xs ys ≤ longest same xs (y :: ys) :=
  (longest_cons_bounds same xs).2 y ys

/-- Pairs of the same items, in the order of both lists. -/
structure IsCommon (same : α → β → Bool) (xs : List α) (ys : List β) (pairs : List (α × β)) :
    Prop where
  left : (pairs.map (·.1)).Sublist xs
  right : (pairs.map (·.2)).Sublist ys
  same : ∀ x ∈ pairs, same x.1 x.2 = true

theorem isCommon_common (same : α → β → Bool) (xs : List α) (ys : List β) :
    IsCommon same xs ys (common same xs ys) :=
  have ⟨hleft, hright, hsame⟩ := sublist_walk same xs ys (lengths same xs ys)
  ⟨hleft, hright, hsame⟩

/-- The pairs that are in order are no more than the table says. -/
theorem IsCommon.length_le {xs : List α} {ys : List β} {pairs : List (α × β)}
    (h : IsCommon same xs ys pairs) : pairs.length ≤ longest same xs ys := by
  induction xs generalizing ys pairs with
  | nil =>
    have hnil : pairs = [] := by simpa using h.left
    simp [hnil]
  | cons x xs ihx =>
    induction ys generalizing pairs with
    | nil =>
      have hnil : pairs = [] := by simpa using h.right
      simp [hnil]
    | cons y ys ihy =>
      rw [longest_cons_cons]
      cases pairs with
      | nil => exact Nat.zero_le _
      | cons first pairs =>
        obtain ⟨hleft, hright, hsame⟩ := h
        rw [List.map_cons] at hleft hright
        split
        · -- Whatever the first pair is, the others are behind both first items.
          refine Nat.succ_le_succ (ihx ⟨hleft.of_cons_cons, hright.of_cons_cons, ?_⟩)
          exact fun z hz => hsame z (List.mem_cons_of_mem _ hz)
        · rename_i hdiffers
          cases hleft with
          | cons _ hleft =>
            exact Nat.le_trans (ihx ⟨hleft, hright, hsame⟩) (Nat.le_max_left _ _)
          | cons_cons _ hleft =>
            cases hright with
            | cons _ hright =>
              exact Nat.le_trans (ihy ⟨hleft.cons_cons _, hright, hsame⟩) (Nat.le_max_right _ _)
            | cons_cons _ hright => exact absurd (hsame first List.mem_cons_self) hdiffers

/-- The walk makes as many pairs as the table says. -/
theorem length_common (same : α → β → Bool) (xs : List α) (ys : List β) :
    (common same xs ys).length = longest same xs ys := by
  induction xs generalizing ys with
  | nil => simp [common, walk]
  | cons x xs ihx =>
    induction ys with
    | nil => simp [common, walk]
    | cons y ys ihy =>
      rw [common_cons_cons, longest_cons_cons]
      split
      · rw [List.length_cons, ihx ys]
      · split
        · rename_i hle
          rw [ihx (y :: ys), Nat.max_eq_left hle]
        · rename_i hle
          rw [ihy, Nat.max_eq_right (Nat.le_of_not_le hle)]

/-- No order-preserving choice of pairs is longer than the walk. -/
theorem IsCommon.length_le_common {xs : List α} {ys : List β} {pairs : List (α × β)}
    (h : IsCommon same xs ys pairs) : pairs.length ≤ (common same xs ys).length :=
  length_common same xs ys ▸ h.length_le

theorem longest_of_forall₂ {xs : List α} {ys : List β}
    (h : List.Forall₂ (fun x y => same x y = true) xs ys) : longest same xs ys = xs.length := by
  induction h with
  | nil => simp
  | cons hsame _ ih => rw [longest_cons_cons, if_pos hsame, ih, List.length_cons]

theorem common_of_forall₂ {xs : List α} {ys : List β}
    (h : List.Forall₂ (fun x y => same x y = true) xs ys) : common same xs ys = xs.zip ys :=
  walk_of_forall₂ _ h

/-- Lists that agree item by item but for the first one are paired item by item behind it, as long
    as the first item of the second list comes up nowhere in the first. -/
theorem common_of_head_differs {x : α} {y : β} {xs : List α} {ys : List β}
    (hdiffers : same x y = false) (h : List.Forall₂ (fun x y => same x y = true) xs ys)
    (hnew : ∀ z ∈ xs, same z y = false) : common same (x :: xs) (y :: ys) = xs.zip ys := by
  -- Both ways are equally good, so the first list is left behind by one item.
  have hleave : longest same (x :: xs) ys ≤ longest same xs (y :: ys) :=
    calc longest same (x :: xs) ys ≤ ys.length := longest_le_right same _ _
      _ = longest same xs ys := by rw [longest_of_forall₂ h, h.length_eq]
      _ ≤ longest same xs (y :: ys) := longest_le_cons_right same _ _ _
  rw [common_cons_cons, if_neg (by simp [hdiffers]), if_pos hleave]
  cases h with
  | nil => rw [common, walk]; rfl
  | @cons z w xs ys hsame h =>
    -- From here on only the second list can be left behind without a loss.
    have hfull : longest same (z :: xs) (w :: ys) = xs.length + 1 :=
      longest_of_forall₂ (.cons hsame h)
    have hshort := longest_le_left same xs (y :: w :: ys)
    rw [common_cons_cons, if_neg (by simp [hnew z (by simp)]), if_neg (by omega)]
    exact common_of_forall₂ (.cons hsame h)

/-- Lists that agree item by item but for one are paired item by item around it, as long as the
    item of the second list comes up nowhere behind it in the first. -/
theorem common_of_one_differs {front back : List α} {front' back' : List β} {x : α} {y : β}
    (hfront : List.Forall₂ (fun x y => same x y = true) front front')
    (hdiffers : same x y = false)
    (hback : List.Forall₂ (fun x y => same x y = true) back back')
    (hnew : ∀ z ∈ back, same z y = false) :
    common same (front ++ x :: back) (front' ++ y :: back') =
      front.zip front' ++ back.zip back' := by
  induction hfront with
  | nil => exact common_of_head_differs hdiffers hback hnew
  | cons hsame _ ih =>
    rw [List.cons_append, List.cons_append, common_cons_cons, if_pos hsame, ih,
      List.zip_cons_cons, List.cons_append]

end LiterateSync.Subsequence
