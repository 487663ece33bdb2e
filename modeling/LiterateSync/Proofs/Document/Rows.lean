import Mathlib.Data.List.Basic
import Mathlib.Data.List.Sort
import LiterateSync.Proofs.Document.Layout

namespace LiterateSync

/-! ### Sublists -/

theorem filter_key_eq_of_sublist {α β : Type} [DecidableEq β] {key : α → β} {xs l : List α}
    (hsub : xs.Sublist l) (hnodup : (l.map key).Nodup) :
    l.filter (fun x => (xs.map key).contains (key x)) = xs := by
  induction hsub with
  | slnil => rfl
  | cons a hsub ih =>
    rw [List.map_cons, List.nodup_cons] at hnodup
    have ha : key a ∉ List.map key _ := fun hmem => hnodup.1 ((hsub.map key).subset hmem)
    rw [List.filter_cons, if_neg (by simpa using ha), ih hnodup.2]
  | cons_cons a hsub ih =>
    rw [List.map_cons, List.nodup_cons] at hnodup
    rw [List.filter_cons, if_pos (by simp)]
    refine congrArg (a :: ·) (Eq.trans (List.filter_congr fun x hx => ?_) (ih hnodup.2))
    have hne : key x ≠ key a := fun heq => hnodup.1 (heq ▸ List.mem_map_of_mem hx)
    simp [hne]

/-- Two parts of a list without repetitions that have the same items are the same part. -/
theorem eq_of_sublist_of_mem_iff {α β : Type} [DecidableEq β] {key : α → β} {xs ys l : List α}
    (hxs : xs.Sublist l) (hys : ys.Sublist l) (hnodup : (l.map key).Nodup)
    (hmem : ∀ x, x ∈ xs ↔ x ∈ ys) : xs = ys := by
  rw [← filter_key_eq_of_sublist hxs hnodup, ← filter_key_eq_of_sublist hys hnodup]
  refine List.filter_congr fun x _ => ?_
  rw [Bool.eq_iff_iff]
  simp only [List.contains_iff_mem, List.mem_map, hmem]

theorem filterMap_range_getElem? {α : Type} (l : List α) :
    (List.range l.length).filterMap (fun i => l[i]?) = l := by
  induction l with
  | nil => rfl
  | cons a l ih =>
    rw [List.length_cons, List.range_succ_eq_map, List.filterMap_cons_some (by rfl),
      List.filterMap_map]
    exact congrArg (a :: ·) ih

/-- Items at rising indexes come in the order of the list. -/
theorem sublist_filterMap_getElem? {α : Type} {l : List α} {is : List Nat}
    (hrising : is.Pairwise (· < ·)) (hlt : ∀ i ∈ is, i < l.length) :
    (is.filterMap fun i => l[i]?).Sublist l := by
  have hsub : is.Sublist (List.range l.length) := by
    refine List.sublist_of_subperm_of_pairwise (r := (· ≤ ·)) ?_
      (hrising.imp Nat.le_of_lt) (List.pairwise_lt_range.imp Nat.le_of_lt)
    exact List.subperm_of_subset (hrising.imp Nat.ne_of_lt) fun i hi => List.mem_range.2 (hlt i hi)
  have := hsub.filterMap fun i => l[i]?
  rwa [filterMap_range_getElem?] at this

namespace Pairing

theorem mem_rows {new : List Block} {p : Pairing} {n : Nat} {b : Block} {partner : Option Nat} :
    (n, b, partner) ∈ rows new p ↔ new[n]? = some b ∧ p[n]? = some partner := by
  simp only [rows, List.mem_map, Prod.exists, Prod.mk.injEq]
  constructor
  · rintro ⟨b, partner, n, hmem, rfl, rfl, rfl⟩
    have := List.mem_zipIdx_iff_getElem?.1 hmem
    simpa [List.getElem?_zip_eq_some] using this
  · rintro ⟨hb, hpartner⟩
    refine ⟨b, partner, n, List.mem_zipIdx_iff_getElem?.2 ?_, rfl, rfl, rfl⟩
    simpa [List.getElem?_zip_eq_some] using ⟨hb, hpartner⟩

theorem length_rows {new : List Block} {p : Pairing} (h : new.length = p.length) :
    (rows new p).length = new.length := by
  simp [rows, h]

theorem map_block_rows {new : List Block} {p : Pairing} (h : new.length = p.length) :
    (rows new p).map (·.2.1) = new := by
  have hzip : (new.zip p).map (·.1) = new := List.map_fst_zip (Nat.le_of_eq h)
  calc (rows new p).map (·.2.1)
      = ((new.zip p).zipIdx.map Prod.fst).map (·.1) := by
        simp only [rows, List.map_map]
        rfl
    _ = new := by rw [List.zipIdx_map_fst, hzip]

/-- The rows without their blocks are the pairing with its indexes. -/
theorem map_partner_rows {new : List Block} {p : Pairing} (h : new.length = p.length) :
    (rows new p).map (fun row => (row.2.2, row.1)) = p.zipIdx := by
  have hzip : (new.zip p).map (·.2) = p := List.map_snd_zip (Nat.le_of_eq h.symm)
  conv_rhs => rw [← hzip, List.zipIdx_map]
  simp only [rows, List.map_map]
  rfl

theorem nodup_fst_pairs (p : Pairing) : (p.pairs.map (·.1)).Nodup := by
  have hsub : (p.pairs.map (·.1)).Sublist (p.zipIdx.map (·.2)) := by
    rw [pairs, List.map_filterMap]
    have : ∀ l : List (Option Nat × Nat),
        (l.filterMap fun x => (x.1.map (x.2, ·)).map (·.1)).Sublist (l.map (·.2)) := by
      intro l
      induction l with
      | nil => exact .slnil
      | cons x l ih =>
        obtain ⟨partner, n⟩ := x
        cases partner with
        | none => exact ih.cons n
        | some o => exact ih.cons_cons n
    exact this p.zipIdx
  rw [List.zipIdx_map_snd] at hsub
  exact hsub.nodup (List.nodup_range' 1)

section Kept

variable {old new : List Block} {p : Pairing}

/-- The blocks that stay are those of a rising part of the pairs. -/
theorem stayers_rows (h : new.length = p.length) (staying : List Nat) :
    stayers old staying (rows new p) =
      ((p.pairs.filter fun x => staying.contains x.1).map (·.2)).filterMap fun o => old[o]? := by
  have hrows : stayers old staying (rows new p) =
      (p.zipIdx.filter fun x => staying.contains x.2).filterMap fun x => x.1.bind (old[·]?) := by
    rw [← map_partner_rows h, List.filter_map, List.filterMap_map]
    rfl
  rw [hrows, pairs]
  generalize p.zipIdx = l
  induction l with
  | nil => rfl
  | cons x l ih =>
    obtain ⟨partner, n⟩ := x
    cases partner <;> by_cases hn : n ∈ staying <;> simp_all [List.filterMap_cons]

end Kept

end Pairing

end LiterateSync
