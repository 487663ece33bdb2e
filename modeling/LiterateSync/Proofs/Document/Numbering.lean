import LiterateSync.Proofs.Document.Naming

namespace LiterateSync.IdSource

/-! A source of names that is asked for names and shown names from elsewhere, in any order. -/

inductive Use where
  | next
  | observe (id : BlockId)
  deriving DecidableEq, Repr

/-- The name that the source gives out or is shown, and the source behind it. -/
def use? (g : IdSource) : Use → Option (BlockId × IdSource)
  | .next => g.next?
  | .observe id => some (id, g.observe id)

/-- All the names that are given out or shown, in order, and the source behind them, if there is a
    number for each name that is asked for. -/
def uses? (g : IdSource) : List Use → Option (List BlockId × IdSource)
  | [] => some ([], g)
  | u :: us =>
    match g.use? u with
    | none => none
    | some (id, h) => (h.uses? us).map fun (ids, last) => (id :: ids, last)

variable {g h k : IdSource} {id : BlockId} {ids : List BlockId}

theorem next?_eq_none_iff : g.next? = none ↔ maxNumber ≤ g.count := by
  rw [next?]
  split <;> simp <;> omega

theorem next?_eq_some (hnext : g.next? = some (id, h)) :
    g.count < maxNumber ∧ (id, h) = g.fresh := by
  rw [next?] at hnext
  split at hnext
  · exact ⟨‹_›, (Option.some.inj hnext).symm⟩
  · cases hnext

theorem numberOf?_le_max {n : Nat} (hn : g.numberOf? id = some n) : n ≤ maxNumber := by
  rw [numberOf?] at hn
  obtain ⟨digits, -, hdigits⟩ := Option.bind_eq_some_iff.1 hn
  rw [number?] at hdigits
  split at hdigits
  · rename_i hnumber
    cases hdigits
    simp only [Bool.and_eq_true, decide_eq_true_eq] at hnumber
    exact hnumber.2
  · cases hdigits

theorem numberOf?_name_next (hroom : g.count < maxNumber) :
    g.numberOf? (g.name (g.count + 1)) = some (g.count + 1) := by
  rw [numberOf?_name, if_pos (Nat.succ_le_of_lt hroom)]

/-- Where the counter of a source stands behind some names: at the number of one of them if it has
    moved, and not in front of any. -/
structure Behind (g : IdSource) (ids : List BlockId) (h : IdSource) : Prop where
  advances : g.Advances h
  number_le : ∀ id ∈ ids, ∀ n, g.numberOf? id = some n → n ≤ h.count
  count_eq : h.count = g.count ∨ ∃ id ∈ ids, g.numberOf? id = some h.count

theorem Behind.cons (hone : g.Behind [id] h) (hrest : h.Behind ids k) : g.Behind (id :: ids) k where
  advances := hone.advances.trans hrest.advances
  number_le := by
    intro x hx n hn
    rcases List.mem_cons.1 hx with rfl | hx
    · exact Nat.le_trans (hone.number_le x (by simp) n hn) hrest.advances.count_le
    · exact hrest.number_le x hx n (hone.advances.numberOf?_eq x ▸ hn)
  count_eq := by
    obtain hsame | ⟨x, hx, hn⟩ := hrest.count_eq
    · rw [hsame]
      obtain hstart | ⟨x, hx, hn⟩ := hone.count_eq
      · exact .inl hstart
      · exact .inr ⟨x, List.mem_cons.2 (.inl (List.mem_singleton.1 hx)), hn⟩
    · exact .inr ⟨x, List.mem_cons_of_mem id hx, hone.advances.numberOf?_eq x ▸ hn⟩

theorem behind_of_use? {u : Use} (huse : g.use? u = some (id, h)) : g.Behind [id] h := by
  cases u with
  | next =>
    obtain ⟨hroom, heq⟩ := next?_eq_some huse
    obtain ⟨rfl, rfl⟩ : id = g.name (g.count + 1) ∧ h = { g with count := g.count + 1 } := by
      simpa [fresh] using heq
    have hnumber := numberOf?_name_next hroom
    refine ⟨advances_fresh g, fun x hx n hn => ?_, .inr ⟨_, List.mem_singleton_self _, hnumber⟩⟩
    rw [List.mem_singleton.1 hx, hnumber, Option.some.injEq] at hn
    exact Nat.le_of_eq hn.symm
  | observe x =>
    obtain ⟨rfl, rfl⟩ : x = id ∧ g.observe x = h := by simpa [use?] using huse
    refine ⟨advances_observe g x, fun y hy n hn => ?_, ?_⟩
    · rw [List.mem_singleton.1 hy] at hn
      exact numberOf?_le_observe hn
    · rw [observe]
      split
      · rename_i n hn
        obtain hle | hle := Nat.le_total n g.count
        · exact .inl (Nat.max_eq_left hle)
        · exact .inr ⟨x, List.mem_singleton_self x, by simpa [Nat.max_eq_right hle] using hn⟩
      · exact .inl rfl

theorem behind_of_uses? {us : List Use} (huses : g.uses? us = some (ids, h)) :
    g.Behind ids h := by
  induction us generalizing g ids with
  | nil =>
    obtain ⟨rfl, rfl⟩ : [] = ids ∧ g = h := by simpa [uses?] using huses
    exact ⟨.refl g, nofun, .inl rfl⟩
  | cons u us ih =>
    rw [uses?] at huses
    split at huses
    · cases huses
    · rename_i id next huse
      obtain ⟨⟨more, last⟩, hmore, heq⟩ := Option.map_eq_some_iff.1 huses
      obtain ⟨rfl, rfl⟩ : id :: more = ids ∧ last = h := by simpa using heq
      exact (behind_of_use? huse).cons (ih hmore)

/-- A source has no number left only if it began so, or has come across the last number. -/
theorem Behind.next?_eq_none_iff (hbehind : g.Behind ids h) : h.next? = none ↔
    maxNumber ≤ g.count ∨ ∃ id ∈ ids, g.numberOf? id = some maxNumber := by
  rw [IdSource.next?_eq_none_iff]
  constructor
  · intro hle
    obtain hsame | ⟨x, hx, hn⟩ := hbehind.count_eq
    · exact .inl (hsame ▸ hle)
    · exact .inr ⟨x, hx, Nat.le_antisymm hle (numberOf?_le_max hn) ▸ hn⟩
  · rintro (hle | ⟨x, hx, hn⟩)
    · exact Nat.le_trans hle hbehind.advances.count_le
    · exact hbehind.number_le x hx _ hn

/-- A name that is given out is none of those before. -/
theorem Behind.not_mem_of_next? (hbehind : g.Behind ids h) (hnext : h.next? = some (id, k)) :
    id ∉ ids := by
  obtain ⟨hroom, heq⟩ := next?_eq_some hnext
  obtain rfl : id = h.name (h.count + 1) := congrArg Prod.fst heq
  intro hmem
  have hnumber := numberOf?_name_next hroom
  rw [hbehind.advances.numberOf?_eq] at hnumber
  have hle := hbehind.number_le _ hmem _ hnumber
  omega

end LiterateSync.IdSource
