import Mathlib.Data.List.Basic
import Mathlib.Data.List.Nodup
import LiterateSync.Document.Basic
import LiterateSync.Proofs.Text.Digits

namespace LiterateSync.IdSource

/-- Decimal digits carry no sign, so nothing is stripped before they are read. -/
theorem dropPrefix_plus_toDigits (n : Nat) :
    Text.dropPrefix ['+'] (Nat.toDigits 10 n) = Nat.toDigits 10 n := by
  have hplus : '+' ∉ Nat.toDigits 10 n := by
    intro hmem
    have := Nat.isDigit_of_mem_toDigits (by decide) (by decide) hmem
    exact absurd this (by decide)
  rw [Text.dropPrefix]
  cases hsplit : Text.afterPrefix? ['+'] (Nat.toDigits 10 n) with
  | none => rfl
  | some r =>
    have heq := Text.afterPrefix?_eq_some_iff.1 hsplit
    simp [heq] at hplus

theorem number?_toString (n : Nat) :
    number? (toString n).toList = if n ≤ maxNumber then some n else none := by
  rw [Text.toList_toString, number?]
  simp [dropPrefix_plus_toDigits, Text.decimal_toDigits, Text.all_isDigit_toDigits,
    Nat.toDigits_ne_nil]

/-- A name that the source spells carries the number it was spelled from, if a name can
    carry that number at all. -/
theorem numberOf?_name (g : IdSource) (n : Nat) :
    g.numberOf? (g.name n) = if n ≤ maxNumber then some n else none := by
  have hsplit : Text.afterPrefix? g.stem.toList (g.name n).text.toList =
      some (toString n).toList := by
    rw [Text.afterPrefix?_eq_some_iff, name, String.toList_append]
  rw [numberOf?, hsplit, Option.bind_some, number?_toString]

/-- The names of every source have a letter in front of their numbers. -/
theorem exists_stem_eq (g : IdSource) : ∃ front, g.stem.toList = front ++ ['b'] := by
  obtain ⟨_ | seed, count⟩ := g
  · exact ⟨[], by simp [stem]⟩
  · exact ⟨seed.toList ++ ['-'], by simp [stem]⟩

theorem mem_of_stem_eq_append {g : IdSource} {front back : List Char}
    (h : g.stem.toList = front ++ back) (hback : back ≠ []) : 'b' ∈ back := by
  obtain ⟨start, hstart⟩ := g.exists_stem_eq
  obtain ⟨init, c, rfl⟩ := (List.eq_nil_or_concat' back).resolve_left hback
  rw [hstart, ← List.append_assoc] at h
  obtain ⟨-, hc⟩ := List.append_inj' h rfl
  obtain rfl : 'b' = c := by simpa using hc
  simp

theorem seed_eq_of_stem_eq {g h : IdSource} (heq : g.stem = h.stem) : g.seed = h.seed := by
  obtain ⟨_ | s, _⟩ := g <;> obtain ⟨_ | t, _⟩ := h
  · rfl
  · have hlength := congrArg (fun s : String => s.toList.length) heq
    simp [stem] at hlength
  · have hlength := congrArg (fun s : String => s.toList.length) heq
    simp [stem] at hlength
  · have htext := congrArg String.toList heq
    simpa [stem, String.toList_append, String.toList_inj] using htext

theorem number?_of_mem {s : List Char} (h : 'b' ∈ s) : number? s = none := by
  rw [number?]
  refine if_neg fun hnumber => ?_
  simp only [Bool.and_eq_true, List.all_eq_true] at hnumber
  have hmem : 'b' ∈ Text.dropPrefix ['+'] s := by
    rw [Text.dropPrefix]
    cases hafter : Text.afterPrefix? ['+'] s with
    | none => exact h
    | some r =>
      rw [Text.afterPrefix?_eq_some_iff.1 hafter] at h
      simpa using h
  exact absurd (hnumber.1.2 'b' hmem) (by decide)

/-- Sources with different seeds do not share the forms of their names. -/
theorem numberOf?_name_of_seed_ne {g h : IdSource} (hseed : h.seed ≠ g.seed) (n : Nat) :
    g.numberOf? (h.name n) = none := by
  have hstem : ¬ h.stem.toList = g.stem.toList := fun heq =>
    hseed (seed_eq_of_stem_eq (String.toList_inj.1 heq))
  rw [numberOf?]
  cases hafter : Text.afterPrefix? g.stem.toList (h.name n).text.toList with
  | none => rfl
  | some r =>
    have heq := Text.afterPrefix?_eq_some_iff.1 hafter
    rw [name, String.toList_append] at heq
    rw [Option.bind_some]
    obtain ⟨more, hg, hdigits⟩ | ⟨more, hh, hrest⟩ := List.append_eq_append_iff.1 heq
    · have hmem : 'b' ∈ (toString n).toList := by
        rw [hdigits]
        refine List.mem_append_left r (mem_of_stem_eq_append hg fun hnil => hstem ?_)
        rw [hg, hnil, List.append_nil]
      rw [Text.toList_toString] at hmem
      exact absurd (Nat.isDigit_of_mem_toDigits (by decide) (by decide) hmem) (by decide)
    · rw [hrest]
      refine number?_of_mem (List.mem_append_left _ (mem_of_stem_eq_append hh fun hnil => hstem ?_))
      rw [hh, hnil, List.append_nil]

theorem name_injective (g : IdSource) : Function.Injective g.name := by
  intro m n h
  have htext : g.stem ++ toString m = g.stem ++ toString n := congrArg BlockId.text h
  have hdigits : Nat.toDigits 10 m = Nat.toDigits 10 n := by
    have := congrArg String.toList htext
    simpa [String.toList_append] using this
  rw [← Text.decimal_toDigits m, hdigits, Text.decimal_toDigits]

/-- One source gives its names after another one: the seed is the same, and no number
    is given out twice. -/
structure Advances (g h : IdSource) : Prop where
  seed_eq : h.seed = g.seed
  count_le : g.count ≤ h.count

theorem Advances.refl (g : IdSource) : g.Advances g :=
  ⟨rfl, Nat.le_refl _⟩

theorem Advances.trans {g h k : IdSource} (hgh : g.Advances h) (hhk : h.Advances k) :
    g.Advances k :=
  ⟨hhk.seed_eq.trans hgh.seed_eq, Nat.le_trans hgh.count_le hhk.count_le⟩

/-- The names that have the form of a source are settled by its seed. -/
theorem Advances.numberOf?_eq {g h : IdSource} (hadv : g.Advances h) (id : BlockId) :
    h.numberOf? id = g.numberOf? id := by
  simp only [numberOf?, stem, hadv.seed_eq]

theorem Advances.name_eq {g h : IdSource} (hadv : g.Advances h) (n : Nat) :
    h.name n = g.name n := by
  simp only [name, stem, hadv.seed_eq]

theorem advances_observe (g : IdSource) (id : BlockId) : g.Advances (g.observe id) := by
  rw [observe]
  split
  · exact ⟨rfl, Nat.le_max_left _ _⟩
  · exact Advances.refl g

theorem advances_fresh (g : IdSource) : g.Advances g.fresh.2 :=
  ⟨rfl, Nat.le_succ _⟩

theorem observe_fresh {g : IdSource} (h : g.count < maxNumber) :
    g.observe g.fresh.1 = g.fresh.2 := by
  have hnumber : g.numberOf? g.fresh.1 = some (g.count + 1) := by
    rw [fresh, numberOf?_name, if_pos (Nat.succ_le_of_lt h)]
  rw [observe, hnumber, fresh]
  simp

/-- A name that will not be given out anyway makes no difference to a source. -/
theorem observe_eq_self {g : IdSource} {id : BlockId}
    (h : ∀ n, g.numberOf? id = some n → n ≤ g.count) : g.observe id = g := by
  rw [observe]
  split
  · rename_i n hn
    rw [Nat.max_eq_left (h n hn)]
  · rfl

theorem numberOf?_le_observe {g : IdSource} {id : BlockId} {n : Nat}
    (hn : g.numberOf? id = some n) : n ≤ (g.observe id).count := by
  rw [observe, hn]
  exact Nat.le_max_right _ _

/-- A source is past the names of some blocks: they are distinct, and none of those that
    have its form is yet to be given out. -/
structure Covers (g : IdSource) (blocks : List Block) : Prop where
  nodup : (blocks.map (·.id)).Nodup
  number_le : ∀ b ∈ blocks, ∀ n, g.numberOf? b.id = some n → n ≤ g.count

theorem Covers.of_perm {g : IdSource} {xs ys : List Block} (hcovers : g.Covers xs)
    (hperm : xs.Perm ys) : g.Covers ys :=
  ⟨(hperm.map _).nodup_iff.1 hcovers.nodup, fun b hb => hcovers.number_le b (hperm.mem_iff.2 hb)⟩

theorem Covers.advance {g h : IdSource} {blocks : List Block} (hcovers : g.Covers blocks)
    (hadv : g.Advances h) : h.Covers blocks := by
  refine ⟨hcovers.nodup, fun b hb n hn => ?_⟩
  rw [hadv.numberOf?_eq] at hn
  exact Nat.le_trans (hcovers.number_le b hb n hn) hadv.count_le

/-- A name with a number that is still to be given out belongs to no block, as long as the
    number can be carried by a name. -/
theorem Covers.name_not_mem {g : IdSource} {blocks : List Block} (hcovers : g.Covers blocks)
    {n : Nat} (hlt : g.count < n) (hmax : n ≤ maxNumber) :
    g.name n ∉ blocks.map (·.id) := by
  intro hmem
  obtain ⟨b, hb, hid⟩ := List.mem_map.1 hmem
  have hle := hcovers.number_le b hb n (by rw [hid, numberOf?_name, if_pos hmax])
  omega

theorem Covers.cons_observe {g : IdSource} {blocks : List Block} (hcovers : g.Covers blocks)
    {b : Block} (hnew : b.id ∉ blocks.map (·.id)) : (g.observe b.id).Covers (b :: blocks) := by
  have hold := hcovers.advance (advances_observe g b.id)
  refine ⟨by simpa [hnew] using hcovers.nodup, fun c hc n hn => ?_⟩
  rcases List.mem_cons.1 hc with rfl | hc
  · rw [(advances_observe g c.id).numberOf?_eq] at hn
    exact numberOf?_le_observe hn
  · exact hold.number_le c hc n hn

end LiterateSync.IdSource

namespace LiterateSync.Document

/-- The names of the blocks of a document are distinct, and its source will give out none of
    them again. -/
def WellNamed (d : Document) : Prop :=
  d.ids.Covers d.blocks

/-- The names of new blocks are those of the source in a row. -/
theorem id_nameSegments (g : IdSource) (segments : List Segment) :
    (nameSegments g segments).1.map (·.id) =
      (List.range' (g.count + 1) segments.length).map g.name := by
  induction segments generalizing g with
  | nil => rfl
  | cons s ss ih =>
    have hname : g.fresh.2.name = g.name := funext (IdSource.advances_fresh g).name_eq
    simp only [nameSegments, List.map_cons, ih, hname, List.length_cons, List.range'_succ]
    rfl

theorem count_nameSegments (g : IdSource) (segments : List Segment) :
    (nameSegments g segments).2.count = g.count + segments.length := by
  induction segments generalizing g with
  | nil => rfl
  | cons s ss ih =>
    simp only [nameSegments, ih, IdSource.fresh, List.length_cons]
    omega

theorem advances_nameSegments (g : IdSource) (segments : List Segment) :
    g.Advances (nameSegments g segments).2 := by
  induction segments generalizing g with
  | nil => exact .refl g
  | cons s ss ih => exact (IdSource.advances_fresh g).trans (ih _)

theorem wellNamed_build (p : Profile) (g : IdSource) (segments : List Segment) :
    (build p g segments).WellNamed := by
  have hids := id_nameSegments g segments
  have hadv := advances_nameSegments g segments
  refine ⟨?_, fun b hb n hn => ?_⟩
  · change ((nameSegments g segments).1.map (·.id)).Nodup
    rw [hids]
    exact (List.nodup_range' 1).map g.name_injective
  · change b ∈ (nameSegments g segments).1 at hb
    change (nameSegments g segments).2.numberOf? b.id = some n at hn
    change n ≤ (nameSegments g segments).2.count
    have hmem : b.id ∈ (List.range' (g.count + 1) segments.length).map g.name := by
      rw [← hids]
      exact List.mem_map_of_mem hb
    obtain ⟨m, hm, hname⟩ := List.mem_map.1 hmem
    rw [hadv.numberOf?_eq, ← hname, IdSource.numberOf?_name] at hn
    split at hn
    · cases hn
      rw [count_nameSegments]
      have := (List.mem_range'_1.1 hm).2
      omega
    · cases hn

theorem wellNamed_of_openWith [RegexLibrary] {p : Profile} {g : IdSource} {source : String}
    {d : Document} (h : openWith p g source = .ok d) : d.WellNamed := by
  unfold openWith at h
  cases hsegments : segment p source with
  | error e => simp [hsegments, Except.map] at h
  | ok segments =>
    simp only [hsegments, Except.map, Except.ok.injEq] at h
    subst h
    exact wellNamed_build p g segments

end LiterateSync.Document
