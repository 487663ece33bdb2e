import Mathlib.Data.List.Basic
import Mathlib.Data.List.Nodup
import LiterateSync.Document.Patch
import LiterateSync.Proofs.Document.Naming

namespace LiterateSync.Block

@[simp] theorem isIn_iff {id : BlockId} {blocks : List Block} :
    isIn id blocks = true ↔ id ∈ blocks.map (·.id) := by
  simp [isIn]

@[simp] theorem isIn_eq_false_iff {id : BlockId} {blocks : List Block} :
    isIn id blocks = false ↔ id ∉ blocks.map (·.id) := by
  rw [← isIn_iff, Bool.not_eq_true]

/-- The first block with a name parts the blocks in those before it and those behind it.
    The three edits at a name are all made at that point. -/
theorem exists_split {id : BlockId} {blocks : List Block} (hmem : id ∈ blocks.map (·.id)) :
    ∃ front b back, blocks = front ++ b :: back ∧ b.id = id ∧ id ∉ front.map (·.id) := by
  induction blocks with
  | nil => cases hmem
  | cons c blocks ih =>
    by_cases hc : c.id = id
    · exact ⟨[], c, blocks, rfl, hc, by simp⟩
    · have hrest : id ∈ blocks.map (·.id) := by
        rw [List.map_cons, List.mem_cons] at hmem
        exact hmem.resolve_left (Ne.symm hc)
      obtain ⟨front, b, back, rfl, hb, hfront⟩ := ih hrest
      refine ⟨c :: front, b, back, rfl, hb, ?_⟩
      simp only [List.map_cons, List.mem_cons, not_or]
      exact ⟨Ne.symm hc, hfront⟩

theorem findIdx?_eq_none {id : BlockId} {blocks : List Block} (hmem : id ∉ blocks.map (·.id)) :
    blocks.findIdx? (·.id = id) = none := by
  rw [List.findIdx?_eq_none_iff]
  intro c hc
  exact decide_eq_false fun heq => hmem (heq ▸ List.mem_map_of_mem hc)

theorem findIdx?_append {front back : List Block} {b : Block}
    (hfront : b.id ∉ front.map (·.id)) :
    (front ++ b :: back).findIdx? (·.id = b.id) = some front.length := by
  rw [List.findIdx?_append, findIdx?_eq_none hfront, List.findIdx?_cons]
  simp

theorem find?_append {front back : List Block} {b : Block}
    (hfront : b.id ∉ front.map (·.id)) :
    (front ++ b :: back).find? (·.id = b.id) = some b := by
  have hnone : front.find? (·.id = b.id) = none := List.find?_eq_none.2 fun c hc heq =>
    hfront (of_decide_eq_true heq ▸ List.mem_map_of_mem hc)
  rw [List.find?_append, hnone, List.find?_cons]
  simp

@[simp] theorem place_none (b : Block) (blocks : List Block) :
    place b none blocks = some (b :: blocks) := by
  cases blocks <;> rfl

theorem place_append (b : Block) {front back : List Block} {c : Block}
    (hfront : c.id ∉ front.map (·.id)) :
    place b (some c.id) (front ++ c :: back) = some (front ++ c :: b :: back) := by
  induction front with
  | nil => simp [place]
  | cons d front ih =>
    simp only [List.map_cons, List.mem_cons, not_or] at hfront
    simp [place, Ne.symm hfront.1, ih hfront.2]

theorem place_eq_none {b : Block} {id : BlockId} {blocks : List Block}
    (hmem : id ∉ blocks.map (·.id)) : place b (some id) blocks = none := by
  induction blocks with
  | nil => rfl
  | cons c blocks ih =>
    simp only [List.map_cons, List.mem_cons, not_or] at hmem
    simp [place, Ne.symm hmem.1, ih hmem.2]

theorem takeOut_append {front back : List Block} {b : Block}
    (hfront : b.id ∉ front.map (·.id)) :
    takeOut b.id (front ++ b :: back) = some (b, front ++ back) := by
  induction front with
  | nil => simp [takeOut]
  | cons d front ih =>
    simp only [List.map_cons, List.mem_cons, not_or] at hfront
    simp [takeOut, Ne.symm hfront.1, ih hfront.2]

theorem takeOut_eq_none {id : BlockId} {blocks : List Block} (hmem : id ∉ blocks.map (·.id)) :
    takeOut id blocks = none := by
  induction blocks with
  | nil => rfl
  | cons c blocks ih =>
    simp only [List.map_cons, List.mem_cons, not_or] at hmem
    simp [takeOut, Ne.symm hmem.1, ih hmem.2]

theorem setContent_append (content : String) {front back : List Block} {b : Block}
    (hfront : b.id ∉ front.map (·.id)) :
    setContent b.id content (front ++ b :: back) =
      some (front ++ { b with content } :: back) := by
  induction front with
  | nil => simp [setContent]
  | cons d front ih =>
    simp only [List.map_cons, List.mem_cons, not_or] at hfront
    simp [setContent, Ne.symm hfront.1, ih hfront.2]

theorem setContent_eq_none {id : BlockId} {content : String} {blocks : List Block}
    (hmem : id ∉ blocks.map (·.id)) : setContent id content blocks = none := by
  induction blocks with
  | nil => rfl
  | cons c blocks ih =>
    simp only [List.map_cons, List.mem_cons, not_or] at hmem
    simp [setContent, Ne.symm hmem.1, ih hmem.2]

/-- A block can be put anywhere but behind a block that is not there. -/
theorem exists_place (b : Block) {after : Option BlockId} {blocks : List Block}
    (hafter : ∀ a ∈ after, a ∈ blocks.map (·.id)) :
    ∃ result, place b after blocks = some result := by
  cases after with
  | none => exact ⟨_, place_none b blocks⟩
  | some a =>
    obtain ⟨front, c, back, rfl, rfl, hfront⟩ := exists_split (hafter a rfl)
    exact ⟨_, place_append b hfront⟩

theorem perm_of_place {b : Block} {after : Option BlockId} {blocks result : List Block}
    (h : place b after blocks = some result) : result.Perm (b :: blocks) := by
  cases after with
  | none =>
    rw [place_none, Option.some.injEq] at h
    exact h ▸ List.Perm.refl _
  | some a =>
    by_cases hmem : a ∈ blocks.map (·.id)
    · obtain ⟨front, c, back, rfl, rfl, hfront⟩ := exists_split hmem
      rw [place_append b hfront, Option.some.injEq] at h
      subst h
      have hmiddle : (front ++ [c] ++ b :: back).Perm (b :: (front ++ [c] ++ back)) :=
        List.perm_middle
      simpa using hmiddle
    · rw [place_eq_none hmem] at h
      cases h

theorem exists_takeOut {id : BlockId} {blocks : List Block} (hmem : id ∈ blocks.map (·.id)) :
    ∃ b rest, takeOut id blocks = some (b, rest) := by
  obtain ⟨front, b, back, rfl, rfl, hfront⟩ := exists_split hmem
  exact ⟨b, front ++ back, takeOut_append hfront⟩

theorem perm_of_takeOut {id : BlockId} {blocks rest : List Block} {b : Block}
    (h : takeOut id blocks = some (b, rest)) : b.id = id ∧ blocks.Perm (b :: rest) := by
  by_cases hmem : id ∈ blocks.map (·.id)
  · obtain ⟨front, c, back, rfl, rfl, hfront⟩ := exists_split hmem
    rw [takeOut_append hfront, Option.some.injEq, Prod.mk.injEq] at h
    obtain ⟨rfl, rfl⟩ := h
    exact ⟨rfl, List.perm_middle⟩
  · rw [takeOut_eq_none hmem] at h
    cases h

theorem exists_setContent {id : BlockId} (content : String) {blocks : List Block}
    (hmem : id ∈ blocks.map (·.id)) : ∃ result, setContent id content blocks = some result := by
  obtain ⟨front, b, back, rfl, rfl, hfront⟩ := exists_split hmem
  exact ⟨_, setContent_append content hfront⟩

/-- Another content for a block leaves all names in their places. -/
theorem ids_of_setContent {id : BlockId} {content : String} {blocks result : List Block}
    (h : setContent id content blocks = some result) :
    id ∈ blocks.map (·.id) ∧ result.map (·.id) = blocks.map (·.id) := by
  by_cases hmem : id ∈ blocks.map (·.id)
  · refine ⟨hmem, ?_⟩
    obtain ⟨front, b, back, rfl, rfl, hfront⟩ := exists_split hmem
    rw [setContent_append content hfront, Option.some.injEq] at h
    subst h
    simp
  · rw [setContent_eq_none hmem] at h
    cases h

end LiterateSync.Block

namespace LiterateSync.PatchOp

/-- An insertion under a new name behind a block that is there can be made. -/
theorem exists_apply_insert {b : Block} {after : Option BlockId} {blocks : List Block}
    (hnew : b.id ∉ blocks.map (·.id)) (hafter : ∀ a ∈ after, a ∈ blocks.map (·.id)) :
    ∃ result, (insert b after).apply blocks = .ok result := by
  obtain ⟨result, hplace⟩ := Block.exists_place b hafter
  exact ⟨result, by simp only [apply, Block.isIn_eq_false_iff.2 hnew, hplace]; rfl⟩

theorem exists_apply_delete {id : BlockId} {blocks : List Block}
    (hmem : id ∈ blocks.map (·.id)) : ∃ result, (delete id).apply blocks = .ok result := by
  obtain ⟨b, rest, htake⟩ := Block.exists_takeOut hmem
  exact ⟨rest, by simp only [apply, htake]⟩

theorem exists_apply_replace {id : BlockId} (content : String) {blocks : List Block}
    (hmem : id ∈ blocks.map (·.id)) :
    ∃ result, (replace id content).apply blocks = .ok result := by
  obtain ⟨result, hset⟩ := Block.exists_setContent content hmem
  exact ⟨result, by simp only [apply, hset]⟩

/-- A block can be moved behind any other block that is there, but not behind itself. -/
theorem exists_apply_move {id : BlockId} {after : Option BlockId} {blocks : List Block}
    (hmem : id ∈ blocks.map (·.id)) (hafter : ∀ a ∈ after, a ∈ blocks.map (·.id) ∧ a ≠ id) :
    ∃ result, (move id after).apply blocks = .ok result := by
  obtain ⟨b, rest, htake⟩ := Block.exists_takeOut hmem
  obtain ⟨rfl, hperm⟩ := Block.perm_of_takeOut htake
  have hrest : ∀ a ∈ after, a ∈ rest.map (·.id) := by
    intro a ha
    obtain ⟨hin, hne⟩ := hafter a ha
    have hcons := (hperm.map (·.id)).mem_iff.1 hin
    rw [List.map_cons, List.mem_cons] at hcons
    exact hcons.resolve_left hne
  obtain ⟨result, hplace⟩ := Block.exists_place b hrest
  exact ⟨result, by simp only [apply, htake, hplace]⟩

theorem perm_of_apply_insert {b : Block} {after : Option BlockId} {blocks result : List Block}
    (h : (insert b after).apply blocks = .ok result) :
    b.id ∉ blocks.map (·.id) ∧ result.Perm (b :: blocks) := by
  simp only [apply] at h
  split at h
  · cases h
  · rename_i hnew
    refine ⟨fun hmem => hnew (Block.isIn_iff.2 hmem), ?_⟩
    split at h
    · rename_i hplace
      cases h
      exact Block.perm_of_place hplace
    · cases h

theorem perm_of_apply_delete {id : BlockId} {blocks result : List Block}
    (h : (delete id).apply blocks = .ok result) :
    ∃ b, b.id = id ∧ blocks.Perm (b :: result) := by
  simp only [apply] at h
  split at h
  · rename_i b rest htake
    cases h
    exact ⟨b, Block.perm_of_takeOut htake⟩
  · cases h

theorem ids_of_apply_replace {id : BlockId} {content : String} {blocks result : List Block}
    (h : (replace id content).apply blocks = .ok result) :
    id ∈ blocks.map (·.id) ∧ result.map (·.id) = blocks.map (·.id) := by
  simp only [apply] at h
  split at h
  · rename_i hset
    cases h
    exact Block.ids_of_setContent hset
  · cases h

theorem perm_of_apply_move {id : BlockId} {after : Option BlockId} {blocks result : List Block}
    (h : (move id after).apply blocks = .ok result) :
    id ∈ blocks.map (·.id) ∧ result.Perm blocks := by
  simp only [apply] at h
  split at h
  · cases h
  · rename_i b rest htake
    obtain ⟨rfl, hperm⟩ := Block.perm_of_takeOut htake
    refine ⟨(hperm.map (·.id)).mem_iff.2 (by simp), ?_⟩
    split at h
    · rename_i hplace
      cases h
      exact (Block.perm_of_place hplace).trans hperm.symm
    · cases h

theorem advances_observe (op : PatchOp) (g : IdSource) : g.Advances (op.observe g) := by
  cases op with
  | insert b after => exact IdSource.advances_observe g b.id
  | delete id => exact .refl g
  | replace id content => exact .refl g
  | move id after => exact .refl g

/-- A change keeps the names distinct and the source past them. -/
theorem covers_of_apply {op : PatchOp} {blocks result : List Block} {g : IdSource}
    (hcovers : g.Covers blocks) (h : op.apply blocks = .ok result) :
    (op.observe g).Covers result := by
  cases op with
  | insert b after =>
    obtain ⟨hnew, hperm⟩ := perm_of_apply_insert h
    exact (hcovers.cons_observe hnew).of_perm hperm.symm
  | delete id =>
    obtain ⟨b, -, hperm⟩ := perm_of_apply_delete h
    have hcons := hcovers.of_perm hperm
    refine ⟨(List.nodup_cons.1 hcons.nodup).2, fun c hc => ?_⟩
    exact hcons.number_le c (List.mem_cons_of_mem b hc)
  | replace id content =>
    obtain ⟨-, hids⟩ := ids_of_apply_replace h
    refine ⟨hids ▸ hcovers.nodup, fun c hc => ?_⟩
    have hmem : c.id ∈ blocks.map (·.id) := hids ▸ List.mem_map_of_mem hc
    obtain ⟨d, hd, hid⟩ := List.mem_map.1 hmem
    rw [← hid]
    exact hcovers.number_le d hd
  | move id after => exact hcovers.of_perm (perm_of_apply_move h).2.symm

end LiterateSync.PatchOp

namespace LiterateSync.Document

@[simp] theorem applyOps_nil (blocks : List Block) (g : IdSource) :
    applyOps [] blocks g = .ok (blocks, g) := rfl

theorem applyOps_cons_of_ok {op : PatchOp} {ops : List PatchOp} {blocks next : List Block}
    (g : IdSource) (h : op.apply blocks = .ok next) :
    applyOps (op :: ops) blocks g = applyOps ops next (op.observe g) := by
  rw [applyOps, h]

theorem applyOps_cons_eq_ok_iff {op : PatchOp} {ops : List PatchOp} {blocks : List Block}
    {g : IdSource} {result : List Block × IdSource} :
    applyOps (op :: ops) blocks g = .ok result ↔
      ∃ next, op.apply blocks = .ok next ∧ applyOps ops next (op.observe g) = .ok result := by
  rw [applyOps]
  split <;> simp_all

theorem applyOps_append_of_ok {ops : List PatchOp} {blocks : List Block} {g : IdSource}
    {result : List Block × IdSource} (more : List PatchOp)
    (h : applyOps ops blocks g = .ok result) :
    applyOps (ops ++ more) blocks g = applyOps more result.1 result.2 := by
  induction ops generalizing blocks g with
  | nil =>
    cases h
    rfl
  | cons op ops ih =>
    obtain ⟨next, happly, hrest⟩ := applyOps_cons_eq_ok_iff.1 h
    rw [List.cons_append, applyOps_cons_of_ok g happly, ih hrest]

theorem covers_of_applyOps {ops : List PatchOp} {blocks result : List Block} {g h : IdSource}
    (hcovers : g.Covers blocks) (happly : applyOps ops blocks g = .ok (result, h)) :
    h.Covers result ∧ g.Advances h := by
  induction ops generalizing blocks g with
  | nil =>
    cases happly
    exact ⟨hcovers, .refl h⟩
  | cons op ops ih =>
    obtain ⟨next, hop, hrest⟩ := applyOps_cons_eq_ok_iff.1 happly
    obtain ⟨hresult, hadv⟩ := ih (PatchOp.covers_of_apply hcovers hop) hrest
    exact ⟨hresult, (op.advances_observe g).trans hadv⟩

theorem apply_eq_ok_iff {d next : Document} {patch : Patch} :
    d.apply patch = .ok next ↔
      patch.base = d.revision ∧ ∃ blocks ids,
        applyOps patch.ops d.blocks d.ids = .ok (blocks, ids) ∧
        next = { d with blocks, revision := d.revision + 1, ids } := by
  rw [apply]
  split
  · rename_i hbase
    simp [hbase]
  · rename_i hbase
    rw [not_not] at hbase
    cases hops : applyOps patch.ops d.blocks d.ids with
    | error e => simp
    | ok result =>
      obtain ⟨blocks, ids⟩ := result
      simp [hbase, eq_comm, and_assoc]

theorem wellNamed_of_apply {d next : Document} {patch : Patch} (hd : d.WellNamed)
    (h : d.apply patch = .ok next) : next.WellNamed ∧ d.ids.Advances next.ids := by
  obtain ⟨-, blocks, ids, hops, rfl⟩ := apply_eq_ok_iff.1 h
  exact covers_of_applyOps hd hops

end LiterateSync.Document
