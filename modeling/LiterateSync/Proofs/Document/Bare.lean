import LiterateSync.Proofs.Document.Restoring
import LiterateSync.Proofs.Document.Survivors

namespace LiterateSync

/-- A block without its content. -/
def Block.bare (b : Block) : Block :=
  { b with content := "" }

/-- A change without the content that it gives to its block. -/
def PatchOp.bare : PatchOp → PatchOp
  | .insert b after => .insert b.bare after
  | .delete id => .delete id
  | .replace id _ => .replace id ""
  | .move id after => .move id after

namespace Block

variable {blocks other : List Block}

theorem isIn_map_bare (id : BlockId) (blocks : List Block) :
    isIn id (blocks.map bare) = isIn id blocks := by
  rw [isIn, isIn, List.any_map]
  rfl

theorem place_map_bare (b : Block) (after : Option BlockId) (blocks : List Block) :
    place b.bare after (blocks.map bare) = (place b after blocks).map (·.map bare) := by
  cases after with
  | none => simp
  | some a =>
    induction blocks with
    | nil => rfl
    | cons c blocks ih =>
      rw [List.map_cons, place, place, show c.bare.id = c.id from rfl]
      split
      · rfl
      · rw [ih, Option.map_map, Option.map_map]
        rfl

/-- A block is put behind one that is there. -/
theorem mem_of_place {b : Block} {after : Option BlockId} {result : List Block}
    (h : place b after blocks = some result) : ∀ a ∈ after, a ∈ blocks.map (·.id) := by
  rintro a rfl
  by_contra hgone
  rw [place_eq_none hgone] at h
  cases h

theorem takeOut_map_bare (id : BlockId) (blocks : List Block) :
    takeOut id (blocks.map bare) =
      (takeOut id blocks).map fun (b, rest) => (b.bare, rest.map bare) := by
  induction blocks with
  | nil => rfl
  | cons c blocks ih =>
    rw [List.map_cons, takeOut, takeOut, show c.bare.id = c.id from rfl]
    split
    · rfl
    · rw [ih, Option.map_map, Option.map_map]
      rfl

theorem setContent_map_bare (id : BlockId) (content : String) (blocks : List Block) :
    setContent id "" (blocks.map bare) = (setContent id content blocks).map (·.map bare) := by
  induction blocks with
  | nil => rfl
  | cons c blocks ih =>
    rw [List.map_cons, setContent, setContent, show c.bare.id = c.id from rfl]
    split
    · rfl
    · rw [ih, Option.map_map, Option.map_map]
      rfl

theorem kinds_of_bare_eq (h : blocks.map bare = other.map bare) :
    blocks.map (·.kind) = other.map (·.kind) := by
  have hkinds := congrArg (List.map (·.kind)) h
  rwa [List.map_map, List.map_map] at hkinds

end Block

namespace PatchOp

variable {op : PatchOp} {blocks other result : List Block}

/-- What a change does to the names and kinds of the blocks does not depend on their contents. -/
theorem apply_bare (op : PatchOp) (blocks : List Block) :
    op.bare.apply (blocks.map Block.bare) = (op.apply blocks).map (·.map Block.bare) := by
  cases op with
  | insert b after =>
    rw [bare, apply, apply, show b.bare.id = b.id from rfl, Block.isIn_map_bare,
      Block.place_map_bare]
    split
    · rfl
    · cases Block.place b after blocks <;> rfl
  | delete id =>
    rw [bare, apply, apply, Block.takeOut_map_bare]
    cases Block.takeOut id blocks <;> rfl
  | replace id content =>
    rw [bare, apply, apply, Block.setContent_map_bare id content]
    cases Block.setContent id content blocks <;> rfl
  | move id after =>
    rw [bare, apply, apply, Block.takeOut_map_bare]
    cases Block.takeOut id blocks with
    | none => rfl
    | some taken =>
      simp only [Option.map_some, Block.place_map_bare]
      cases Block.place taken.1 after taken.2 <;> rfl

/-- A change that can be made to some blocks can be made to others that differ in their contents
    only, and has the same outcome but for the contents. -/
theorem exists_apply_of_bare_eq (h : other.map Block.bare = blocks.map Block.bare)
    (happly : op.apply blocks = .ok result) :
    ∃ result', op.apply other = .ok result' ∧ result'.map Block.bare = result.map Block.bare := by
  have hbare := (apply_bare op other).symm.trans (h ▸ apply_bare op blocks)
  rw [happly] at hbare
  cases hother : op.apply other with
  | error e => rw [hother] at hbare; cases hbare
  | ok result' =>
    rw [hother] at hbare
    exact ⟨result', rfl, Except.ok.inj hbare⟩

/-- A replacement touches no name and no kind. -/
theorem bare_of_apply_replace {id : BlockId} {content : String}
    (h : (PatchOp.replace id content).apply blocks = .ok result) :
    result.map Block.bare = blocks.map Block.bare := by
  obtain ⟨hin, -⟩ := ids_of_apply_replace h
  obtain ⟨front, b, back, rfl, rfl, hfront⟩ := Block.exists_split hin
  rw [apply, Block.setContent_append content hfront] at h
  cases h
  simp [Block.bare]

theorem mem_of_apply_insert {b : Block} {after : Option BlockId}
    (h : (insert b after).apply blocks = .ok result) : ∀ a ∈ after, a ∈ blocks.map (·.id) := by
  rw [apply] at h
  split at h
  · cases h
  · split at h
    · rename_i hplace
      exact Block.mem_of_place hplace
    · cases h

/-- A block is moved behind another one that is there. -/
theorem mem_of_apply_move {id : BlockId} {after : Option BlockId}
    (hnodup : (blocks.map (·.id)).Nodup) (h : (move id after).apply blocks = .ok result) :
    ∀ a ∈ after, a ∈ blocks.map (·.id) ∧ a ≠ id := by
  obtain ⟨hin, -⟩ := perm_of_apply_move h
  obtain ⟨front, b, back, rfl, rfl, hfront⟩ := Block.exists_split hin
  rw [apply, Block.takeOut_append hfront] at h
  dsimp only at h
  split at h
  · rename_i hplace
    intro a ha
    have hrest := Block.mem_of_place hplace a ha
    rw [List.map_append, List.map_cons] at hnodup
    have hapart : b.id ∉ (front ++ back).map (·.id) := by
      rw [List.map_append]
      exact (List.nodup_cons.1 (List.perm_middle.nodup_iff.1 hnodup)).1
    refine ⟨?_, fun heq => hapart (heq ▸ hrest)⟩
    simp only [List.map_append, List.map_cons, List.mem_append, List.mem_cons] at hrest ⊢
    exact hrest.imp_right .inr
  · cases h

end PatchOp

namespace Rebase

/-- What holds while a patch is carried over one that has changed contents only: the blocks are
    those in view, under the same names and in the same order, and the carried changes delete no
    other blocks than the patch does. -/
structure InStep (gone : BlockId → Prop) (view : List Block) (s : State) : Prop where
  renamed : s.renamed = []
  bare_eq : s.working.map Block.bare = view.map Block.bare
  deleted : ∀ id, .delete id ∈ s.ops → gone id

variable {c : Setting} {gone : BlockId → Prop} {view next : List Block} {s t : State}
  {op : PatchOp}

/-- A deletion stands unless the earlier patch wins and has given the block its content. -/
def Stands (c : Setting) (id : BlockId) : Prop :=
  c.policy = .laterWins ∨ ∀ content, touched c.earlier id ≠ some (.replaced content)

theorem carryDelete_of_stands {id : BlockId} (hholds : holds s id = true) (hstands : Stands c id) :
    ∃ conflicts, carryDelete c s id = emit { s with conflicts } (.delete id) := by
  rw [carryDelete, hholds]
  cases htouch : touch? c id with
  | none => exact ⟨s.conflicts, rfl⟩
  | some touch =>
    cases touch with
    | deleted => exact ⟨s.conflicts, rfl⟩
    | replaced content =>
      obtain hpolicy | hnever := hstands
      · simp only [hpolicy]
        exact ⟨_, rfl⟩
      · exact absurd htouch (hnever content)

namespace InStep

theorem with_conflicts (h : InStep gone view s) (conflicts : List BlockId) :
    InStep gone view { s with conflicts } :=
  ⟨h.renamed, h.bare_eq, h.deleted⟩

theorem holds_eq (h : InStep gone view s) (id : BlockId) : holds s id = Block.isIn id view := by
  rw [holds, ← Block.isIn_map_bare, h.bare_eq, Block.isIn_map_bare]

theorem resolve_eq (h : InStep gone view s) (id : BlockId) : resolve s id = id :=
  resolve_of_renamed_nil h.renamed id

theorem anchor_eq (h : InStep gone view s) {place : Option BlockId}
    (hplace : ∀ a ∈ place, a ∈ view.map (·.id)) : anchor c s place = place := by
  cases place with
  | none => rfl
  | some id =>
    rw [anchor, h.resolve_eq, h.holds_eq]
    exact if_pos (Block.isIn_iff.2 (hplace id rfl))

/-- A change that can be made to the blocks in view is made. -/
theorem exists_emit (h : InStep gone view s) (happly : op.apply view = .ok next)
    (hgone : ∀ id, op = .delete id → gone id) :
    ∃ t, emit s op = .ok t ∧ InStep gone next t := by
  obtain ⟨working, hworking, hbare⟩ := PatchOp.exists_apply_of_bare_eq h.bare_eq happly
  refine ⟨_, emit_of_apply hworking, h.renamed, hbare, fun id hid => ?_⟩
  rcases List.mem_append.1 hid with hid | hid
  · exact h.deleted id hid
  · exact hgone id (List.mem_singleton.1 hid).symm

theorem exists_carryInsert (h : InStep gone view s) {b : Block} {place : Option BlockId}
    (happly : (PatchOp.insert b place).apply view = .ok next) :
    ∃ t, carryInsert c s b place = .ok t ∧ InStep gone next t := by
  have hfree : holds s b.id = false :=
    h.holds_eq b.id ▸ Block.isIn_eq_false_iff.2 (PatchOp.perm_of_apply_insert happly).1
  have hobserved : InStep gone view { s with ids := s.ids.observe b.id } :=
    ⟨h.renamed, h.bare_eq, h.deleted⟩
  rw [carryInsert, if_neg (by simp [hfree])]
  dsimp only
  rw [hobserved.anchor_eq (PatchOp.mem_of_apply_insert happly)]
  exact hobserved.exists_emit happly (by simp)

theorem exists_carryDelete (h : InStep gone view s) {id : BlockId} (hstands : Stands c id)
    (hgone : gone id) (happly : (PatchOp.delete id).apply view = .ok next) :
    ∃ t, carryDelete c s id = .ok t ∧ InStep gone next t := by
  obtain ⟨b, rfl, hperm⟩ := PatchOp.perm_of_apply_delete happly
  have hholds : holds s b.id = true :=
    h.holds_eq b.id ▸ Block.isIn_iff.2 (List.mem_map_of_mem (hperm.mem_iff.2 (by simp)))
  obtain ⟨conflicts, heq⟩ := carryDelete_of_stands hholds hstands
  rw [heq]
  refine (h.with_conflicts conflicts).exists_emit happly fun id hid => ?_
  cases hid
  exact hgone

/-- A replacement that is dropped leaves the layout as well. -/
theorem exists_carryReplace (h : InStep gone view s) {id : BlockId} {content : String}
    (happly : (PatchOp.replace id content).apply view = .ok next) :
    ∃ t, carryReplace c s id content = .ok t ∧ InStep gone next t := by
  have hholds : holds s id = true :=
    h.holds_eq id ▸ Block.isIn_iff.2 (PatchOp.ids_of_apply_replace happly).1
  obtain ⟨conflicts, heq | heq⟩ := carryReplace_of_holds c content hholds
  · rw [heq]
    exact (h.with_conflicts conflicts).exists_emit happly (by simp)
  · exact ⟨_, heq, h.renamed, h.bare_eq.trans (PatchOp.bare_of_apply_replace happly).symm,
      h.deleted⟩

theorem exists_carryMove (h : InStep gone view s) (hview : (view.map (·.id)).Nodup)
    {id : BlockId} {place : Option BlockId}
    (happly : (PatchOp.move id place).apply view = .ok next) :
    ∃ t, carryMove c s id place = .ok t ∧ InStep gone next t := by
  have hplace := PatchOp.mem_of_apply_move hview happly
  have hholds : holds s id = true :=
    h.holds_eq id ▸ Block.isIn_iff.2 (PatchOp.perm_of_apply_move happly).1
  have hanchor : (anchor c s place).filter (· ≠ id) = place := by
    rw [h.anchor_eq fun a ha => (hplace a ha).1]
    cases place with
    | none => rfl
    | some a => simp [Option.filter, (hplace a rfl).2]
  rw [carryMove, hholds]
  simp only [hanchor]
  exact h.exists_emit happly (by simp)

/-- Each change is carried over to the blocks as it is made to those in view. -/
theorem exists_carry (h : InStep gone view s) (hview : (view.map (·.id)).Nodup)
    (happly : op.apply view = .ok next)
    (hdelete : ∀ id, op = .delete id → Stands c id ∧ gone id) :
    ∃ t, carry c s op = .ok t ∧ InStep gone next t := by
  cases op with
  | insert b place => exact h.exists_carryInsert happly
  | delete id =>
    obtain ⟨hstands, hgone⟩ := hdelete id rfl
    rw [carry, h.resolve_eq]
    exact h.exists_carryDelete hstands hgone happly
  | replace id content =>
    rw [carry, h.resolve_eq]
    exact h.exists_carryReplace happly
  | move id place =>
    rw [carry, h.resolve_eq]
    exact h.exists_carryMove hview happly

theorem exists_carryAll (h : InStep gone view s) (hview : (view.map (·.id)).Nodup)
    {ops : List PatchOp} {g ids : IdSource}
    (happly : Document.applyOps ops view g = .ok (next, ids))
    (hdelete : ∀ id, .delete id ∈ ops → Stands c id ∧ gone id) :
    ∃ t, carryAll c s ops = .ok t ∧ InStep gone next t := by
  induction ops generalizing view s g with
  | nil =>
    cases happly
    exact ⟨s, rfl, h⟩
  | cons op ops ih =>
    obtain ⟨mid, hop, hrest⟩ := Document.applyOps_cons_eq_ok_iff.1 happly
    obtain ⟨r, hcarry, hr⟩ := h.exists_carry hview hop
      fun id hid => hdelete id (hid ▸ List.mem_cons_self)
    obtain ⟨t, hcarries, ht⟩ := ih hr (PatchOp.nodup_of_apply hview hop) hrest
      fun id hid => hdelete id (List.mem_cons_of_mem op hid)
    exact ⟨t, carryAll_cons_eq_ok_iff.2 ⟨r, hcarry, hcarries⟩, ht⟩

end InStep

end Rebase

/-- The names and kinds of the blocks in order. -/
def Document.bare (d : Document) : List Block :=
  d.blocks.map Block.bare

/-- Whether all deletions of a patch stand when it is carried over an earlier one: it wins, or the
    earlier one has given none of the blocks its content. -/
def Patch.DeletesOver (later earlier : Patch) (policy : ConflictPolicy) : Prop :=
  policy = .laterWins ∨ ∀ id, .delete id ∈ later.ops →
    ∀ content, Rebase.touched earlier.ops id ≠ some (.replaced content)

/-- Carried over a patch that has changed contents only, a patch leads to the layout that it has
    been made for. -/
theorem Patch.exists_rebase_of_bare_eq {later earlier : Patch} {before current target : Document}
    {policy : ConflictPolicy} (hbefore : (before.blocks.map (·.id)).Nodup)
    (hearlier : before.apply earlier = .ok current) (hlater : before.apply later = .ok target)
    (hbare : current.bare = before.bare) (hdeletes : later.DeletesOver earlier policy) :
    ∃ rebased next, later.rebase earlier before current policy = .ok rebased ∧
      current.apply rebased.patch = .ok next ∧ next.bare = target.bare ∧
      ∀ id, .delete id ∈ rebased.patch.ops → .delete id ∈ later.ops := by
  obtain ⟨-, blocks, ids, hops, rfl⟩ := Document.apply_eq_ok_iff.1 hlater
  have hstart : Rebase.InStep (fun id => .delete id ∈ later.ops) before.blocks
      ⟨current.blocks, current.ids, [], [], []⟩ := ⟨rfl, hbare, by simp⟩
  obtain ⟨s, hcarry, hs⟩ := hstart.exists_carryAll (c := ⟨before.blocks, earlier.ops, policy⟩)
    hbefore hops fun id hid => ⟨hdeletes.imp_right fun hnever => hnever id hid, hid⟩
  obtain ⟨last, hreplays⟩ := Rebase.replays_carryAll current.blocks current.ids ⟨_, rfl⟩ hcarry
  refine ⟨⟨⟨current.revision, s.ops⟩, s.conflicts⟩,
    { current with blocks := s.working, revision := current.revision + 1, ids := last }, ?_,
    Document.apply_eq_ok_iff.2 ⟨rfl, _, _, hreplays, rfl⟩, hs.bare_eq, hs.deleted⟩
  rw [Patch.rebase_eq hearlier hlater, hcarry]

end LiterateSync
