import Mathlib.Data.List.Induction
import Mathlib.Logic.Function.Basic
import LiterateSync.Proofs.Document.Carrying
import LiterateSync.Proofs.Document.Touch

namespace LiterateSync

namespace Rebase

/-- The last thing that some changes did to the content of a block. -/
def touched (ops : List PatchOp) (id : BlockId) : Option Touch :=
  ops.reverse.findSome? (touchBy id)

theorem touch?_eq (c : Setting) (id : BlockId) : touch? c id = touched c.earlier id := rfl

theorem touched_append (xs ys : List PatchOp) (id : BlockId) :
    touched (xs ++ ys) id = (touched ys id).or (touched xs id) := by
  simp [touched, List.findSome?_append]

theorem touched_cons (op : PatchOp) (ops : List PatchOp) (id : BlockId) :
    touched (op :: ops) id = (touched ops id).or (touchBy id op) := by
  rw [← List.singleton_append, touched_append, touched, touched, List.reverse_singleton,
    List.findSome?_singleton]

/-- A change touches no block but the one that it is about. -/
theorem touchBy_of_ne {op : PatchOp} {id : BlockId} (h : id ≠ op.target) :
    touchBy id op = none := by
  cases op with
  | insert b after => rfl
  | delete target => exact if_neg h.symm
  | replace target content => exact if_neg h.symm
  | move target after => rfl

theorem touched_concat {op : PatchOp} {touch : Touch} (ops : List PatchOp)
    (h : touchBy op.target op = some touch) :
    touched (ops ++ [op]) = Function.update (touched ops) op.target (some touch) := by
  funext x
  rw [touched_append, touched, List.reverse_singleton, List.findSome?_singleton]
  by_cases hx : x = op.target
  · rw [hx, h, Option.some_or, Function.update_self]
  · rw [touchBy_of_ne hx, Option.none_or, Function.update_of_ne hx]

theorem exists_target_of_touched {ops : List PatchOp} {id : BlockId}
    (h : touched ops id ≠ none) : ∃ op ∈ ops, op.target = id := by
  obtain ⟨touch, htouch⟩ := Option.ne_none_iff_exists'.1 h
  obtain ⟨op, hop, hby⟩ := List.exists_of_findSome?_eq_some htouch
  refine ⟨op, List.mem_reverse.1 hop, ?_⟩
  by_contra hne
  rw [touchBy_of_ne (Ne.symm hne)] at hby
  cases hby

end Rebase

namespace Block

open Rebase

/-- What a touch leaves of a block. -/
def touchedBy (b : Block) : Option Touch → Option Block
  | none => some b
  | some (.replaced content) => some { b with content }
  | some .deleted => none

/-- The blocks that are left when something was done to the content of each. -/
def survivors (fate : BlockId → Option Touch) (blocks : List Block) : List Block :=
  blocks.filterMap fun b => b.touchedBy (fate b.id)

theorem id_of_touchedBy {b c : Block} {touch : Option Touch} (h : b.touchedBy touch = some c) :
    c.id = b.id ∧ c.kind = b.kind := by
  cases touch with
  | none =>
    cases h
    exact ⟨rfl, rfl⟩
  | some touch =>
    cases touch with
    | replaced content =>
      cases h
      exact ⟨rfl, rfl⟩
    | deleted => cases h

theorem exists_touchedBy (b : Block) {touch : Option Touch} (h : touch ≠ some .deleted) :
    ∃ c, b.touchedBy touch = some c := by
  cases touch with
  | none => exact ⟨_, rfl⟩
  | some touch =>
    cases touch with
    | replaced content => exact ⟨_, rfl⟩
    | deleted => exact absurd rfl h

variable {fate fate' : BlockId → Option Touch} {blocks front back : List Block}

@[simp] theorem survivors_none : survivors (fun _ => none) blocks = blocks := by
  simp [survivors, touchedBy]

theorem survivors_append (fate : BlockId → Option Touch) (front back : List Block) :
    survivors fate (front ++ back) = survivors fate front ++ survivors fate back := by
  simp [survivors]

theorem survivors_cons (fate : BlockId → Option Touch) (b : Block) (back : List Block) :
    survivors fate (b :: back) = (b.touchedBy (fate b.id)).toList ++ survivors fate back := by
  rw [survivors, List.filterMap_cons]
  split <;> simp_all [survivors]

theorem survivors_congr (h : ∀ b ∈ blocks, fate b.id = fate' b.id) :
    survivors fate blocks = survivors fate' blocks :=
  List.filterMap_congr fun b hb => by rw [h b hb]

theorem mem_ids_survivors {x : BlockId} :
    x ∈ (survivors fate blocks).map (·.id) ↔
      x ∈ blocks.map (·.id) ∧ fate x ≠ some .deleted := by
  simp only [survivors, List.mem_map, List.mem_filterMap]
  constructor
  · rintro ⟨c, ⟨b, hb, hc⟩, rfl⟩
    have hid := (id_of_touchedBy hc).1
    refine ⟨⟨b, hb, hid.symm⟩, fun hdeleted => ?_⟩
    rw [← hid, hdeleted] at hc
    cases hc
  · rintro ⟨⟨b, hb, rfl⟩, hleft⟩
    obtain ⟨c, hc⟩ := exists_touchedBy b hleft
    exact ⟨c, ⟨b, hb, hc⟩, (id_of_touchedBy hc).1⟩

theorem ids_survivors_sublist (fate : BlockId → Option Touch) (blocks : List Block) :
    ((survivors fate blocks).map (·.id)).Sublist (blocks.map (·.id)) := by
  induction blocks with
  | nil => exact .slnil
  | cons b blocks ih =>
    rw [survivors_cons, List.map_append, List.map_cons]
    cases hb : b.touchedBy (fate b.id) with
    | none => exact ih.cons _
    | some c => simpa [(id_of_touchedBy hb).1] using ih

/-- With distinct names, the fate of one block has no part in what is left of the others. -/
theorem survivors_update {b : Block} (touch : Option Touch)
    (hnodup : ((front ++ b :: back).map (·.id)).Nodup) :
    survivors (Function.update fate b.id touch) (front ++ b :: back) =
      survivors fate front ++ (b.touchedBy touch).toList ++ survivors fate back := by
  rw [List.map_append, List.map_cons, List.nodup_middle, List.nodup_cons, List.mem_append,
    not_or] at hnodup
  have hothers : ∀ part : List Block, b.id ∉ part.map (·.id) →
      survivors (Function.update fate b.id touch) part = survivors fate part := by
    intro part hpart
    refine survivors_congr fun c hc => Function.update_of_ne ?_ _ _
    exact fun hid => hpart (hid ▸ List.mem_map_of_mem hc)
  rw [survivors_append, survivors_cons, hothers front hnodup.1.1, hothers back hnodup.1.2,
    Function.update_self, List.append_assoc]

/-- The survivors around a block that is among them. -/
theorem exists_survivors_parts {id : BlockId} (hnodup : (blocks.map (·.id)).Nodup)
    (hmem : id ∈ (survivors fate blocks).map (·.id)) :
    ∃ front b back c, blocks = front ++ b :: back ∧ b.id = id ∧ c.id = id ∧ c.kind = b.kind ∧
      survivors fate blocks = survivors fate front ++ c :: survivors fate back ∧
      id ∉ (survivors fate front).map (·.id) := by
  obtain ⟨hin, hleft⟩ := mem_ids_survivors.1 hmem
  obtain ⟨front, b, back, rfl, rfl, hfront⟩ := exists_split hin
  obtain ⟨c, hc⟩ := exists_touchedBy b hleft
  obtain ⟨hid, hkind⟩ := id_of_touchedBy hc
  refine ⟨front, b, back, c, rfl, rfl, hid, hkind, ?_, fun h => hfront (mem_ids_survivors.1 h).1⟩
  rw [survivors_append, survivors_cons, hc]
  rfl

/-- A deletion among the survivors is the end of one more block. -/
theorem apply_delete_survivors {id : BlockId} (hnodup : (blocks.map (·.id)).Nodup)
    (hmem : id ∈ (survivors fate blocks).map (·.id)) :
    (PatchOp.delete id).apply (survivors fate blocks) =
      .ok (survivors (Function.update fate id (some .deleted)) blocks) := by
  obtain ⟨front, b, back, c, rfl, rfl, hid, -, hparts, hfront⟩ :=
    exists_survivors_parts hnodup hmem
  rw [← hid] at hfront
  rw [survivors_update _ hnodup, hparts, ← hid, PatchOp.apply, takeOut_append hfront]
  simp [touchedBy]

theorem apply_replace_survivors {id : BlockId} (content : String)
    (hnodup : (blocks.map (·.id)).Nodup) (hmem : id ∈ (survivors fate blocks).map (·.id)) :
    (PatchOp.replace id content).apply (survivors fate blocks) =
      .ok (survivors (Function.update fate id (some (.replaced content))) blocks) := by
  obtain ⟨front, b, back, c, rfl, rfl, hid, hkind, hparts, hfront⟩ :=
    exists_survivors_parts hnodup hmem
  rw [← hid] at hfront
  have hblock : ({ c with content } : Block) = { b with content } := by rw [← hid, ← hkind]
  rw [survivors_update _ hnodup, hparts, ← hid, PatchOp.apply, setContent_append content hfront,
    hblock]
  simp [touchedBy]

/-- Behind the last survivor among those in front of it, a block is back in its place. -/
theorem apply_insert_survivors {b : Block} (content : String)
    (hnodup : ((front ++ b :: back).map (·.id)).Nodup) (hdeleted : fate b.id = some .deleted) :
    (PatchOp.insert { b with content } ((survivors fate front).getLast?.map (·.id))).apply
        (survivors fate (front ++ b :: back)) =
      .ok (survivors (Function.update fate b.id (some (.replaced content)))
        (front ++ b :: back)) := by
  have hgone : b.id ∉ (survivors fate (front ++ b :: back)).map (·.id) :=
    fun hmem => (mem_ids_survivors.1 hmem).2 hdeleted
  have hparts :
      survivors fate (front ++ b :: back) = survivors fate front ++ survivors fate back := by
    rw [survivors_append, survivors_cons, hdeleted]
    rfl
  simp only [PatchOp.apply, isIn_eq_false_iff.2 hgone]
  rw [survivors_update _ hnodup, hparts]
  rcases List.eq_nil_or_concat (survivors fate front) with hfront | ⟨init, c, hfront⟩
  · simp [hfront, touchedBy]
  · have hlast : c.id ∉ init.map (·.id) := by
      rw [List.map_append] at hnodup
      have hsub := (ids_survivors_sublist fate front).nodup hnodup.of_append_left
      rw [hfront, List.concat_eq_append, List.map_append, List.nodup_append] at hsub
      exact fun hmem => hsub.2.2 _ hmem c.id (by simp) rfl
    have hplace : place { b with content } (some c.id) (init ++ c :: survivors fate back) =
        some (init ++ c :: { b with content } :: survivors fate back) := place_append _ hlast
    rw [hfront, List.concat_eq_append]
    simp [touchedBy, hplace]

end Block

namespace Rebase

/-- The nearest block in front of a block that is there is the last survivor in front of it. -/
theorem predecessor?_of_survivors {c : Setting} {s : State} {fate : BlockId → Option Touch}
    {front back : List Block} {b : Block} (hbefore : c.before = front ++ b :: back)
    (hfront : b.id ∉ front.map (·.id)) (hworking : s.working = Block.survivors fate c.before) :
    predecessor? c s b.id = (Block.survivors fate front).getLast?.map (·.id) := by
  have hindex : c.before.findIdx? (·.id = b.id) = some front.length := by
    rw [hbefore, Block.findIdx?_append hfront]
  have hholds : ∀ d ∈ front, holds s d.id = true ↔ fate d.id ≠ some .deleted := by
    intro d hd
    have hin : d.id ∈ c.before.map (·.id) := by
      rw [hbefore]
      exact List.mem_map_of_mem (List.mem_append_left _ hd)
    rw [holds, Block.isIn_iff, hworking, Block.mem_ids_survivors, and_iff_right hin]
  rw [predecessor?, hindex]
  simp only [hbefore, List.take_left]
  clear hindex hfront hbefore
  -- the search goes through the blocks in front from the last one on
  induction front using List.reverseRecOn with
  | nil => rfl
  | append_singleton front d ih =>
    rw [List.reverse_append, List.reverse_singleton, List.singleton_append, List.find?_cons,
      Block.survivors_append, Block.survivors_cons]
    by_cases hdeleted : fate d.id = some .deleted
    · have hgone : holds s d.id = false := by
        rw [← Bool.not_eq_true, hholds d (by simp)]
        exact not_not.2 hdeleted
      rw [hgone, hdeleted, ih fun e he => hholds e (by simp [he])]
      simp [Block.touchedBy, Block.survivors]
    · obtain ⟨e, he⟩ := Block.exists_touchedBy d hdeleted
      rw [(hholds d (by simp)).2 hdeleted, he]
      simp [Block.survivors, (Block.id_of_touchedBy he).1]

end Rebase

end LiterateSync
