import LiterateSync.Document.Rebase
import LiterateSync.Proofs.Document.Edits

namespace LiterateSync.PatchOp

/-- The names after a change are those before it, with one more or one less. -/
theorem mem_ids_of_apply {op : PatchOp} {blocks result : List Block}
    (hnodup : (blocks.map (·.id)).Nodup) (h : op.apply blocks = .ok result) (x : BlockId) :
    x ∈ result.map (·.id) ↔
      match op with
      | .insert b _ => x = b.id ∨ x ∈ blocks.map (·.id)
      | .delete id => x ∈ blocks.map (·.id) ∧ x ≠ id
      | _ => x ∈ blocks.map (·.id) := by
  cases op with
  | insert b after =>
    have hperm := (perm_of_apply_insert h).2.map (·.id)
    rw [hperm.mem_iff, List.map_cons, List.mem_cons]
  | delete id =>
    obtain ⟨b, rfl, hperm⟩ := perm_of_apply_delete h
    have hids := hperm.map (·.id)
    rw [List.map_cons] at hids
    have hnew := (List.nodup_cons.1 (hids.nodup_iff.1 hnodup)).1
    rw [hids.mem_iff, List.mem_cons]
    constructor
    · intro hx
      exact ⟨.inr hx, fun heq => hnew (heq ▸ hx)⟩
    · rintro ⟨hx, hne⟩
      exact hx.resolve_left hne
  | replace id content => rw [(ids_of_apply_replace h).2]
  | move id after => exact ((perm_of_apply_move h).2.map (·.id)).mem_iff

end LiterateSync.PatchOp

namespace LiterateSync.Rebase

theorem touchBy_eq_deleted {id : BlockId} {op : PatchOp} (h : touchBy id op = some .deleted) :
    op = .delete id := by
  cases op with
  | insert b after => cases h
  | delete target => simpa [touchBy] using h
  | replace target content => simp [touchBy] at h
  | move target after => cases h

theorem touch?_cons (before : List Block) (op : PatchOp) (ops : List PatchOp)
    (policy : ConflictPolicy) (id : BlockId) :
    touch? ⟨before, op :: ops, policy⟩ id =
      (touch? ⟨before, ops, policy⟩ id).or (touchBy id op) := by
  simp [touch?, List.findSome?_append]

theorem delete_mem_of_touch? {c : Setting} {id : BlockId} (h : touch? c id = some .deleted) :
    .delete id ∈ c.earlier := by
  obtain ⟨op, hop, htouch⟩ := List.exists_of_findSome?_eq_some h
  rw [← touchBy_eq_deleted htouch]
  exact List.mem_reverse.1 hop

variable {ops : List PatchOp} {blocks result : List Block} {g h : IdSource}

/-- A block that is not there after some changes was deleted by the last one that touched it,
    or it was never there. -/
theorem touch?_of_not_mem (hcovers : g.Covers blocks)
    (happly : Document.applyOps ops blocks g = .ok (result, h)) (before : List Block)
    (policy : ConflictPolicy) {id : BlockId} (hgone : id ∉ result.map (·.id)) :
    touch? ⟨before, ops, policy⟩ id = some .deleted ∨
      touch? ⟨before, ops, policy⟩ id = none ∧ id ∉ blocks.map (·.id) := by
  induction ops generalizing blocks g with
  | nil =>
    cases happly
    exact .inr ⟨rfl, hgone⟩
  | cons op ops ih =>
    obtain ⟨next, hop, hrest⟩ := Document.applyOps_cons_eq_ok_iff.1 happly
    have hmem := PatchOp.mem_ids_of_apply hcovers.nodup hop id
    rw [touch?_cons]
    obtain hdeleted | ⟨hnone, hnext⟩ := ih (PatchOp.covers_of_apply hcovers hop) hrest
    · exact .inl (by rw [hdeleted, Option.some_or])
    · rw [hnone, Option.none_or]
      cases op with
      | insert b after => exact .inr ⟨rfl, fun hin => hnext (hmem.2 (.inr hin))⟩
      | delete target =>
        by_cases htarget : target = id
        · exact .inl (if_pos htarget)
        · refine .inr ⟨if_neg htarget, fun hin => hnext (hmem.2 ⟨hin, Ne.symm htarget⟩)⟩
      | replace target content =>
        obtain ⟨hin, hids⟩ := PatchOp.ids_of_apply_replace hop
        have htarget : target ≠ id := by
          rintro rfl
          exact hnext (hids ▸ hin)
        exact .inr ⟨if_neg htarget, fun hin => hnext (hmem.2 hin)⟩
      | move target after => exact .inr ⟨rfl, fun hin => hnext (hmem.2 hin)⟩

/-- A name that was deleted on the way is not given out again. -/
theorem number_le_of_delete_mem (hcovers : g.Covers blocks)
    (happly : Document.applyOps ops blocks g = .ok (result, h)) {id : BlockId}
    (hmem : .delete id ∈ ops) {n : Nat} (hn : h.numberOf? id = some n) : n ≤ h.count := by
  induction ops generalizing blocks g with
  | nil => cases hmem
  | cons op ops ih =>
    obtain ⟨next, hop, hrest⟩ := Document.applyOps_cons_eq_ok_iff.1 happly
    rcases List.mem_cons.1 hmem with rfl | hmem
    · obtain ⟨b, rfl, hperm⟩ := PatchOp.perm_of_apply_delete hop
      have hadv := (Document.covers_of_applyOps hcovers happly).2
      rw [hadv.numberOf?_eq] at hn
      exact Nat.le_trans (hcovers.number_le b (hperm.mem_iff.2 (by simp)) n hn) hadv.count_le
    · exact ih (PatchOp.covers_of_apply hcovers hop) hrest hmem

end LiterateSync.Rebase
