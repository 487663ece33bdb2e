import Mathlib.Data.List.Induction
import LiterateSync.Proofs.Document.Taking

namespace LiterateSync

/-- The content that a change gives a block, or nothing in its place if it deletes the block. -/
def PatchOp.gives? (x : BlockId) : PatchOp → Option (Option String)
  | .insert b _ => if b.id = x then some (some b.content) else none
  | .replace id content => if id = x then some (some content) else none
  | .delete id => if id = x then some none else none
  | .move .. => none

/-- The content that some changes leave a block with, if they give it one and do not delete it
    afterwards. -/
def lastContent? (x : BlockId) (ops : List PatchOp) : Option String :=
  ops.foldl (fun content op => (op.gives? x).getD content) none

variable {op : PatchOp} {ops more : List PatchOp} {blocks next result : List Block}
  {g h : IdSource} {x : BlockId} {content : String}

theorem PatchOp.gives?_of_ne (hx : x ≠ op.target) : op.gives? x = none := by
  cases op with
  | insert b after => exact if_neg hx.symm
  | delete id => exact if_neg hx.symm
  | replace id content => exact if_neg hx.symm
  | move id after => rfl

@[simp] theorem lastContent?_concat (ops : List PatchOp) (op : PatchOp) :
    lastContent? x (ops ++ [op]) = (op.gives? x).getD (lastContent? x ops) := by
  rw [lastContent?, List.foldl_append]
  rfl

theorem lastContent?_concat_of_ne (ops : List PatchOp) (hx : x ≠ op.target) :
    lastContent? x (ops ++ [op]) = lastContent? x ops := by
  rw [lastContent?_concat, PatchOp.gives?_of_ne hx, Option.getD_none]

/-- A block has the content that a change gives it, or the one from before. -/
theorem PatchOp.exists_content_of_apply {given : Option String}
    (happly : op.apply blocks = .ok next)
    (hgiven : ∀ d, given = some d → ∃ b ∈ blocks, b.id = x ∧ b.content = d)
    (hcontent : (op.gives? x).getD given = some content) :
    ∃ b ∈ next, b.id = x ∧ b.content = content := by
  cases op with
  | insert c place =>
    have hperm := (perm_of_apply_insert happly).2
    by_cases hc : c.id = x
    · simp only [gives?, if_pos hc, Option.getD_some, Option.some.injEq] at hcontent
      exact ⟨c, hperm.mem_iff.2 List.mem_cons_self, hc, hcontent⟩
    · simp only [gives?, if_neg hc, Option.getD_none] at hcontent
      obtain ⟨b, hb, hid⟩ := hgiven content hcontent
      exact ⟨b, hperm.mem_iff.2 (List.mem_cons_of_mem c hb), hid⟩
  | delete id =>
    obtain ⟨c, rfl, hperm⟩ := perm_of_apply_delete happly
    by_cases hc : c.id = x
    · simp [gives?, hc] at hcontent
    · simp only [gives?, if_neg hc, Option.getD_none] at hcontent
      obtain ⟨b, hb, hid, hd⟩ := hgiven content hcontent
      refine ⟨b, (List.mem_cons.1 (hperm.mem_iff.1 hb)).resolve_left ?_, hid, hd⟩
      rintro rfl
      exact hc hid
  | replace id new =>
    by_cases hid : id = x
    · simp only [gives?, if_pos hid, Option.getD_some, Option.some.injEq] at hcontent
      obtain ⟨front, c, back, rfl, hc, hfront⟩ :=
        Block.exists_split (ids_of_apply_replace happly).1
      rw [← hc] at hfront
      rw [← hc, apply, Block.setContent_append new hfront] at happly
      cases happly
      exact ⟨{ c with content := new }, by simp, hc.trans hid, hcontent⟩
    · simp only [gives?, if_neg hid, Option.getD_none] at hcontent
      obtain ⟨b, hb, rfl, hd⟩ := hgiven content hcontent
      exact ⟨b, (Document.mem_of_apply_replace happly (Ne.symm hid)).2 hb, rfl, hd⟩
  | move id place =>
    obtain ⟨b, hb, hid⟩ := hgiven content hcontent
    exact ⟨b, (perm_of_apply_move happly).2.mem_iff.2 hb, hid⟩

namespace Document

theorem exists_of_applyOps_append (happly : applyOps (ops ++ more) blocks g = .ok (result, h)) :
    ∃ mid k, applyOps ops blocks g = .ok (mid, k) ∧ applyOps more mid k = .ok (result, h) := by
  induction ops generalizing blocks g with
  | nil => exact ⟨blocks, g, rfl, happly⟩
  | cons op ops ih =>
    obtain ⟨next, hop, hrest⟩ := applyOps_cons_eq_ok_iff.1 happly
    obtain ⟨mid, k, hmid, hmore⟩ := ih hrest
    exact ⟨mid, k, by rw [applyOps_cons_of_ok g hop, hmid], hmore⟩

/-- A block has the content that some changes leave it with. -/
theorem exists_content_of_applyOps (happly : applyOps ops blocks g = .ok (result, h))
    (hcontent : lastContent? x ops = some content) :
    ∃ b ∈ result, b.id = x ∧ b.content = content := by
  induction ops using List.reverseRecOn generalizing result h content with
  | nil => cases hcontent
  | append_singleton ops op ih =>
    obtain ⟨mid, k, hmid, hlast⟩ := exists_of_applyOps_append happly
    obtain ⟨next, hop, hend⟩ := applyOps_cons_eq_ok_iff.1 hlast
    cases hend
    exact PatchOp.exists_content_of_apply hop (fun d hd => ih hmid hd)
      (lastContent?_concat ops op ▸ hcontent)

theorem mem_ids_of_lastContent? (happly : applyOps ops blocks g = .ok (result, h))
    (hcontent : lastContent? x ops = some content) : x ∈ result.map (·.id) := by
  obtain ⟨b, hb, rfl, -⟩ := exists_content_of_applyOps happly hcontent
  exact List.mem_map_of_mem hb

end Document

open Rebase

/-- A block that is replaced at last is left with the content that it gets then. -/
theorem lastContent?_of_touched (happly : Document.applyOps ops blocks g = .ok (result, h))
    (htouched : touched ops x = some (.replaced content)) : lastContent? x ops = some content := by
  induction ops using List.reverseRecOn generalizing result h with
  | nil => cases htouched
  | append_singleton ops op ih =>
    obtain ⟨mid, k, hmid, hlast⟩ := Document.exists_of_applyOps_append happly
    obtain ⟨next, hop, -⟩ := Document.applyOps_cons_eq_ok_iff.1 hlast
    rw [touched_append, touched, List.reverse_singleton, List.findSome?_singleton,
      Option.or_eq_some_iff] at htouched
    have hsame : op.gives? x = none →
        touchBy x op = none ∧ touched ops x = some (.replaced content) →
        lastContent? x (ops ++ [op]) = some content := fun hnone htouched => by
      rw [lastContent?_concat, hnone, Option.getD_none, ih hmid htouched.2]
    cases op with
    | insert b place =>
      obtain hby | htouched := htouched
      · cases hby
      · refine hsame (if_neg fun hid => (PatchOp.perm_of_apply_insert hop).1 ?_) htouched
        exact hid ▸ Document.mem_ids_of_lastContent? hmid (ih hmid htouched.2)
    | delete id =>
      by_cases hid : id = x
      · simp [touchBy, hid] at htouched
      · exact hsame (if_neg hid) (by simpa [touchBy, hid] using htouched)
    | replace id new =>
      by_cases hid : id = x
      · have hnew : new = content := by simpa [touchBy, hid] using htouched
        rw [lastContent?_concat, PatchOp.gives?, if_pos hid, hnew, Option.getD_some]
      · exact hsame (if_neg hid) (by simpa [touchBy, hid] using htouched)
    | move id place => exact hsame rfl (by simpa [touchBy] using htouched)

theorem touched_ne_none_iff : touched ops x ≠ none ↔ ∃ op ∈ ops, touchBy x op ≠ none := by
  simp [touched]

end LiterateSync
