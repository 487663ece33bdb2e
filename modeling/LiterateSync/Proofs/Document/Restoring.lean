import LiterateSync.Proofs.Document.Emission
import LiterateSync.Proofs.Document.Written

namespace LiterateSync

namespace PatchOp

/-- Whether a change is about a block that is there already. -/
def adjusts : PatchOp → Bool
  | .insert .. => false
  | _ => true

theorem nodup_of_apply {op : PatchOp} {blocks result : List Block}
    (hnodup : (blocks.map (·.id)).Nodup) (h : op.apply blocks = .ok result) :
    (result.map (·.id)).Nodup := by
  cases op with
  | insert b after =>
    obtain ⟨hnew, hperm⟩ := perm_of_apply_insert h
    exact (hperm.map (·.id)).nodup_iff.2 (List.nodup_cons.2 ⟨hnew, hnodup⟩)
  | delete id =>
    obtain ⟨b, -, hperm⟩ := perm_of_apply_delete h
    exact (List.nodup_cons.1 ((hperm.map (·.id)).nodup_iff.1 hnodup)).2
  | replace id content =>
    rw [(ids_of_apply_replace h).2]
    exact hnodup
  | move id after => exact ((perm_of_apply_move h).2.map (·.id)).nodup_iff.2 hnodup

end PatchOp

namespace Document

variable {ops : List PatchOp} {blocks result : List Block} {g h : IdSource} {x : BlockId}

theorem nodup_of_applyOps (hnodup : (blocks.map (·.id)).Nodup)
    (happly : applyOps ops blocks g = .ok (result, h)) : (result.map (·.id)).Nodup := by
  induction ops generalizing blocks g with
  | nil =>
    cases happly
    exact hnodup
  | cons op ops ih =>
    obtain ⟨next, hop, hrest⟩ := applyOps_cons_eq_ok_iff.1 happly
    exact ih (PatchOp.nodup_of_apply hnodup hop) hrest

theorem mem_or_writes_of_applyOps (hnodup : (blocks.map (·.id)).Nodup)
    (happly : applyOps ops blocks g = .ok (result, h)) (hx : x ∈ result.map (·.id)) :
    x ∈ blocks.map (·.id) ∨ ∃ op ∈ ops, op.writes x = true := by
  induction ops generalizing blocks g with
  | nil =>
    cases happly
    exact .inl hx
  | cons op ops ih =>
    obtain ⟨next, hop, hrest⟩ := applyOps_cons_eq_ok_iff.1 happly
    obtain hnext | ⟨e, he, hwrites⟩ := ih (PatchOp.nodup_of_apply hnodup hop) hrest
    · refine (PatchOp.mem_or_writes_of_apply hnodup hop hnext).imp_right fun hwrites => ?_
      exact ⟨op, List.mem_cons_self, hwrites⟩
    · exact .inr ⟨e, List.mem_cons_of_mem op he, hwrites⟩

/-- Changes that insert nothing write blocks that were there from the start. -/
theorem mem_of_adjusts (hnodup : (blocks.map (·.id)).Nodup)
    (happly : applyOps ops blocks g = .ok (result, h)) (hadjusts : ∀ op ∈ ops, op.adjusts = true)
    {op : PatchOp} (hop : op ∈ ops) (hwrites : op.writes x = true) : x ∈ blocks.map (·.id) := by
  induction ops generalizing blocks g with
  | nil => cases hop
  | cons first ops ih =>
    obtain ⟨next, hfirst, hrest⟩ := applyOps_cons_eq_ok_iff.1 happly
    have hnext : x ∈ next.map (·.id) := by
      rcases List.mem_cons.1 hop with rfl | hop
      · exact PatchOp.mem_of_writes hnodup hfirst hwrites
      · exact ih (PatchOp.nodup_of_apply hnodup hfirst) hrest
          (fun e he => hadjusts e (List.mem_cons_of_mem first he)) hop
    have hmem := (PatchOp.mem_ids_of_apply hnodup hfirst x).1 hnext
    cases first with
    | insert b after => exact absurd (hadjusts _ List.mem_cons_self) (by simp [PatchOp.adjusts])
    | delete id => exact hmem.1
    | replace id content => exact hmem
    | move id after => exact hmem

end Document

namespace Rebase

/-- What holds while a patch that wins is carried over, if the blocks that it inserts are not
    there after the earlier patch. No block needs a new name, and the blocks that are inserted are
    those of the patch and those that it replaces and the earlier patch has deleted. -/
structure Restores (written : BlockId → Prop) (after view : List Block) (s : State) : Prop where
  renamed : s.renamed = []
  nodup : (s.working.map (·.id)).Nodup
  bounded : ∀ x ∈ s.working.map (·.id), x ∈ after.map (·.id) ∨ x ∈ view.map (·.id)
  kept : ∀ x ∈ view.map (·.id), x ∈ after.map (·.id) → x ∈ s.working.map (·.id)
  writes : ∀ e ∈ s.ops, ∀ x, e.writes x = true → written x
  apart : ∀ b a, .insert b a ∈ s.ops → b.id ∉ after.map (·.id)

variable {c : Setting} {written : BlockId → Prop} {after view next : List Block} {s t : State}
  {op : PatchOp}

theorem resolve_of_renamed_nil (h : s.renamed = []) (id : BlockId) : resolve s id = id := by
  rw [resolve, h]
  rfl

namespace Restores

/-- A change that is made to the blocks as it is made to those in view, or that brings a block in
    view back. -/
theorem emit (h : Restores written after view s) {e : PatchOp}
    (happly : e.apply s.working = .ok t.working) (hops : t.ops = s.ops ++ [e])
    (hrenamed : t.renamed = s.renamed)
    (hbounded : ∀ x ∈ t.working.map (·.id), x ∈ after.map (·.id) ∨ x ∈ next.map (·.id))
    (hkept : ∀ x ∈ next.map (·.id), x ∈ after.map (·.id) → x ∈ t.working.map (·.id))
    (hwrites : ∀ x, e.writes x = true → written x)
    (hapart : ∀ b a, e = .insert b a → b.id ∉ after.map (·.id)) :
    Restores written after next t := by
  refine ⟨hrenamed.trans h.renamed, PatchOp.nodup_of_apply h.nodup happly, hbounded, hkept,
    fun d hd => ?_, fun b a hmem => ?_⟩
  · rw [hops, List.mem_append, List.mem_singleton] at hd
    rcases hd with hd | rfl
    · exact h.writes d hd
    · exact hwrites
  · rw [hops, List.mem_append, List.mem_singleton] at hmem
    rcases hmem with hmem | hmem
    · exact h.apart b a hmem
    · exact hapart b a hmem.symm

theorem carryInsert (h : Restores written after view s) (hview : (view.map (·.id)).Nodup)
    {b : Block} {place : Option BlockId} (hop : (PatchOp.insert b place).apply view = .ok next)
    (hcarry : carryInsert c s b place = .ok t) (hwritten : written b.id)
    (hapart : b.id ∉ after.map (·.id)) : Restores written after next t := by
  have hnew := (PatchOp.perm_of_apply_insert hop).1
  have hfree : b.id ∉ s.working.map (·.id) := fun hmem => (h.bounded _ hmem).elim hapart hnew
  obtain ⟨name, a, happly, hops, -, ⟨rfl, hrenamed⟩ | ⟨hheld, -⟩⟩ := carryInsert_spec hcarry
  · have hnext := PatchOp.mem_ids_of_apply hview hop
    have hworking := PatchOp.mem_ids_of_apply h.nodup happly
    refine h.emit happly hops hrenamed (fun x hx => ?_) (fun x hx hafter => ?_) (fun x hx => ?_)
      fun d _ heq => ?_
    · obtain rfl | hold := (hworking x).1 hx
      · exact .inr ((hnext _).2 (.inl rfl))
      · exact (h.bounded x hold).imp_right fun hin => (hnext x).2 (.inr hin)
    · obtain rfl | hold := (hnext x).1 hx
      · exact absurd hafter hapart
      · exact (hworking x).2 (.inr (h.kept x hold hafter))
    · obtain rfl : b.id = x := by simpa [PatchOp.writes] using hx
      exact hwritten
    · cases heq
      exact hapart
  · exact absurd hheld hfree

theorem carryDelete (h : Restores written after view s) (hview : (view.map (·.id)).Nodup)
    (hpolicy : c.policy = .laterWins) {id : BlockId}
    (hop : (PatchOp.delete id).apply view = .ok next) (hcarry : carryDelete c s id = .ok t) :
    Restores written after next t := by
  have hnext := PatchOp.mem_ids_of_apply hview hop
  obtain ⟨rfl, hgone⟩ | ⟨happly, hops, hrenamed, -⟩ := carryDelete_spec hpolicy hcarry
  · refine ⟨h.renamed, h.nodup, fun x hx => ?_, fun x hx => h.kept x ((hnext x).1 hx).1, h.writes,
      h.apart⟩
    have hne : x ≠ id := fun heq => hgone (heq ▸ hx)
    exact (h.bounded x hx).imp_right fun hin => (hnext x).2 ⟨hin, hne⟩
  · have hworking := PatchOp.mem_ids_of_apply h.nodup happly
    refine h.emit happly hops hrenamed (fun x hx => ?_) (fun x hx hafter => ?_)
      (fun x hx => by cases hx) fun d _ heq => by cases heq
    · obtain ⟨hold, hne⟩ := (hworking x).1 hx
      exact (h.bounded x hold).imp_right fun hin => (hnext x).2 ⟨hin, hne⟩
    · obtain ⟨hold, hne⟩ := (hnext x).1 hx
      exact (hworking x).2 ⟨h.kept x hold hafter, hne⟩

theorem carryReplace (h : Restores written after view s) (hpolicy : c.policy = .laterWins)
    {id : BlockId} {content : String} (hop : (PatchOp.replace id content).apply view = .ok next)
    (hcarry : carryReplace c s id content = .ok t) (hwritten : written id) :
    Restores written after next t := by
  obtain ⟨hin, hids⟩ := PatchOp.ids_of_apply_replace hop
  have hwrites : ∀ x, id = x → written x := fun x hx => hx ▸ hwritten
  obtain ⟨hrenamed, -, ⟨happly, hops, -⟩ | ⟨kind, a, hgone, happly, hops⟩⟩ :=
    carryReplace_spec hpolicy hcarry
  · have hworking := (PatchOp.ids_of_apply_replace happly).2
    refine h.emit happly hops hrenamed ?_ ?_
      (fun x hx => hwrites x (by simpa [PatchOp.writes] using hx)) fun d _ heq => by cases heq
    · rw [hworking, hids]
      exact h.bounded
    · rw [hworking, hids]
      exact h.kept
  · -- the block is in view, so that it would be there if the earlier patch had not deleted it
    have hdeleted : id ∉ after.map (·.id) := fun hmem => hgone (h.kept id hin hmem)
    have hworking := PatchOp.mem_ids_of_apply h.nodup happly
    rw [← hids] at hin
    refine h.emit happly hops hrenamed (fun x hx => ?_) (fun x hx hafter => ?_)
      (fun x hx => hwrites x (by simpa [PatchOp.writes] using hx)) fun d _ heq => ?_
    · obtain rfl | hold := (hworking x).1 hx
      · exact .inr hin
      · rw [hids]
        exact h.bounded x hold
    · exact (hworking x).2 (.inr (h.kept x (hids ▸ hx) hafter))
    · cases heq
      exact hdeleted

theorem carryMove (h : Restores written after view s) {id : BlockId} {place : Option BlockId}
    (hop : (PatchOp.move id place).apply view = .ok next)
    (hcarry : carryMove c s id place = .ok t) : Restores written after next t := by
  have hids : ∀ x, x ∈ next.map (·.id) ↔ x ∈ view.map (·.id) :=
    fun _ => ((PatchOp.perm_of_apply_move hop).2.map (·.id)).mem_iff
  obtain ⟨rfl, -⟩ | ⟨a, happly, hops, hrenamed, -⟩ := carryMove_spec hcarry
  · exact ⟨h.renamed, h.nodup, fun x hx => (h.bounded x hx).imp_right (hids x).2,
      fun x hx => h.kept x ((hids x).1 hx), h.writes, h.apart⟩
  · have hworking : ∀ x, x ∈ t.working.map (·.id) ↔ x ∈ s.working.map (·.id) :=
      fun _ => ((PatchOp.perm_of_apply_move happly).2.map (·.id)).mem_iff
    exact h.emit happly hops hrenamed
      (fun x hx => (h.bounded x ((hworking x).1 hx)).imp_right (hids x).2)
      (fun x hx hafter => (hworking x).2 (h.kept x ((hids x).1 hx) hafter))
      (fun x hx => by cases hx) fun d _ heq => by cases heq

theorem carry (h : Restores written after view s) (hview : (view.map (·.id)).Nodup)
    (hpolicy : c.policy = .laterWins) (hop : op.apply view = .ok next)
    (hcarry : carry c s op = .ok t) (hwritten : ∀ x, op.writes x = true → written x)
    (hapart : ∀ b a, op = .insert b a → b.id ∉ after.map (·.id)) :
    Restores written after next t := by
  cases op with
  | insert b place =>
    exact h.carryInsert hview hop hcarry (hwritten b.id (by simp [PatchOp.writes]))
      (hapart b place rfl)
  | delete id =>
    rw [Rebase.carry, resolve_of_renamed_nil h.renamed] at hcarry
    exact h.carryDelete hview hpolicy hop hcarry
  | replace id content =>
    rw [Rebase.carry, resolve_of_renamed_nil h.renamed] at hcarry
    exact h.carryReplace hpolicy hop hcarry (hwritten id (by simp [PatchOp.writes]))
  | move id place =>
    rw [Rebase.carry, resolve_of_renamed_nil h.renamed] at hcarry
    exact h.carryMove hop hcarry

theorem carryAll (h : Restores written after view s) (hview : (view.map (·.id)).Nodup)
    (hpolicy : c.policy = .laterWins) {ops : List PatchOp} {g : IdSource}
    {result : List Block × IdSource} (happly : Document.applyOps ops view g = .ok result)
    (hcarry : carryAll c s ops = .ok t)
    (hwritten : ∀ op ∈ ops, ∀ x, op.writes x = true → written x)
    (hapart : ∀ b a, .insert b a ∈ ops → b.id ∉ after.map (·.id)) :
    Restores written after result.1 t := by
  induction ops generalizing view g s with
  | nil =>
    cases happly
    cases hcarry
    exact h
  | cons op ops ih =>
    obtain ⟨next, hop, hrest⟩ := Document.applyOps_cons_eq_ok_iff.1 happly
    obtain ⟨mid, hfirst, hmore⟩ := carryAll_cons_eq_ok_iff.1 hcarry
    have hmid := h.carry hview hpolicy hop hfirst (hwritten op List.mem_cons_self)
      fun b a heq => hapart b a (heq ▸ List.mem_cons_self)
    exact ih hmid (PatchOp.nodup_of_apply hview hop) hrest hmore
      (fun e he => hwritten e (List.mem_cons_of_mem op he))
      fun b a hmem => hapart b a (List.mem_cons_of_mem op hmem)

end Restores

end Rebase

/-- A patch that wins, and inserts no block that is there after the earlier one, is carried over
    as a patch that writes no other block and inserts none that is there. -/
theorem Patch.writes_of_rebase {later earlier : Patch} {before current target : Document}
    {rebased : Rebased} (hbefore : (before.blocks.map (·.id)).Nodup)
    (hcurrent : (current.blocks.map (·.id)).Nodup) (hlater : before.apply later = .ok target)
    (hrebase : later.rebase earlier before current .laterWins = .ok rebased)
    (hapart : ∀ b a, .insert b a ∈ later.ops → b.id ∉ current.blocks.map (·.id)) :
    (∀ e ∈ rebased.patch.ops, ∀ x, e.writes x = true → ∃ op ∈ later.ops, op.writes x = true) ∧
      ∀ b a, .insert b a ∈ rebased.patch.ops → b.id ∉ current.blocks.map (·.id) := by
  obtain ⟨-, s, hcarry, rfl⟩ := rebase_eq_ok hrebase
  obtain ⟨-, blocks, ids, hops, -⟩ := Document.apply_eq_ok_iff.1 hlater
  have hstart : Rebase.Restores (fun x => ∃ op ∈ later.ops, op.writes x = true) current.blocks
      before.blocks ⟨current.blocks, current.ids, [], [], []⟩ :=
    ⟨rfl, hcurrent, fun _ hx => .inl hx, fun _ _ hx => hx, by simp, by simp⟩
  have hend := hstart.carryAll hbefore rfl hops hcarry (fun op hop x hx => ⟨op, hop, hx⟩) hapart
  exact ⟨hend.writes, hend.apart⟩

end LiterateSync
