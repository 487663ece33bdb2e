import LiterateSync.Proofs.Document.Carrying
import LiterateSync.Proofs.Document.Touch

namespace LiterateSync.Rebase

variable {c : Setting} {s t : State} {op : PatchOp} {id : BlockId}

theorem carryAll_cons_eq_ok_iff {ops : List PatchOp} :
    carryAll c s (op :: ops) = .ok t ↔
      ∃ mid, carry c s op = .ok mid ∧ carryAll c mid ops = .ok t := by
  rw [carryAll]
  split <;> simp_all

theorem exists_apply_of_emit (h : emit s op = .ok t) :
    ∃ working, op.apply s.working = .ok working ∧ t = { s with working, ops := s.ops ++ [op] } := by
  rw [emit] at h
  split at h
  · cases h
  · rename_i working happly
    cases h
    exact ⟨working, happly, rfl⟩

/-- The block is inserted under its own name, or under a new one that is put on record. -/
theorem carryInsert_spec {b : Block} {place : Option BlockId}
    (h : carryInsert c s b place = .ok t) : ∃ name a,
      (PatchOp.insert { b with id := name } a).apply s.working = .ok t.working ∧
      t.ops = s.ops ++ [.insert { b with id := name } a] ∧ t.conflicts = s.conflicts ∧
      (name = b.id ∧ t.renamed = s.renamed ∨
        b.id ∈ s.working.map (·.id) ∧ t.renamed = (b.id, name) :: s.renamed) := by
  cases hholds : holds s b.id with
  | true =>
    obtain ⟨a, -, heq⟩ := carryInsert_of_holds c place hholds
    obtain ⟨working, happly, rfl⟩ := exists_apply_of_emit (heq ▸ h)
    exact ⟨_, a, happly, rfl, rfl, .inr ⟨Block.isIn_iff.1 hholds, rfl⟩⟩
  | false =>
    obtain ⟨a, -, heq⟩ := carryInsert_of_free c place hholds
    obtain ⟨working, happly, rfl⟩ := exists_apply_of_emit (heq ▸ h)
    exact ⟨b.id, a, happly, rfl, rfl, .inl ⟨rfl, rfl⟩⟩

theorem carryMove_spec {place : Option BlockId} (h : carryMove c s id place = .ok t) :
    (t = s ∧ id ∉ s.working.map (·.id)) ∨
      ∃ a, (PatchOp.move id a).apply s.working = .ok t.working ∧
        t.ops = s.ops ++ [.move id a] ∧ t.renamed = s.renamed ∧ t.conflicts = s.conflicts := by
  rw [carryMove] at h
  split at h
  · obtain ⟨working, happly, rfl⟩ := exists_apply_of_emit h
    exact .inr ⟨_, happly, rfl, rfl, rfl⟩
  · rename_i hgone _
    cases h
    exact .inl ⟨rfl, Block.isIn_eq_false_iff.1 hgone⟩
  · cases h

/-- A deletion by the later patch, if that one wins, is made unless the block is gone already. It
    is in conflict with a replacement by the earlier patch. -/
theorem carryDelete_spec (hpolicy : c.policy = .laterWins) (h : carryDelete c s id = .ok t) :
    (t = s ∧ id ∉ s.working.map (·.id)) ∨
      (PatchOp.delete id).apply s.working = .ok t.working ∧ t.ops = s.ops ++ [.delete id] ∧
        t.renamed = s.renamed ∧ s.conflicts ⊆ t.conflicts ∧
        ∀ theirs, touch? c id = some (.replaced theirs) → id ∈ t.conflicts := by
  rw [carryDelete, hpolicy] at h
  split at h
  · obtain ⟨working, happly, rfl⟩ := exists_apply_of_emit h
    exact .inr ⟨happly, rfl, rfl, List.subset_append_left _ _, fun _ _ => by simp [clash]⟩
  · rename_i hother
    obtain ⟨working, happly, rfl⟩ := exists_apply_of_emit h
    refine .inr ⟨happly, rfl, rfl, List.Subset.refl _, fun theirs htouch => ?_⟩
    exact (hother theirs htouch).elim
  · rename_i hgone _
    cases h
    exact .inl ⟨rfl, Block.isIn_eq_false_iff.1 hgone⟩
  · cases h

/-- A replacement by the later patch, if that one wins, is made, and brings the block back where
    the earlier patch has deleted it. It is in conflict with a replacement by another content. -/
theorem carryReplace_spec (hpolicy : c.policy = .laterWins) {content : String}
    (h : carryReplace c s id content = .ok t) :
    t.renamed = s.renamed ∧ s.conflicts ⊆ t.conflicts ∧
      ((PatchOp.replace id content).apply s.working = .ok t.working ∧
          t.ops = s.ops ++ [.replace id content] ∧
          (∀ theirs, touch? c id = some (.replaced theirs) → theirs ≠ content →
            id ∈ t.conflicts) ∨
        ∃ kind a, id ∉ s.working.map (·.id) ∧
          (PatchOp.insert ⟨id, kind, content⟩ a).apply s.working = .ok t.working ∧
          t.ops = s.ops ++ [.insert ⟨id, kind, content⟩ a]) := by
  rw [carryReplace, hpolicy] at h
  split at h
  · rename_i theirs _ htouch
    split at h
    · rename_i hsame
      obtain ⟨working, happly, rfl⟩ := exists_apply_of_emit h
      refine ⟨rfl, List.Subset.refl _, .inl ⟨happly, rfl, fun other hother hne => ?_⟩⟩
      rw [htouch] at hother
      cases hother
      exact absurd hsame hne
    · obtain ⟨working, happly, rfl⟩ := exists_apply_of_emit h
      exact ⟨rfl, List.subset_append_left _ _,
        .inl ⟨happly, rfl, fun _ _ _ => by simp [clash]⟩⟩
  · rename_i hother
    obtain ⟨working, happly, rfl⟩ := exists_apply_of_emit h
    refine ⟨rfl, List.Subset.refl _, .inl ⟨happly, rfl, fun theirs htouch _ => ?_⟩⟩
    exact (hother theirs htouch).elim
  · rename_i hgone hdeleted
    simp only at h
    split at h
    · cases h
    · rename_i restored hrestore
      obtain ⟨working, happly, rfl⟩ := exists_apply_of_emit h
      rw [restore] at hrestore
      split at hrestore
      · cases hrestore
      · cases hrestore
        exact ⟨rfl, List.subset_append_left _ _,
          .inr ⟨_, _, Block.isIn_eq_false_iff.1 hgone, happly, rfl⟩⟩
  · cases h

/-- A carried change is dropped, or made to the blocks under some form. -/
theorem apply_of_carry (h : carry c s op = .ok t) :
    (t.ops = s.ops ∧ t.working = s.working) ∨
      ∃ e, t.ops = s.ops ++ [e] ∧ e.apply s.working = .ok t.working := by
  have hemit : ∀ {r : State} {e : PatchOp}, r.ops = s.ops → r.working = s.working →
      emit r e = .ok t → ∃ e, t.ops = s.ops ++ [e] ∧ e.apply s.working = .ok t.working := by
    intro r e hops hworking heq
    obtain ⟨working, happly, rfl⟩ := exists_apply_of_emit heq
    exact ⟨e, by rw [← hops], by rw [← hworking]; exact happly⟩
  cases op with
  | insert b place =>
    obtain ⟨name, a, happly, hops, -⟩ := carryInsert_spec h
    exact .inr ⟨_, hops, happly⟩
  | delete target =>
    rw [carry, carryDelete] at h
    split at h
    · cases hpolicy : c.policy with
      | laterWins =>
        simp only [hpolicy] at h
        exact .inr (hemit (r := clash s _) rfl rfl h)
      | earlierWins =>
        simp only [hpolicy, Except.ok.injEq] at h
        subst h
        exact .inl ⟨rfl, rfl⟩
    · exact .inr (hemit rfl rfl h)
    · cases h
      exact .inl ⟨rfl, rfl⟩
    · cases h
  | replace target content =>
    cases hpolicy : c.policy with
    | laterWins =>
      obtain ⟨-, -, ⟨happly, hops, -⟩ | ⟨kind, a, -, happly, hops⟩⟩ := carryReplace_spec hpolicy h
      · exact .inr ⟨_, hops, happly⟩
      · exact .inr ⟨_, hops, happly⟩
    | earlierWins =>
      rw [carry, carryReplace, hpolicy] at h
      split at h
      · split at h
        · exact .inr (hemit rfl rfl h)
        · cases h
          exact .inl ⟨rfl, rfl⟩
      · exact .inr (hemit rfl rfl h)
      · cases h
        exact .inl ⟨rfl, rfl⟩
      · cases h
  | move target place =>
    obtain ⟨rfl, -⟩ | ⟨a, happly, hops, -⟩ := carryMove_spec h
    · exact .inl ⟨rfl, rfl⟩
    · exact .inr ⟨_, hops, happly⟩

/-- The carried changes lead to the blocks at each point. -/
theorem replays_carryAll (after : List Block) (g : IdSource) {ops : List PatchOp}
    (hreplays : ∃ ids, Document.applyOps s.ops after g = .ok (s.working, ids))
    (h : carryAll c s ops = .ok t) :
    ∃ ids, Document.applyOps t.ops after g = .ok (t.working, ids) := by
  induction ops generalizing s with
  | nil =>
    cases h
    exact hreplays
  | cons op ops ih =>
    obtain ⟨next, hcarry, hmore⟩ := carryAll_cons_eq_ok_iff.1 h
    refine ih ?_ hmore
    obtain ⟨ids, hops⟩ := hreplays
    obtain ⟨hsame, hworking⟩ | ⟨e, hcons, happly⟩ := apply_of_carry hcarry
    · exact ⟨ids, by rw [hsame, hworking, hops]⟩
    · refine ⟨e.observe ids, ?_⟩
      rw [hcons, Document.applyOps_append_of_ok _ hops, Document.applyOps_cons_of_ok _ happly,
        Document.applyOps_nil]

end LiterateSync.Rebase

namespace LiterateSync.Patch

variable {later earlier : Patch} {before current : Document} {policy : ConflictPolicy}
  {rebased : Rebased}

theorem rebase_eq_ok (h : later.rebase earlier before current policy = .ok rebased) :
    current.revision = before.revision + 1 ∧
      ∃ s, Rebase.carryAll ⟨before.blocks, earlier.ops, policy⟩
          ⟨current.blocks, current.ids, [], [], []⟩ later.ops = .ok s ∧
        rebased = ⟨⟨current.revision, s.ops⟩, s.conflicts⟩ := by
  rw [rebase] at h
  split at h
  · cases h
  · split at h
    · cases h
    · split at h
      · cases h
      · rename_i hrevision
        dsimp only at h
        split at h
        · cases h
        · rename_i s hcarry
          cases h
          exact ⟨not_not.1 hrevision, s, hcarry, rfl⟩

/-- A patch that has been carried over another one can be applied behind it. -/
theorem exists_apply_of_rebase (h : later.rebase earlier before current policy = .ok rebased) :
    ∃ next, current.apply rebased.patch = .ok next := by
  obtain ⟨-, s, hcarry, rfl⟩ := rebase_eq_ok h
  obtain ⟨ids, hops⟩ := Rebase.replays_carryAll current.blocks current.ids ⟨_, rfl⟩ hcarry
  exact ⟨_, Document.apply_eq_ok_iff.2 ⟨rfl, _, _, hops, rfl⟩⟩

end LiterateSync.Patch
