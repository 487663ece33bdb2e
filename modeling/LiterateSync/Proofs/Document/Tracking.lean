import LiterateSync.Proofs.Document.Carrying

namespace LiterateSync.Rebase

variable {c : Setting} {after view next : List Block} {g : IdSource} {s t : State}
  {reused reused' : List BlockId}

/-- The earlier patch has left blocks whose names are past those of the source, has deleted each
    block that is missing, and has seen no name that the source could still give out. -/
structure Grounds (c : Setting) (after : List Block) (g : IdSource) : Prop where
  covers : g.Covers after
  kept : ∀ id ∈ c.before.map (·.id), id ∈ after.map (·.id) ∨ touch? c id = some .deleted
  deleted_le : ∀ id, touch? c id = some .deleted → ∀ n, g.numberOf? id = some n → n ≤ g.count

theorem grounds_of_apply {before current : Document} {earlier : Patch}
    (hbefore : before.WellNamed) (h : before.apply earlier = .ok current)
    (policy : ConflictPolicy) :
    Grounds ⟨before.blocks, earlier.ops, policy⟩ current.blocks current.ids := by
  obtain ⟨-, blocks, ids, hops, rfl⟩ := Document.apply_eq_ok_iff.1 h
  refine ⟨(Document.covers_of_applyOps hbefore hops).1, fun id hid => ?_, fun id htouch n hn => ?_⟩
  · by_cases hleft : id ∈ blocks.map (·.id)
    · exact .inl hleft
    · obtain hdeleted | ⟨-, hnever⟩ := touch?_of_not_mem hbefore hops before.blocks policy hleft
      · exact .inr hdeleted
      · exact absurd hid hnever
  · exact number_le_of_delete_mem hbefore hops (delete_mem_of_touch? htouch) hn

/-- A name that the source gives out is not that of a block which the earlier patch deleted. -/
theorem Grounds.touch?_name_ne (hgrounds : Grounds c after g) {n : Nat} (hlt : g.count < n)
    (hmax : n ≤ IdSource.maxNumber) : touch? c (g.name n) ≠ some .deleted := by
  intro htouch
  have hle := hgrounds.deleted_le _ htouch n (by rw [IdSource.numberOf?_name, if_pos hmax])
  omega

/-- What holds between the blocks that the author of the later patch sees and the blocks that
    its changes have been carried over to. Blocks under a reused name are left out of it. -/
structure Tracks (c : Setting) (after : List Block) (g : IdSource) (view : List Block)
    (s : State) (reused : List BlockId) : Prop where
  covers : s.ids.Covers s.working
  advances : g.Advances s.ids
  /-- Each block is there under the name that it has now, or the earlier patch deleted it. -/
  landed : ∀ x ∈ view.map (·.id), x ∉ reused → resolve s x ∈ s.working.map (·.id) ∨
    resolve s x = x ∧ touch? c x = some .deleted ∧ x ∈ c.before.map (·.id)
  /-- No two blocks have the same name now. -/
  apart : ∀ x ∈ view.map (·.id), x ∉ reused → ∀ y ∈ view.map (·.id), y ∉ reused →
    resolve s x = resolve s y → x = y
  /-- New names are those that the source gives out. -/
  fresh : ∀ e ∈ s.renamed, ∃ n, g.count < n ∧ n ≤ IdSource.maxNumber ∧ e.2 = g.name n
  entered : ∀ x ∈ reused, ∃ e ∈ s.renamed, e.1 = x
  /-- The carried changes lead to the blocks. -/
  replays : ∃ ids, Document.applyOps s.ops after g = .ok (s.working, ids)

theorem Grounds.tracks (hgrounds : Grounds c after g) :
    Tracks c after g c.before ⟨after, g, [], [], []⟩ [] where
  covers := hgrounds.covers
  advances := .refl g
  landed x hx _ := by
    obtain hin | hdeleted := hgrounds.kept x hx
    · exact .inl hin
    · exact .inr ⟨rfl, hdeleted, hx⟩
  apart _ _ _ _ _ _ heq := heq
  fresh e he := by cases he
  entered x hx := by cases hx
  replays := ⟨g, rfl⟩

namespace Tracks

theorem replays_emit (h : Tracks c after g view s reused) {op : PatchOp} {working : List Block}
    (happly : op.apply s.working = .ok working) :
    ∃ ids, Document.applyOps (s.ops ++ [op]) after g = .ok (working, ids) := by
  obtain ⟨ids, hops⟩ := h.replays
  refine ⟨op.observe ids, ?_⟩
  rw [Document.applyOps_append_of_ok _ hops, Document.applyOps_cons_of_ok _ happly,
    Document.applyOps_nil]

/-- Conflicts have no part in where the blocks are. -/
theorem with_conflicts (h : Tracks c after g view s reused) (conflicts : List BlockId) :
    Tracks c after g view { s with conflicts } reused :=
  ⟨h.covers, h.advances, h.landed, h.apart, h.fresh, h.entered, h.replays⟩

/-- A step that brings no new block into view keeps track of the blocks that it leaves in
    view, if it leaves them where they are. -/
theorem follow (h : Tracks c after g view s reused) (hcovers : t.ids.Covers t.working)
    (hids : t.ids = s.ids) (hrenamed : t.renamed = s.renamed)
    (hview : ∀ x ∈ next.map (·.id), x ∈ view.map (·.id))
    (hworking : ∀ x ∈ next.map (·.id), x ∉ reused → resolve s x ∈ s.working.map (·.id) →
      resolve s x ∈ t.working.map (·.id))
    (hreplays : ∃ ids, Document.applyOps t.ops after g = .ok (t.working, ids)) :
    Tracks c after g next t reused where
  covers := hcovers
  advances := by
    rw [hids]
    exact h.advances
  landed x hx hreused := by
    rw [resolve_congr hrenamed]
    obtain hin | hdeleted := h.landed x (hview x hx) hreused
    · exact .inl (hworking x hx hreused hin)
    · exact .inr hdeleted
  apart x hx hxr y hy hyr heq := by
    rw [resolve_congr hrenamed] at heq
    exact h.apart x (hview x hx) hxr y (hview y hy) hyr heq
  fresh := by
    rw [hrenamed]
    exact h.fresh
  entered := by
    rw [hrenamed]
    exact h.entered
  replays := hreplays

/-- A step that brings a block into view keeps track of the blocks, if it inserts the block
    under a name that no block has. -/
theorem insert (h : Tracks c after g view s reused) (x name : BlockId)
    (hcovers : t.ids.Covers t.working) (hadvances : s.ids.Advances t.ids)
    (hview : ∀ y ∈ next.map (·.id), y = x ∨ y ∈ view.map (·.id))
    (hreused : ∀ y ∈ reused, y ∈ reused') (hname : x ∉ reused' → resolve t x = name)
    (hothers : ∀ y, y ≠ x → resolve t y = resolve s y)
    (hfree : name ∉ s.working.map (·.id))
    (hunseen : name ∈ view.map (·.id) → touch? c name ≠ some .deleted)
    (hworking : ∀ y, y ∈ t.working.map (·.id) ↔ y = name ∨ y ∈ s.working.map (·.id))
    (hfresh : ∀ e ∈ t.renamed, ∃ n, g.count < n ∧ n ≤ IdSource.maxNumber ∧ e.2 = g.name n)
    (hentered : ∀ y ∈ reused', ∃ e ∈ t.renamed, e.1 = y)
    (hreplays : ∃ ids, Document.applyOps t.ops after g = .ok (t.working, ids)) :
    Tracks c after g next t reused' := by
  -- no other block in view has the new name
  have hdistinct : ∀ y ∈ view.map (·.id), y ∉ reused' → resolve s y ≠ name := by
    intro y hy hyr heq
    obtain hin | ⟨hself, hdeleted, -⟩ := h.landed y hy fun hmem => hyr (hreused y hmem)
    · exact hfree (heq ▸ hin)
    · rw [hself] at heq
      subst heq
      exact hunseen hy hdeleted
  refine ⟨hcovers, h.advances.trans hadvances, fun y hy hyr => ?_, fun y hy hyr z hz hzr heq => ?_,
    hfresh, hentered, hreplays⟩
  · by_cases hyx : y = x
    · subst hyx
      exact .inl ((hworking _).2 (.inl (hname hyr)))
    · rw [hothers y hyx]
      obtain hin | hdeleted := h.landed y ((hview y hy).resolve_left hyx)
        fun hmem => hyr (hreused y hmem)
      · exact .inl ((hworking _).2 (.inr hin))
      · exact .inr hdeleted
  · by_cases hyx : y = x <;> by_cases hzx : z = x
    · rw [hyx, hzx]
    · rw [hyx, hname (hyx ▸ hyr), hothers z hzx] at heq
      exact absurd heq.symm (hdistinct z ((hview z hz).resolve_left hzx) hzr)
    · rw [hzx, hname (hzx ▸ hzr), hothers y hyx] at heq
      exact absurd heq (hdistinct y ((hview y hy).resolve_left hyx) hyr)
    · rw [hothers y hyx, hothers z hzx] at heq
      exact h.apart y ((hview y hy).resolve_left hyx) (fun hmem => hyr (hreused y hmem))
        z ((hview z hz).resolve_left hzx) (fun hmem => hzr (hreused z hmem)) heq

end Tracks

end LiterateSync.Rebase
