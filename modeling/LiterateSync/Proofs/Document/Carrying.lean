import LiterateSync.Proofs.Document.Touch

namespace LiterateSync.Rebase

/-- How it goes with the names while the changes of a patch are carried over. -/
inductive Course where
  /-- Each change to a block looks for it under the name that the block has now. -/
  | clear
  /-- A block was put back under its own name, and a change to it looks under the name that an
      earlier block of this name has got, where there is nothing. -/
  | lost
  /-- Such a change finds another block. -/
  | crossed
  /-- A fresh name is needed, and there is no number left for it. -/
  | spent
  deriving DecidableEq, Repr

/-- Whether a block is inserted under its own name although an earlier block of this name has
    got a new one. The new name stays on record. -/
def reuses (s : State) : PatchOp → Bool
  | .insert block _ => !holds s block.id && s.renamed.any (·.1 = block.id)
  | _ => false

/-- Whether a change is about a block under a reused name. -/
def isMisled (reused : List BlockId) : PatchOp → Bool
  | .insert .. => false
  | op => reused.contains op.target

/-- Whether a change needs a fresh name that there is no number for. -/
def isSpent (s : State) : PatchOp → Bool
  | .insert block _ => holds s block.id && decide (IdSource.maxNumber ≤ s.ids.count)
  | _ => false

/-- How it goes with the names in the rest of the changes, when some names are reused already. -/
def course (c : Setting) : State → List BlockId → List PatchOp → Course
  | _, _, [] => .clear
  | s, reused, op :: ops =>
    if isSpent s op then .spent
    else if isMisled reused op then
      if holds s (resolve s op.target) then .crossed else .lost
    else
      match carry c s op with
      | .error _ => .clear
      | .ok t => course c t (if reuses s op then op.target :: reused else reused) ops

/-- A name on record leads to the last name that was put there for it, any other to itself. -/
theorem resolve_cases (s : State) (id : BlockId) :
    (resolve s id = id ∧ ∀ e ∈ s.renamed, e.1 ≠ id) ∨
      ∃ e ∈ s.renamed, e.1 = id ∧ resolve s id = e.2 := by
  rw [resolve]
  cases hfind : s.renamed.find? (·.1 = id) with
  | none =>
    refine .inl ⟨rfl, fun e he => ?_⟩
    simpa using List.find?_eq_none.1 hfind e he
  | some e =>
    exact .inr ⟨e, List.mem_of_find?_eq_some hfind, by simpa using List.find?_some hfind, rfl⟩

theorem resolve_congr {s t : State} (h : t.renamed = s.renamed) : resolve t = resolve s := by
  funext id
  rw [resolve, resolve, h]

theorem resolve_of_renamed_cons {s t : State} {old new : BlockId}
    (h : t.renamed = (old, new) :: s.renamed) (id : BlockId) :
    resolve t id = if id = old then new else resolve s id := by
  rw [resolve, resolve, h, List.find?_cons]
  by_cases hid : id = old
  · simp [hid]
  · simp [hid, Ne.symm hid]

theorem predecessor?_mem {c : Setting} {s : State} {id a : BlockId}
    (h : a ∈ predecessor? c s id) : a ∈ s.working.map (·.id) := by
  rw [predecessor?] at h
  split at h
  · cases h
  · obtain ⟨b, hb, rfl⟩ := Option.map_eq_some_iff.1 h
    have hholds : holds s b.id = true := by simpa using List.find?_some hb
    exact Block.isIn_iff.1 hholds

/-- The place of a carried change is behind a block that is there. -/
theorem anchor_mem {c : Setting} {s : State} {after : Option BlockId} {a : BlockId}
    (h : a ∈ anchor c s after) : a ∈ s.working.map (·.id) := by
  cases after with
  | none => cases h
  | some id =>
    rw [anchor] at h
    split at h
    · rename_i hholds
      cases h
      exact Block.isIn_iff.1 hholds
    · exact predecessor?_mem h

theorem emit_of_apply {s : State} {op : PatchOp} {working : List Block}
    (h : op.apply s.working = .ok working) :
    emit s op = .ok { s with working, ops := s.ops ++ [op] } := by
  rw [emit, h]

theorem carryInsert_of_holds (c : Setting) {s : State} {b : Block} (place : Option BlockId)
    (h : holds s b.id = true) :
    ∃ a, (∀ id ∈ a, id ∈ s.working.map (·.id)) ∧ carryInsert c s b place =
      emit { s with ids := s.ids.fresh.2, renamed := (b.id, s.ids.fresh.1) :: s.renamed }
        (.insert { b with id := s.ids.fresh.1 } a) := by
  rw [carryInsert, if_pos h]
  let minted := { s with ids := s.ids.fresh.2, renamed := (b.id, s.ids.fresh.1) :: s.renamed }
  have hanchor : ∀ id ∈ anchor c minted place, id ∈ minted.working.map (·.id) :=
    fun id => anchor_mem
  exact ⟨anchor c minted place, hanchor, rfl⟩

theorem carryInsert_of_free (c : Setting) {s : State} {b : Block} (place : Option BlockId)
    (h : holds s b.id = false) :
    ∃ a, (∀ id ∈ a, id ∈ s.working.map (·.id)) ∧ carryInsert c s b place =
      emit { s with ids := s.ids.observe b.id } (.insert b a) := by
  rw [carryInsert, if_neg (by simp [h])]
  let observed := { s with ids := s.ids.observe b.id }
  have hanchor : ∀ id ∈ anchor c observed place, id ∈ observed.working.map (·.id) :=
    fun id => anchor_mem
  exact ⟨anchor c observed place, hanchor, rfl⟩

/-- A block that is there is deleted or left, with or without a conflict. -/
theorem carryDelete_of_holds (c : Setting) {s : State} {id : BlockId} (h : holds s id = true) :
    ∃ conflicts, carryDelete c s id = emit { s with conflicts } (.delete id) ∨
      carryDelete c s id = .ok { s with conflicts } := by
  rw [carryDelete, h]
  cases touch? c id with
  | none => exact ⟨s.conflicts, .inl rfl⟩
  | some touch =>
    cases touch with
    | deleted => exact ⟨s.conflicts, .inl rfl⟩
    | replaced content =>
      refine ⟨s.conflicts ++ [id], ?_⟩
      cases c.policy with
      | laterWins => exact .inl rfl
      | earlierWins => exact .inr rfl

/-- A block that is there gets its content or is left, with or without a conflict. -/
theorem carryReplace_of_holds (c : Setting) {s : State} {id : BlockId} (content : String)
    (h : holds s id = true) :
    ∃ conflicts, carryReplace c s id content = emit { s with conflicts } (.replace id content) ∨
      carryReplace c s id content = .ok { s with conflicts } := by
  rw [carryReplace, h]
  cases touch? c id with
  | none => exact ⟨s.conflicts, .inl rfl⟩
  | some touch =>
    cases touch with
    | deleted => exact ⟨s.conflicts, .inl rfl⟩
    | replaced theirs =>
      by_cases hsame : theirs = content
      · exact ⟨s.conflicts, .inl (if_pos hsame)⟩
      · refine ⟨s.conflicts ++ [id], ?_⟩
        simp only [if_neg hsame]
        cases c.policy with
        | laterWins => exact .inl rfl
        | earlierWins => exact .inr rfl

/-- A replacement of a block that the earlier patch deleted brings it back or is dropped. -/
theorem carryReplace_of_deleted {c : Setting} {s : State} {id : BlockId} (content : String)
    (hgone : holds s id = false) (hdeleted : touch? c id = some .deleted)
    (hbefore : id ∈ c.before.map (·.id)) :
    ∃ conflicts, carryReplace c s id content = .ok { s with conflicts } ∨
      ∃ kind, carryReplace c s id content =
        emit { s with conflicts } (.insert ⟨id, kind, content⟩ (predecessor? c s id)) := by
  refine ⟨s.conflicts ++ [id], ?_⟩
  rw [carryReplace, hgone, hdeleted]
  cases c.policy with
  | earlierWins => exact .inl rfl
  | laterWins =>
    obtain ⟨b, hb, hid⟩ := List.mem_map.1 hbefore
    obtain ⟨deleted, hfind⟩ : ∃ deleted, c.before.find? (·.id = id) = some deleted :=
      Option.isSome_iff_exists.1 (List.find?_isSome.2 ⟨b, hb, by simp [hid]⟩)
    refine .inr ⟨deleted.kind, ?_⟩
    simp only [restore, hfind]
    rfl

/-- A change to a block that is not there, and that the earlier patch did not delete, cannot be
    carried over. -/
theorem carry_of_gone {c : Setting} {s : State} {op : PatchOp} (hop : isMisled [op.target] op)
    (hgone : holds s (resolve s op.target) = false)
    (htouch : touch? c (resolve s op.target) ≠ some .deleted) :
    carry c s op = .error (.unknownBlock (resolve s op.target)) := by
  cases op with
  | insert block after => cases hop
  | delete id =>
    simp only [PatchOp.target] at hgone htouch ⊢
    rw [carry, carryDelete, hgone]
    split <;> simp_all
  | replace id content =>
    simp only [PatchOp.target] at hgone htouch ⊢
    rw [carry, carryReplace, hgone]
    split <;> simp_all
  | move id after =>
    simp only [PatchOp.target] at hgone htouch ⊢
    rw [carry, carryMove, hgone]
    split <;> simp_all

end LiterateSync.Rebase
