import LiterateSync.Proofs.Document.Fallback

namespace LiterateSync

namespace Rebase

variable {c : Setting} {after : List Block} {g : IdSource} {s t : State} {op : PatchOp}
  {ops : List PatchOp} {x : BlockId}

/-! ### The names that can be there -/

/-- What is there after a change was there before it, or the change has inserted it, under its own
    name or another one, or it has been put back after the earlier patch deleted it. -/
theorem mem_working_of_carry (h : carry c s op = .ok t) (hx : x ∈ t.working.map (·.id)) :
    x ∈ s.working.map (·.id) ∨ x ∈ insertedIds [op] ∨ (∃ r ∈ t.renamed, r.2 = x) ∨
      .delete x ∈ c.earlier := by
  by_cases hthere : x ∈ s.working.map (·.id)
  · exact .inl hthere
  refine .inr ?_
  by_cases hop : ∃ b place, op = .insert b place
  · obtain ⟨b, place, rfl⟩ := hop
    obtain ⟨name, a, happly, -, -, hname⟩ := carryInsert_spec h
    have htarget : x = name := (PatchOp.mem_or_target_of_apply happly hx).resolve_left hthere
    obtain ⟨rfl, -⟩ | ⟨-, hcons⟩ := hname
    · exact .inl (mem_insertedIds_iff.2 ⟨b, place, List.mem_singleton.2 rfl, htarget.symm⟩)
    · exact .inr (.inl ⟨(b.id, name), hcons ▸ List.mem_cons_self, htarget.symm⟩)
  · have hother : ∀ b place, op ≠ .insert b place := fun b place heq => hop ⟨b, place, heq⟩
    obtain ⟨-, ⟨-, hworking⟩ | ⟨e, hstands, -, happly⟩⟩ := carry_at hother h
    · exact absurd (hworking ▸ hx) hthere
    · have htarget : x = resolve s op.target :=
        ((PatchOp.mem_or_target_of_apply happly hx).resolve_left hthere).trans hstands.target_eq
      have hdeleted := touch?_of_carry hother h (htarget ▸ hthere)
      exact .inr (.inr (htarget ▸ delete_mem_of_touch? hdeleted))

theorem insertedIds_cons (op : PatchOp) (ops : List PatchOp) :
    insertedIds (op :: ops) = insertedIds [op] ++ insertedIds ops :=
  List.filterMap_append (l := [op])

theorem mem_working_of_carryAll (h : carryAll c s ops = .ok t) (hx : x ∈ t.working.map (·.id)) :
    x ∈ s.working.map (·.id) ∨ x ∈ insertedIds ops ∨ (∃ r ∈ t.renamed, r.2 = x) ∨
      .delete x ∈ c.earlier := by
  induction ops generalizing s with
  | nil =>
    cases h
    exact .inl hx
  | cons op ops ih =>
    obtain ⟨mid, hfirst, hmore⟩ := carryAll_cons_eq_ok_iff.1 h
    rw [insertedIds_cons, List.mem_append]
    obtain hmid | hinserted | hrest := ih hmore
    · obtain hthere | hinserted | ⟨r, hr, hid⟩ | hdeleted := mem_working_of_carry hfirst hmid
      · exact .inl hthere
      · exact .inr (.inl (.inl hinserted))
      · exact .inr (.inr (.inl ⟨r, renamed_of_carryAll hmore hr, hid⟩))
      · exact .inr (.inr (.inr hdeleted))
    · exact .inr (.inl (.inr hinserted))
    · exact .inr (.inr hrest)

/-- Only names under which blocks have been inserted stand for other names. -/
theorem key_of_carryAll (h : carryAll c s ops = .ok t) {r : BlockId × BlockId}
    (hr : r ∈ t.renamed) : r ∈ s.renamed ∨ r.1 ∈ insertedIds ops := by
  induction ops generalizing s with
  | nil =>
    cases h
    exact .inl hr
  | cons op ops ih =>
    obtain ⟨mid, hfirst, hmore⟩ := carryAll_cons_eq_ok_iff.1 h
    rw [insertedIds_cons, List.mem_append]
    obtain hmid | hinserted := ih hmore
    · by_cases hop : ∃ b place, op = .insert b place
      · obtain ⟨b, place, rfl⟩ := hop
        obtain ⟨name, a, -, -, -, ⟨-, hsame⟩ | ⟨-, hcons⟩⟩ := carryInsert_spec hfirst
        · exact .inl (hsame ▸ hmid)
        · rw [hcons] at hmid
          rcases List.mem_cons.1 hmid with rfl | hmid
          · exact .inr (.inl (mem_insertedIds_iff.2 ⟨b, place, List.mem_singleton.2 rfl, rfl⟩))
          · exact .inl hmid
      · have hother : ∀ b place, op ≠ .insert b place := fun b place heq => hop ⟨b, place, heq⟩
        exact .inl ((carry_at hother hfirst).1 ▸ hmid)
    · exact .inr (.inr hinserted)

/-! ### The errors of carrying -/

/-- A change to a block that is there is carried over. -/
theorem exists_carry_of_holds (hop : ∀ b place, op ≠ .insert b place)
    (hheld : resolve s op.target ∈ s.working.map (·.id)) : ∃ t, carry c s op = .ok t := by
  have hholds : holds s (resolve s op.target) = true := Block.isIn_iff.2 hheld
  cases op with
  | insert b place => exact absurd rfl (hop b place)
  | delete id =>
    obtain ⟨conflicts, heq | heq⟩ := carryDelete_of_holds c hholds
    · obtain ⟨working, happly⟩ := PatchOp.exists_apply_delete hheld
      exact ⟨_, heq.trans (emit_of_apply happly)⟩
    · exact ⟨_, heq⟩
  | replace id content =>
    obtain ⟨conflicts, heq | heq⟩ := carryReplace_of_holds c content hholds
    · obtain ⟨working, happly⟩ := PatchOp.exists_apply_replace content hheld
      exact ⟨_, heq.trans (emit_of_apply happly)⟩
    · exact ⟨_, heq⟩
  | move id place =>
    obtain ⟨t, hcarry, -⟩ := exists_carryMove c place hheld
    exact ⟨t, hcarry⟩

/-- A replacement of a block that the earlier patch deleted fails only if the block is unknown. -/
theorem unknownBlock_of_carryReplace {id : BlockId} {content : String} {e : PatchError}
    (hgone : id ∉ s.working.map (·.id)) (hdeleted : touch? c id = some .deleted)
    (herror : carryReplace c s id content = .error e) : e = .unknownBlock id := by
  by_cases hbefore : id ∈ c.before.map (·.id)
  · have hholds : holds s id = false := Block.isIn_eq_false_iff.2 hgone
    obtain ⟨conflicts, heq | ⟨kind, heq⟩⟩ :=
      carryReplace_of_deleted content hholds hdeleted hbefore
    · rw [heq] at herror
      cases herror
    · have hplace : ∀ a ∈ predecessor? c s id, a ∈ s.working.map (·.id) := fun a => predecessor?_mem
      obtain ⟨working, happly⟩ :=
        PatchOp.exists_apply_insert (b := ⟨id, kind, content⟩) hgone hplace
      rw [heq, emit_of_apply (s := { s with conflicts }) happly] at herror
      cases herror
  · have hnone : c.before.find? (·.id = id) = none := List.find?_eq_none.2 fun b hb hid =>
      hbefore (of_decide_eq_true hid ▸ List.mem_map_of_mem hb)
    rw [carryReplace, show holds s id = false from Block.isIn_eq_false_iff.2 hgone, hdeleted] at herror
    cases hpolicy : c.policy with
    | earlierWins =>
      simp only [hpolicy] at herror
      cases herror
    | laterWins =>
      simp only [hpolicy, restore, hnone] at herror
      cases herror
      rfl

/-- The only reason why a change is not carried over is that a block is missing, as long as there is
    a number for each fresh name. -/
theorem WellKept.unknownBlock_of_carry (h : WellKept c g s) (hspent : isSpent s op = false)
    {e : PatchError} (herror : Rebase.carry c s op = .error e) : ∃ id, e = .unknownBlock id := by
  by_cases hop : ∃ b place, op = .insert b place
  · obtain ⟨b, place, rfl⟩ := hop
    obtain ⟨t, hcarry, -⟩ := h.exists_carryInsert place hspent
    rw [Rebase.carry, hcarry] at herror
    cases herror
  have hother : ∀ b place, op ≠ .insert b place := fun b place heq => hop ⟨b, place, heq⟩
  by_cases hheld : resolve s op.target ∈ s.working.map (·.id)
  · obtain ⟨t, hcarry⟩ := exists_carry_of_holds (c := c) hother hheld
    rw [hcarry] at herror
    cases herror
  have hgone : holds s (resolve s op.target) = false := Block.isIn_eq_false_iff.2 hheld
  by_cases htouch : touch? c (resolve s op.target) = some .deleted
  · cases op with
    | insert b place => exact absurd rfl (hother b place)
    | delete id =>
      simp only [PatchOp.target] at hgone htouch
      rw [Rebase.carry, Rebase.carryDelete, hgone, htouch] at herror
      cases herror
    | replace id content => exact ⟨_, unknownBlock_of_carryReplace hheld htouch herror⟩
    | move id place =>
      simp only [PatchOp.target] at hgone htouch
      rw [Rebase.carry, Rebase.carryMove, hgone, htouch] at herror
      cases herror
  · rw [carry_of_gone (isMisled_self hother) hgone htouch] at herror
    cases herror
    exact ⟨_, rfl⟩

theorem WellKept.unknownBlock_of_carryAll (h : WellKept c g s) (hgrounds : Grounds c after g)
    (hbefore : g.Covers c.before) (hlast : numbersLast c s ops = true) {e : PatchError}
    (herror : Rebase.carryAll c s ops = .error e) : ∃ id, e = .unknownBlock id := by
  induction ops generalizing s with
  | nil => cases herror
  | cons op ops ih =>
    rw [Rebase.carryAll] at herror
    split at herror
    · rename_i hfirst
      cases herror
      exact h.unknownBlock_of_carry (isSpent_of_numbersLast hlast) hfirst
    · rename_i mid hfirst
      obtain ⟨hspent, hrest⟩ := (numbersLast_cons_of_ok hfirst).1 hlast
      exact ih (h.carry hgrounds hbefore hspent hfirst) hrest herror

/-! ### Names that nothing is known of -/

theorem predecessor?_of_unknown (s : State) (hbefore : x ∉ c.before.map (·.id)) :
    predecessor? c s x = none := by
  rw [predecessor?, Block.findIdx?_eq_none hbefore]

/-- An insertion behind a block that is unknown is carried over as one at the first place. -/
theorem carryInsert_of_unknown (block : Block) (hself : resolve s x = x)
    (hgone : x ∉ s.working.map (·.id)) (hbefore : x ∉ c.before.map (·.id)) :
    carryInsert c s block (some x) = carryInsert c s block none := by
  rw [carryInsert_eq, carryInsert_eq, anchor_awaiting_of_gone block hself hgone,
    predecessor?_of_unknown s hbefore, anchor]

theorem carryMove_of_unknown (id : BlockId) (hself : resolve s x = x)
    (hgone : x ∉ s.working.map (·.id)) (hbefore : x ∉ c.before.map (·.id)) :
    carryMove c s id (some x) = carryMove c s id none := by
  rw [carryMove, carryMove, anchor_of_gone hself hgone, predecessor?_of_unknown s hbefore]
  rfl

/-- A move of a block behind itself is carried over as one to the first place. -/
theorem carry_move_behind_itself (c : Setting) (s : State) (id : BlockId) :
    carry c s (.move id (some id)) = carry c s (.move id none) := by
  rw [carry, carry, carryMove, carryMove]
  split
  · rename_i hholds
    have hanchor : anchor c s (some id) = some (resolve s id) := if_pos hholds
    rw [hanchor, Option.filter_some, if_neg (by simp)]
    rfl
  · rfl
  · rfl

end Rebase

namespace PatchOp

/-- The block behind which a change puts its own one, if it names one. -/
def place? : PatchOp → Option BlockId
  | .insert _ after => after
  | .move _ after => after
  | _ => none

/-- The change with the first place in the stead of the one that it names. -/
def toFront : PatchOp → PatchOp
  | .insert block _ => .insert block none
  | .move id _ => .move id none
  | op => op

theorem apply_of_unknown_target {op : PatchOp} {blocks : List Block}
    (hop : ∀ b place, op ≠ .insert b place) (hgone : op.target ∉ blocks.map (·.id)) :
    op.apply blocks = .error (.unknownBlock op.target) := by
  cases op with
  | insert b place => exact absurd rfl (hop b place)
  | delete id =>
    change id ∉ _ at hgone
    simp only [apply, Block.takeOut_eq_none hgone, target]
  | replace id content =>
    change id ∉ _ at hgone
    simp only [apply, Block.setContent_eq_none hgone, target]
  | move id place =>
    change id ∉ _ at hgone
    simp only [apply, Block.takeOut_eq_none hgone, target]

/-- No change is made behind a block that is not there. -/
theorem exists_error_of_unknown_place {op : PatchOp} {blocks : List Block} {x : BlockId}
    (hplace : op.place? = some x) (hgone : x ∉ blocks.map (·.id)) :
    ∃ e, op.apply blocks = .error e := by
  cases op with
  | insert b place =>
    obtain rfl : place = some x := hplace
    simp only [apply, Block.place_eq_none hgone]
    split
    · exact ⟨_, rfl⟩
    · exact ⟨_, rfl⟩
  | delete id => cases hplace
  | replace id content => cases hplace
  | move id place =>
    obtain rfl : place = some x := hplace
    simp only [apply]
    split
    · exact ⟨_, rfl⟩
    · rename_i b rest htake
      have hrest : x ∉ rest.map (·.id) := fun hmem => hgone
        (((Block.perm_of_takeOut htake).2.map (·.id)).mem_iff.2 (List.mem_cons_of_mem _ hmem))
      rw [Block.place_eq_none hrest]
      exact ⟨_, rfl⟩

/-- No block is moved behind itself. -/
theorem exists_error_of_move_behind_itself {blocks : List Block}
    (hnodup : (blocks.map (·.id)).Nodup) (id : BlockId) :
    ∃ e, (move id (some id)).apply blocks = .error e := by
  simp only [apply]
  split
  · exact ⟨_, rfl⟩
  · rename_i b rest htake
    obtain ⟨rfl, hperm⟩ := Block.perm_of_takeOut htake
    have hrest := (List.nodup_cons.1 ((hperm.map (·.id)).nodup_iff.1 hnodup)).1
    rw [Block.place_eq_none hrest]
    exact ⟨_, rfl⟩

end PatchOp

theorem Document.apply_singleton_of_error {d : Document} {op : PatchOp} {e : PatchError}
    (h : op.apply d.blocks = .error e) : d.apply ⟨d.revision, [op]⟩ = .error e := by
  simp only [apply, ne_eq, not_true_eq_false, if_false, applyOps, h]

namespace Patch

/-- Whether nothing is known of a name where some changes have been carried over an earlier patch:
    there was no block of this name when that patch was made nor is there one behind it, the patch
    has not deleted one, and none of the changes has brought one or has been given the name. -/
structure IsUnknown (x : BlockId) (done : List PatchOp) (earlier : Patch)
    (before current : Document) (policy : ConflictPolicy) : Prop where
  not_before : x ∉ before.blocks.map (·.id)
  not_current : x ∉ current.blocks.map (·.id)
  not_deleted : .delete x ∉ earlier.ops
  not_inserted : x ∉ insertedIds done
  not_minted : ∀ s, carried done earlier before current policy = .ok s →
    ∀ r ∈ s.renamed, r.2 ≠ x

variable {later earlier : Patch} {before current : Document} {policy : ConflictPolicy}
  {done rest : List PatchOp} {op : PatchOp} {s : Rebase.State} {x : BlockId}

theorem IsUnknown.resolve_eq (h : IsUnknown x done earlier before current policy)
    (hdone : carried done earlier before current policy = .ok s) :
    Rebase.resolve s x = x ∧ x ∉ s.working.map (·.id) := by
  constructor
  · obtain ⟨hself, -⟩ | ⟨r, hr, rfl, -⟩ := Rebase.resolve_cases s x
    · exact hself
    · obtain hr | hinserted := Rebase.key_of_carryAll hdone hr
      · cases hr
      · exact absurd hinserted h.not_inserted
  · intro hthere
    obtain hcurrent | hinserted | ⟨r, hr, hid⟩ | hdeleted :=
      Rebase.mem_working_of_carryAll hdone hthere
    · exact h.not_current hcurrent
    · exact h.not_inserted hinserted
    · exact h.not_minted s hdone r hr hid
    · exact h.not_deleted hdeleted

/-- A change to a block that nothing is known of is refused. -/
theorem IsUnknown.carry_eq (h : IsUnknown x done earlier before current policy)
    (hdone : carried done earlier before current policy = .ok s)
    (hop : ∀ b place, op ≠ .insert b place) (htarget : op.target = x) :
    Rebase.carry ⟨before.blocks, earlier.ops, policy⟩ s op = .error (.unknownBlock x) := by
  subst htarget
  obtain ⟨hself, hgone⟩ := h.resolve_eq hdone
  have hholds : Rebase.holds s (Rebase.resolve s op.target) = false := by
    rw [hself]
    exact Block.isIn_eq_false_iff.2 hgone
  have htouch : Rebase.touch? ⟨before.blocks, earlier.ops, policy⟩ (Rebase.resolve s op.target) ≠
      some .deleted := by
    rw [hself]
    exact fun hdeleted => h.not_deleted (Rebase.delete_mem_of_touch? hdeleted)
  rw [Rebase.carry_of_gone (Rebase.isMisled_self hop) hholds htouch, hself]

/-- A place behind a block that nothing is known of is taken for the first one. -/
theorem IsUnknown.carry_place (h : IsUnknown x done earlier before current policy)
    (hdone : carried done earlier before current policy = .ok s) (hplace : op.place? = some x) :
    Rebase.carry ⟨before.blocks, earlier.ops, policy⟩ s op =
      Rebase.carry ⟨before.blocks, earlier.ops, policy⟩ s op.toFront := by
  obtain ⟨hself, hgone⟩ := h.resolve_eq hdone
  cases op with
  | insert b place =>
    obtain rfl : place = some x := hplace
    exact Rebase.carryInsert_of_unknown b hself hgone h.not_before
  | move id place =>
    obtain rfl : place = some x := hplace
    exact Rebase.carryMove_of_unknown _ hself hgone h.not_before
  | delete id => rfl
  | replace id content => rfl

/-- The error of a patch with a change to a block that nothing is known of is that of this change,
    or that of an earlier one. -/
theorem IsUnknown.rebase_eq (h : IsUnknown x done earlier before current policy)
    (hearlier : before.apply earlier = .ok current) (hbase : later.base = before.revision)
    (hops : later.ops = done ++ op :: rest) (hop : ∀ b place, op ≠ .insert b place)
    (htarget : op.target = x) :
    ∃ e, later.rebase earlier before current policy = .error e ∧
      (carried done earlier before current policy = .error e ∨ e = .unknownBlock x) := by
  rw [rebase_eq_of_base hearlier hbase, hops]
  cases hdone : carried done earlier before current policy with
  | error e =>
    rw [Rebase.carryAll_append_of_error _ hdone]
    exact ⟨e, rfl, .inl rfl⟩
  | ok s =>
    rw [Rebase.carryAll_append_of_ok _ hdone, Rebase.carryAll, h.carry_eq hdone hop htarget]
    exact ⟨_, rfl, .inr rfl⟩

end Patch

end LiterateSync
