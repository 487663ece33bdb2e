import LiterateSync.Proofs.Document.DiffApply
import LiterateSync.Proofs.Document.Landing
import LiterateSync.Proofs.Document.Numbering
import LiterateSync.Proofs.Document.Taking

namespace LiterateSync

/-! Names that are made up for blocks, and what becomes of them when a patch is carried over
    another one. -/

/-- The names of the blocks that some changes insert. -/
def insertedIds (ops : List PatchOp) : List BlockId :=
  ops.filterMap fun
    | .insert b _ => some b.id
    | _ => none

/-- Whether the first of some changes about a block with a name, if there is one, inserts it. -/
def BringsFirst (x : BlockId) : List PatchOp → Prop
  | [] => True
  | .insert b _ :: ops => b.id = x ∨ BringsFirst x ops
  | op :: ops => op.target ≠ x ∧ BringsFirst x ops

section

variable {x : BlockId} {ops : List PatchOp}

theorem mem_insertedIds_iff :
    x ∈ insertedIds ops ↔ ∃ b place, PatchOp.insert b place ∈ ops ∧ b.id = x := by
  rw [insertedIds, List.mem_filterMap]
  constructor
  · rintro ⟨op, hop, hid⟩
    cases op with
    | insert b place => exact ⟨b, place, hop, Option.some.inj hid⟩
    | _ => cases hid
  · rintro ⟨b, place, hop, rfl⟩
    exact ⟨_, hop, rfl⟩

theorem exists_target_of_mem_insertedIds (h : x ∈ insertedIds ops) : ∃ op ∈ ops, op.target = x := by
  obtain ⟨b, place, hop, hid⟩ := mem_insertedIds_iff.1 h
  exact ⟨_, hop, hid⟩

theorem bringsFirst_cons_of_ne {op : PatchOp} (hne : op.target ≠ x) (h : BringsFirst x ops) :
    BringsFirst x (op :: ops) := by
  cases op with
  | insert b place => exact .inr h
  | _ => exact ⟨hne, h⟩

/-- Changes that are all about other blocks, or insert blocks, do not look for the block before
    it is there. -/
theorem bringsFirst_of_forall
    (h : ∀ op ∈ ops, (∃ b place, op = .insert b place) ∨ op.target ≠ x) : BringsFirst x ops := by
  induction ops with
  | nil => trivial
  | cons op ops ih =>
    obtain ⟨hop, hops⟩ := List.forall_mem_cons.1 h
    by_cases hx : op.target = x
    · obtain ⟨b, place, rfl⟩ := hop.resolve_right (not_not.2 hx)
      exact .inl hx
    · exact bringsFirst_cons_of_ne hx (ih hops)

/-- A block that is not there has to be inserted before it can be changed. -/
theorem bringsFirst_of_applyOps {blocks : List Block} {g : IdSource}
    {result : List Block × IdSource} (hnodup : (blocks.map (·.id)).Nodup)
    (hx : x ∉ blocks.map (·.id)) (happly : Document.applyOps ops blocks g = .ok result) :
    BringsFirst x ops := by
  induction ops generalizing blocks g with
  | nil => trivial
  | cons op ops ih =>
    obtain ⟨next, hop, hrest⟩ := Document.applyOps_cons_eq_ok_iff.1 happly
    by_cases htarget : op.target = x
    · cases op with
      | insert b place => exact .inl htarget
      | _ => exact absurd (htarget ▸ Rebase.target_mem_of_apply (by simp) hop) hx
    · refine bringsFirst_cons_of_ne htarget (ih (PatchOp.nodup_of_apply hnodup hop) ?_ hrest)
      rwa [PatchOp.mem_ids_of_apply_of_ne hnodup hop (Ne.symm htarget)]

end

namespace Pairing

/-- The blocks that are laid out are old ones, or new ones under names that the source gives
    out. -/
theorem of_mem_layOut {old : List Block} {staying : List Nat} {g : IdSource}
    {after : Option BlockId} {rows : List Row} :
    ∀ op ∈ layOut old staying g after rows,
      (∃ b place n, op = .insert b place ∧ g.count < n ∧ b.id = g.name n) ∨
        (∀ b place, op ≠ .insert b place) ∧ op.target ∈ old.map (·.id) := by
  induction rows generalizing g after with
  | nil => simp [layOut]
  | cons row rows ih =>
    obtain ⟨n, b, partner⟩ := row
    intro op hop
    rw [layOut] at hop
    split at hop
    · rename_i a hpartner
      obtain ⟨m, -, hm⟩ := Option.bind_eq_some_iff.1 hpartner
      have ha : a.id ∈ old.map (·.id) := List.mem_map_of_mem (List.mem_of_getElem? hm)
      rcases List.mem_append.1 hop with hop | hop
      · refine .inr ?_
        rw [keep, List.mem_append] at hop
        rcases hop with hop | hop
        · split at hop <;> simp_all [PatchOp.target]
        · split at hop <;> simp_all [PatchOp.target]
      · exact ih op hop
    · rcases List.mem_cons.1 hop with rfl | hop
      · exact .inl ⟨_, _, g.count + 1, rfl, Nat.lt_succ_self _, rfl⟩
      · obtain ⟨c, place, m, rfl, hlt, hname⟩ | hold := ih op hop
        · exact .inl ⟨c, place, m, rfl, Nat.lt_of_succ_lt hlt,
            hname.trans ((IdSource.advances_fresh g).name_eq m)⟩
        · exact .inr hold

end Pairing

namespace Document

variable {old new : Document}

theorem of_mem_diff {op : PatchOp} (hop : op ∈ (old.diff new).ops) :
    (∃ b place n, op = .insert b place ∧ old.ids.count < n ∧ b.id = old.ids.name n) ∨
      (∀ b place, op ≠ .insert b place) ∧ op.target ∈ old.blocks.map (·.id) := by
  rcases List.mem_append.1 hop with hop | hop
  · rw [Pairing.deletions_eq] at hop
    obtain ⟨id, hid, rfl⟩ := List.mem_map.1 hop
    exact .inr ⟨by simp, Pairing.freeIds_subset _ old.blocks id hid⟩
  · exact Pairing.of_mem_layOut op hop

/-- A patch between two documents inserts blocks under names that are still to be given out. -/
theorem exists_name_of_mem_insertedIds_diff {x : BlockId}
    (hx : x ∈ insertedIds (old.diff new).ops) : ∃ n, old.ids.count < n ∧ x = old.ids.name n := by
  obtain ⟨b, place, hop, rfl⟩ := mem_insertedIds_iff.1 hx
  obtain ⟨c, place', n, heq, hlt, hname⟩ | ⟨hne, -⟩ := of_mem_diff hop
  · cases heq
    exact ⟨n, hlt, hname⟩
  · exact absurd rfl (hne b place)

theorem bringsFirst_diff {x : BlockId} (hx : x ∉ old.blocks.map (·.id)) :
    BringsFirst x (old.diff new).ops := by
  refine bringsFirst_of_forall fun op hop => ?_
  obtain ⟨b, place, n, rfl, -⟩ | ⟨-, hmem⟩ := of_mem_diff hop
  · exact .inl ⟨b, place, rfl⟩
  · exact .inr fun heq => hx (heq ▸ hmem)

end Document

namespace Rebase

variable {c : Setting} {s t : State} {op : PatchOp} {ops : List PatchOp} {g : IdSource}
  {x : BlockId}

theorem ids_emit (h : emit s op = .ok t) : t.ids = s.ids := by
  obtain ⟨working, -, rfl⟩ := exists_apply_of_emit h
  rfl

/-- Only insertions take names from the source. -/
theorem ids_of_carry (hop : ∀ b place, op ≠ .insert b place) (h : carry c s op = .ok t) :
    t.ids = s.ids := by
  have hsame : ∀ {r : State} {e : PatchOp}, r.ids = s.ids → emit r e = .ok t → t.ids = s.ids :=
    fun hr he => (ids_emit he).trans hr
  cases op with
  | insert b place => exact absurd rfl (hop b place)
  | delete id =>
    rw [carry, carryDelete] at h
    split at h
    · dsimp only at h
      split at h
      · exact hsame (by rfl) h
      · cases h
        rfl
    · exact hsame rfl h
    · cases h
      rfl
    · cases h
  | replace id content =>
    rw [carry, carryReplace] at h
    split at h
    · split at h
      · exact hsame rfl h
      · dsimp only at h
        split at h
        · exact hsame (by rfl) h
        · cases h
          rfl
    · exact hsame rfl h
    · dsimp only at h
      split at h
      · split at h
        · cases h
        · exact hsame (by rfl) h
      · cases h
        rfl
    · cases h
  | move id place =>
    rw [carry, carryMove] at h
    split at h
    · exact hsame rfl h
    · cases h
      rfl
    · cases h

/-- The new names on record are those that the source `g` gives out. -/
structure Numbered (g : IdSource) (s : State) : Prop where
  advances : g.Advances s.ids
  renamed : ∀ r ∈ s.renamed, ∃ n, g.count < n ∧ r.2 = g.name n

theorem Numbered.carry (h : Numbered g s) (hcarry : carry c s op = .ok t) : Numbered g t := by
  by_cases hop : ∃ b place, op = .insert b place
  · obtain ⟨b, place, rfl⟩ := hop
    cases hholds : holds s b.id with
    | true =>
      obtain ⟨a, -, heq⟩ := carryInsert_of_holds c place hholds
      obtain ⟨working, -, rfl⟩ := exists_apply_of_emit (heq.symm.trans hcarry)
      refine ⟨h.advances.trans (IdSource.advances_fresh _), List.forall_mem_cons.2 ⟨?_, h.renamed⟩⟩
      exact ⟨s.ids.count + 1, Nat.lt_succ_of_le h.advances.count_le, h.advances.name_eq _⟩
    | false =>
      obtain ⟨a, -, heq⟩ := carryInsert_of_free c place hholds
      obtain ⟨working, -, rfl⟩ := exists_apply_of_emit (heq.symm.trans hcarry)
      exact ⟨h.advances.trans (IdSource.advances_observe _ _), h.renamed⟩
  · have hother : ∀ b place, op ≠ .insert b place := fun b place heq => hop ⟨b, place, heq⟩
    have hids := ids_of_carry hother hcarry
    have hrenamed := (carry_at hother hcarry).1
    exact ⟨hids ▸ h.advances, hrenamed ▸ h.renamed⟩

theorem Numbered.carryAll (h : Numbered g s) (hcarry : carryAll c s ops = .ok t) :
    Numbered g t := by
  induction ops generalizing s with
  | nil =>
    cases hcarry
    exact h
  | cons op ops ih =>
    obtain ⟨mid, hfirst, hmore⟩ := carryAll_cons_eq_ok_iff.1 hcarry
    exact ih (h.carry hfirst) hmore

theorem renamed_of_carry (h : carry c s op = .ok t) {r : BlockId × BlockId} (hr : r ∈ s.renamed) :
    r ∈ t.renamed := by
  obtain hsame | ⟨name, -, hcons⟩ := (carry_eq_ok h).2
  · exact hsame ▸ hr
  · exact hcons ▸ List.mem_cons_of_mem _ hr

theorem renamed_of_carryAll (h : carryAll c s ops = .ok t) {r : BlockId × BlockId}
    (hr : r ∈ s.renamed) : r ∈ t.renamed := by
  induction ops generalizing s with
  | nil =>
    cases h
    exact hr
  | cons op ops ih =>
    obtain ⟨mid, hfirst, hmore⟩ := carryAll_cons_eq_ok_iff.1 h
    exact ih hmore (renamed_of_carry hfirst hr)

/-- A carried change is about the block that the change is about, under its own name or under one on
    record. -/
theorem target_of_carry (h : carry c s op = .ok t) {e : PatchOp} (he : e ∈ t.ops) :
    e ∈ s.ops ∨ e.target = op.target ∨ ∃ r ∈ t.renamed, e.target = r.2 := by
  by_cases hop : ∃ b place, op = .insert b place
  · obtain ⟨b, place, rfl⟩ := hop
    obtain ⟨name, a, -, hops, -, hname⟩ := carryInsert_spec h
    rw [hops, List.mem_append, List.mem_singleton] at he
    refine he.imp_right fun he => ?_
    subst he
    obtain ⟨hself, -⟩ | ⟨-, hcons⟩ := hname
    · exact .inl hself
    · exact .inr ⟨(b.id, name), hcons ▸ List.mem_cons_self, rfl⟩
  · have hother : ∀ b place, op ≠ .insert b place := fun b place heq => hop ⟨b, place, heq⟩
    obtain ⟨hrenamed, ⟨hops, -⟩ | ⟨f, hstands, hops, -⟩⟩ := carry_at hother h
    · exact .inl (hops ▸ he)
    · rw [hops, List.mem_append, List.mem_singleton] at he
      refine he.imp_right fun he => ?_
      subst he
      rw [hstands.target_eq, hrenamed]
      obtain ⟨hself, -⟩ | ⟨r, hr, -, hname⟩ := resolve_cases s op.target
      · exact .inl hself
      · exact .inr ⟨r, hr, hname⟩

theorem target_of_carryAll (h : carryAll c s ops = .ok t) {e : PatchOp} (he : e ∈ t.ops) :
    e ∈ s.ops ∨ (∃ op ∈ ops, e.target = op.target) ∨ ∃ r ∈ t.renamed, e.target = r.2 := by
  induction ops generalizing s with
  | nil =>
    cases h
    exact .inl he
  | cons op ops ih =>
    obtain ⟨mid, hfirst, hmore⟩ := carryAll_cons_eq_ok_iff.1 h
    obtain he | ⟨op', hop', htarget⟩ | hnew := ih hmore
    · obtain he | htarget | ⟨r, hr, htarget⟩ := target_of_carry hfirst he
      · exact .inl he
      · exact .inr (.inl ⟨op, List.mem_cons_self, htarget⟩)
      · exact .inr (.inr ⟨r, renamed_of_carryAll hmore hr, htarget⟩)
    · exact .inr (.inl ⟨op', List.mem_cons_of_mem op hop', htarget⟩)
    · exact .inr (.inr hnew)

/-- Whether the changes that are still to be carried over look for a block by its name only after
    they have brought one of that name, which is then known by another name. -/
def LooksAway (x : BlockId) (s : State) (ops : List PatchOp) : Prop :=
  BringsFirst x ops ∨ ∃ r ∈ s.renamed, r.1 = x

namespace Guards

theorem resolve_ne (h : Guards x s) (haway : LooksAway x s (op :: ops))
    (hop : ∀ b place, op ≠ .insert b place) : resolve s op.target ≠ x := by
  intro heq
  obtain rfl := h.eq_of_resolve_eq heq
  obtain hfirst | ⟨r, hr, hid⟩ := haway
  · cases op with
    | insert b place => exact hop b place rfl
    | _ => exact hfirst.1 rfl
  · obtain ⟨-, hnone⟩ | ⟨r', hr', -, hname⟩ := resolve_cases s op.target
    · exact hnone r hr hid
    · exact h.renamed r' hr' (hname.symm.trans heq)

/-- A change that looks away from a block that is there leaves the block alone. -/
theorem carry (h : Guards x s) (haway : LooksAway x s (op :: ops))
    (hcarry : carry c s op = .ok t) :
    Guards x t ∧ LooksAway x t ops ∧ ∀ e ∈ t.ops, e ∈ s.ops ∨ e.target ≠ x := by
  by_cases hop : ∃ b place, op = .insert b place
  · obtain ⟨b, place, rfl⟩ := hop
    obtain ⟨name, a, happly, hops, -, hname⟩ := carryInsert_spec hcarry
    have hne : name ≠ x := by
      rintro rfl
      exact (PatchOp.perm_of_apply_insert happly).1 h.mem
    refine ⟨h.apply happly (by simp) ?_, ?_, fun e he => ?_⟩
    · obtain ⟨-, hsame⟩ | ⟨-, hcons⟩ := hname
      · exact hsame ▸ h.renamed
      · rw [hcons]
        exact List.forall_mem_cons.2 ⟨hne, h.renamed⟩
    · obtain (hid | hfirst) | ⟨r, hr, hid⟩ := haway
      · obtain ⟨hself, -⟩ | ⟨-, hcons⟩ := hname
        · exact absurd (hself.trans hid) hne
        · exact .inr ⟨(b.id, name), hcons ▸ List.mem_cons_self, hid⟩
      · exact .inl hfirst
      · exact .inr ⟨r, renamed_of_carry hcarry hr, hid⟩
    · rw [hops, List.mem_append, List.mem_singleton] at he
      refine he.imp_right fun he => ?_
      rw [he]
      exact hne
  · have hother : ∀ b place, op ≠ .insert b place := fun b place heq => hop ⟨b, place, heq⟩
    have hne := h.resolve_ne haway hother
    have hrest : LooksAway x t ops := by
      obtain hfirst | ⟨r, hr, hid⟩ := haway
      · cases op with
        | insert b place => exact absurd rfl (hother b place)
        | _ => exact .inl hfirst.2
      · exact .inr ⟨r, renamed_of_carry hcarry hr, hid⟩
    obtain ⟨hrenamed, ⟨hops, hworking⟩ | ⟨e, hstands, hops, happly⟩⟩ := carry_at hother hcarry
    · exact ⟨⟨hworking ▸ h.nodup, hworking ▸ h.mem, hrenamed ▸ h.renamed⟩, hrest,
        fun e he => .inl (hops ▸ he)⟩
    · refine ⟨h.apply happly ?_ (hrenamed ▸ h.renamed), hrest, fun f hf => ?_⟩
      · rintro rfl
        exact hne hstands.target_eq.symm
      · rw [hops, List.mem_append, List.mem_singleton] at hf
        refine hf.imp_right fun hf => ?_
        rw [hf, hstands.target_eq]
        exact hne

theorem target_ne (h : Guards x s) (haway : LooksAway x s ops) (hcarry : carryAll c s ops = .ok t)
    (hold : ∀ e ∈ s.ops, e.target ≠ x) : ∀ e ∈ t.ops, e.target ≠ x := by
  induction ops generalizing s with
  | nil =>
    cases hcarry
    exact hold
  | cons op ops ih =>
    obtain ⟨mid, hmid, hmore⟩ := carryAll_cons_eq_ok_iff.1 hcarry
    obtain ⟨hguards, hrest, hops⟩ := h.carry haway hmid
    exact ih hguards hrest hmore fun e he => (hops e he).elim (hold e) id

end Guards

end Rebase

namespace Patch

variable {later earlier : Patch} {before current : Document} {policy : ConflictPolicy}
  {rebased : Rebased} {x : BlockId}

/-- The names that are made up when a patch is carried over another one: those of inserted blocks
    whose own names are in use. -/
def minted (later earlier : Patch) (before current : Document) (policy : ConflictPolicy) :
    List BlockId :=
  match Rebase.carryAll ⟨before.blocks, earlier.ops, policy⟩
      ⟨current.blocks, current.ids, [], [], []⟩ later.ops with
  | .error _ => []
  | .ok s => s.renamed.map (·.2)

theorem exists_name_of_mem_minted (hx : x ∈ later.minted earlier before current policy) :
    ∃ n, current.ids.count < n ∧ x = current.ids.name n := by
  rw [minted] at hx
  split at hx
  · cases hx
  · rename_i s hcarry
    obtain ⟨r, hr, rfl⟩ := List.mem_map.1 hx
    have hstart : Rebase.Numbered current.ids ⟨current.blocks, current.ids, [], [], []⟩ :=
      ⟨.refl _, nofun⟩
    exact (hstart.carryAll hcarry).renamed r hr

/-- A carried patch is about the blocks that the patch is about, and those under names that were
    made up. -/
theorem target_of_rebase (h : later.rebase earlier before current policy = .ok rebased)
    {e : PatchOp} (he : e ∈ rebased.patch.ops) : (∃ op ∈ later.ops, e.target = op.target) ∨
      e.target ∈ later.minted earlier before current policy := by
  obtain ⟨-, s, hcarry, rfl⟩ := rebase_eq_ok h
  obtain he | htarget | ⟨r, hr, htarget⟩ := Rebase.target_of_carryAll hcarry he
  · cases he
  · exact .inl htarget
  · rw [minted, hcarry]
    exact .inr (htarget ▸ List.mem_map_of_mem hr)

/-- A patch that does not look for a block which another patch has brought leaves it alone when it
    is carried over that patch. -/
theorem target_ne_of_rebase (hcurrent : current.WellNamed) (hx : x ∈ current.blocks.map (·.id))
    (hfirst : BringsFirst x later.ops)
    (h : later.rebase earlier before current policy = .ok rebased) :
    ∀ e ∈ rebased.patch.ops, e.target ≠ x := by
  obtain ⟨-, s, hcarry, rfl⟩ := rebase_eq_ok h
  have hguards : Rebase.Guards x ⟨current.blocks, current.ids, [], [], []⟩ :=
    ⟨hcurrent.nodup, hx, nofun⟩
  exact hguards.target_ne (.inl hfirst) hcarry nofun

end Patch

end LiterateSync
