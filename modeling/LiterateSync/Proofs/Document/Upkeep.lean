import LiterateSync.Proofs.Document.Minting

namespace LiterateSync

/-- The names after a change are those before it, or that of its own block. -/
theorem PatchOp.mem_or_target_of_apply {op : PatchOp} {blocks result : List Block} {x : BlockId}
    (h : op.apply blocks = .ok result) (hx : x ∈ result.map (·.id)) :
    x ∈ blocks.map (·.id) ∨ x = op.target := by
  cases op with
  | insert b place =>
    rw [((perm_of_apply_insert h).2.map (·.id)).mem_iff, List.map_cons, List.mem_cons] at hx
    exact hx.symm
  | delete id =>
    obtain ⟨b, -, hperm⟩ := perm_of_apply_delete h
    exact .inl ((hperm.map (·.id)).mem_iff.2 (List.mem_cons_of_mem _ hx))
  | replace id content => exact .inl ((ids_of_apply_replace h).2 ▸ hx)
  | move id place => exact .inl (((perm_of_apply_move h).2.map (·.id)).mem_iff.1 hx)

namespace Rebase

variable {c : Setting} {after : List Block} {g : IdSource} {s t : State} {op : PatchOp}
  {ops : List PatchOp}

/-- Whether there is a number for each fresh name that is needed on the way. -/
def numbersLast (c : Setting) : State → List PatchOp → Bool
  | _, [] => true
  | s, op :: ops =>
    !isSpent s op &&
      match carry c s op with
      | .error _ => true
      | .ok t => numbersLast c t ops

theorem numbersLast_cons_of_ok (hcarry : carry c s op = .ok t) :
    numbersLast c s (op :: ops) = true ↔ isSpent s op = false ∧ numbersLast c t ops = true := by
  simp [numbersLast, hcarry]

theorem isSpent_of_numbersLast (h : numbersLast c s (op :: ops) = true) : isSpent s op = false := by
  rw [numbersLast, Bool.and_eq_true, Bool.not_eq_true'] at h
  exact h.1

theorem numbersLast_concat_of_ok (hcarry : carryAll c s ops = .ok t)
    (h : numbersLast c s (ops ++ [op]) = true) :
    numbersLast c s ops = true ∧ isSpent t op = false := by
  induction ops generalizing s with
  | nil =>
    cases hcarry
    exact ⟨rfl, isSpent_of_numbersLast h⟩
  | cons first ops ih =>
    obtain ⟨mid, hfirst, hmore⟩ := carryAll_cons_eq_ok_iff.1 hcarry
    obtain ⟨hspent, hrest⟩ := (numbersLast_cons_of_ok hfirst).1 h
    obtain ⟨hlast, hnext⟩ := ih hmore hrest
    exact ⟨(numbersLast_cons_of_ok hfirst).2 ⟨hspent, hlast⟩, hnext⟩

theorem carryAll_append_of_ok (more : List PatchOp) (hcarry : carryAll c s ops = .ok t) :
    carryAll c s (ops ++ more) = carryAll c t more := by
  induction ops generalizing s with
  | nil =>
    cases hcarry
    rfl
  | cons op ops ih =>
    obtain ⟨mid, hfirst, hmore⟩ := carryAll_cons_eq_ok_iff.1 hcarry
    rw [List.cons_append, carryAll, hfirst]
    exact ih hmore

theorem carryAll_append_of_error (more : List PatchOp) {e : PatchError}
    (herror : carryAll c s ops = .error e) : carryAll c s (ops ++ more) = .error e := by
  induction ops generalizing s with
  | nil => cases herror
  | cons op ops ih =>
    rw [carryAll] at herror
    rw [List.cons_append, carryAll]
    split at herror
    · exact herror
    · exact ih herror

/-- What holds of the names at each point of the carrying, whether or not the later patch could be
    applied to the blocks that it was made from. -/
structure WellKept (c : Setting) (g : IdSource) (s : State) : Prop where
  covers : s.ids.Covers s.working
  advances : g.Advances s.ids
  /-- New names are those that the source gives out. -/
  fresh : ∀ r ∈ s.renamed, ∃ n, g.count < n ∧ n ≤ IdSource.maxNumber ∧ r.2 = g.name n
  /-- A block from before whose name has got another meaning is there. -/
  keys : ∀ r ∈ s.renamed, r.1 ∈ c.before.map (·.id) → r.1 ∈ s.working.map (·.id)

theorem Grounds.wellKept (hgrounds : Grounds c after g) :
    WellKept c g ⟨after, g, [], [], []⟩ :=
  ⟨hgrounds.covers, .refl g, nofun, nofun⟩

theorem isMisled_self (hop : ∀ b place, op ≠ .insert b place) : isMisled [op.target] op = true := by
  cases op with
  | insert b place => exact absurd rfl (hop b place)
  | _ => simp [isMisled, PatchOp.target]

/-- A change to a block that is not there is carried over only if the earlier patch deleted the
    block. -/
theorem touch?_of_carry (hop : ∀ b place, op ≠ .insert b place) (hcarry : carry c s op = .ok t)
    (hgone : resolve s op.target ∉ s.working.map (·.id)) :
    touch? c (resolve s op.target) = some .deleted := by
  by_contra htouch
  rw [carry_of_gone (isMisled_self hop) (Block.isIn_eq_false_iff.2 hgone) htouch] at hcarry
  cases hcarry

namespace WellKept

theorem carryInsert (h : WellKept c g s) {b : Block} {place : Option BlockId}
    (hspent : isSpent s (.insert b place) = false) (hcarry : carryInsert c s b place = .ok t) :
    WellKept c g t := by
  by_cases hheld : b.id ∈ s.working.map (·.id)
  · have hholds : holds s b.id = true := Block.isIn_iff.2 hheld
    have hroom : s.ids.count < IdSource.maxNumber := by simpa [isSpent, hholds] using hspent
    obtain ⟨a, -, heq⟩ := carryInsert_of_holds c place hholds
    obtain ⟨working, happly, rfl⟩ := exists_apply_of_emit (heq.symm.trans hcarry)
    have hcovers := PatchOp.covers_of_apply h.covers happly
    rw [PatchOp.observe, IdSource.observe_fresh hroom] at hcovers
    have hmem := PatchOp.mem_ids_of_apply h.covers.nodup happly
    refine ⟨hcovers, h.advances.trans (IdSource.advances_fresh _),
      List.forall_mem_cons.2 ⟨?_, h.fresh⟩, List.forall_mem_cons.2 ⟨fun _ => ?_, ?_⟩⟩
    · exact ⟨s.ids.count + 1, Nat.lt_succ_of_le h.advances.count_le, hroom, h.advances.name_eq _⟩
    · exact (hmem _).2 (.inr hheld)
    · exact fun r hr hold => (hmem _).2 (.inr (h.keys r hr hold))
  · obtain ⟨a, -, heq⟩ := carryInsert_of_free c place (Block.isIn_eq_false_iff.2 hheld)
    obtain ⟨working, happly, rfl⟩ := exists_apply_of_emit (heq.symm.trans hcarry)
    have hmem := PatchOp.mem_ids_of_apply h.covers.nodup happly
    exact ⟨PatchOp.covers_of_apply h.covers happly,
      h.advances.trans (IdSource.advances_observe _ _), h.fresh,
      fun r hr hold => (hmem _).2 (.inr (h.keys r hr hold))⟩

/-- No change looks for a block from before under a name that has got another meaning. -/
theorem resolve_ne_key (h : WellKept c g s) (hbefore : g.Covers c.before) (id : BlockId)
    {r : BlockId × BlockId} (hr : r ∈ s.renamed) (hold : r.1 ∈ c.before.map (·.id)) :
    resolve s id ≠ r.1 := by
  intro heq
  obtain ⟨hself, hnone⟩ | ⟨e, he, -, hname⟩ := resolve_cases s id
  · exact hnone r hr (heq.symm.trans hself)
  · obtain ⟨n, hlt, hmax, hfresh⟩ := h.fresh e he
    exact hbefore.name_not_mem hlt hmax (hfresh ▸ hname ▸ heq ▸ hold)

theorem change (h : WellKept c g s) (hgrounds : Grounds c after g) (hbefore : g.Covers c.before)
    (hop : ∀ b place, op ≠ .insert b place) (hcarry : carry c s op = .ok t) : WellKept c g t := by
  have hids := ids_of_carry hop hcarry
  obtain ⟨hrenamed, ⟨-, hworking⟩ | ⟨e, hstands, -, happly⟩⟩ := carry_at hop hcarry
  · exact ⟨hids ▸ hworking ▸ h.covers, hids ▸ h.advances, hrenamed ▸ h.fresh,
      hrenamed ▸ hworking ▸ h.keys⟩
  · have hnumber : ∀ b ∈ t.working, ∀ n, s.ids.numberOf? b.id = some n → n ≤ s.ids.count := by
      intro b hb n hn
      by_cases hthere : b.id ∈ s.working.map (·.id)
      · obtain ⟨d, hd, hid⟩ := List.mem_map.1 hthere
        exact h.covers.number_le d hd n (hid ▸ hn)
      · -- The block has been put back after the earlier patch deleted it.
        have htarget : b.id = resolve s op.target :=
          ((PatchOp.mem_or_target_of_apply happly (List.mem_map_of_mem hb)).resolve_left
            hthere).trans hstands.target_eq
        have hdeleted := touch?_of_carry hop hcarry (htarget ▸ hthere)
        rw [h.advances.numberOf?_eq, htarget] at hn
        exact Nat.le_trans (hgrounds.deleted_le _ hdeleted n hn) h.advances.count_le
    refine ⟨hids ▸ ⟨PatchOp.nodup_of_apply h.covers.nodup happly, hnumber⟩, hids ▸ h.advances,
      hrenamed ▸ h.fresh, fun r hr hold => ?_⟩
    rw [hrenamed] at hr
    have hne := h.resolve_ne_key hbefore op.target hr hold
    rw [← hstands.target_eq] at hne
    exact (PatchOp.mem_ids_of_apply_of_ne h.covers.nodup happly hne.symm).2 (h.keys r hr hold)

theorem carry (h : WellKept c g s) (hgrounds : Grounds c after g) (hbefore : g.Covers c.before)
    (hspent : isSpent s op = false) (hcarry : carry c s op = .ok t) : WellKept c g t := by
  cases op with
  | insert b place => exact h.carryInsert hspent hcarry
  | _ => exact h.change hgrounds hbefore (by simp) hcarry

theorem carryAll (h : WellKept c g s) (hgrounds : Grounds c after g) (hbefore : g.Covers c.before)
    (hlast : numbersLast c s ops = true) (hcarry : carryAll c s ops = .ok t) : WellKept c g t := by
  induction ops generalizing s with
  | nil =>
    cases hcarry
    exact h
  | cons op ops ih =>
    obtain ⟨mid, hfirst, hmore⟩ := carryAll_cons_eq_ok_iff.1 hcarry
    obtain ⟨hspent, hrest⟩ := (numbersLast_cons_of_ok hfirst).1 hlast
    exact ih (h.carry hgrounds hbefore hspent hfirst) hrest hmore

/-- A block from before that is not there has kept its name. -/
theorem resolve_of_gone (h : WellKept c g s) {a : BlockId} (hold : a ∈ c.before.map (·.id))
    (hgone : a ∉ s.working.map (·.id)) : resolve s a = a := by
  obtain ⟨hself, -⟩ | ⟨r, hr, hid, -⟩ := resolve_cases s a
  · exact hself
  · exact absurd (hid ▸ h.keys r hr (hid ▸ hold)) hgone

end WellKept

end Rebase

namespace Patch

/-- How far the carrying over an earlier patch has come behind some changes. -/
def carried (done : List PatchOp) (earlier : Patch) (before current : Document)
    (policy : ConflictPolicy) : Except PatchError Rebase.State :=
  Rebase.carryAll ⟨before.blocks, earlier.ops, policy⟩ ⟨current.blocks, current.ids, [], [], []⟩
    done

/-- Whether there is a number for each fresh name that some changes need when they are carried over
    an earlier patch. -/
def numbersLast (ops : List PatchOp) (earlier : Patch) (before current : Document)
    (policy : ConflictPolicy) : Bool :=
  Rebase.numbersLast ⟨before.blocks, earlier.ops, policy⟩
    ⟨current.blocks, current.ids, [], [], []⟩ ops

end Patch

end LiterateSync
