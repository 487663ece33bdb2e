import LiterateSync.Proofs.Document.Emission
import LiterateSync.Proofs.Document.Written

namespace LiterateSync

/-- A change leaves all names but that of its block as they are. -/
theorem PatchOp.mem_ids_of_apply_of_ne {op : PatchOp} {blocks result : List Block} {x : BlockId}
    (hnodup : (blocks.map (·.id)).Nodup) (h : op.apply blocks = .ok result) (hx : x ≠ op.target) :
    x ∈ result.map (·.id) ↔ x ∈ blocks.map (·.id) := by
  rw [mem_ids_of_apply hnodup h]
  cases op with
  | insert b place => simp [show x ≠ b.id from hx]
  | delete id => simp [show x ≠ id from hx]
  | replace id content => exact Iff.rfl
  | move id place => exact Iff.rfl

namespace Rebase

variable {c : Setting} {after view next : List Block} {g : IdSource} {s t : State}
  {reused : List BlockId} {done : List PatchOp} {op : PatchOp} {id x : BlockId} {content : String}

/-- Whether a change stands for one that is made to the same block under the name `name`. -/
structure StandsFor (name : BlockId) (op e : PatchOp) : Prop where
  target_eq : e.target = name
  touches : touchBy name e ≠ none → touchBy op.target op ≠ none
  deletes : e = .delete name → op = .delete op.target

/-- A change to a block is dropped, or carried over as a change to the block under the name that it
    has now. -/
theorem carry_at (hop : ∀ b place, op ≠ .insert b place) (h : carry c s op = .ok t) :
    t.renamed = s.renamed ∧
      (t.ops = s.ops ∧ t.working = s.working ∨
        ∃ e, StandsFor (resolve s op.target) op e ∧ t.ops = s.ops ++ [e] ∧
          e.apply s.working = .ok t.working) := by
  have hemit : ∀ {r : State} {e : PatchOp}, emit r e = .ok t → r.ops = s.ops →
      r.working = s.working → r.renamed = s.renamed → StandsFor (resolve s op.target) op e →
      t.renamed = s.renamed ∧
        (t.ops = s.ops ∧ t.working = s.working ∨
          ∃ e, StandsFor (resolve s op.target) op e ∧ t.ops = s.ops ++ [e] ∧
            e.apply s.working = .ok t.working) := by
    intro r e heq hops hworking hrenamed hstands
    obtain ⟨working, happly, rfl⟩ := exists_apply_of_emit heq
    exact ⟨hrenamed, .inr ⟨e, hstands, by rw [← hops], by rw [← hworking]; exact happly⟩⟩
  cases op with
  | insert b place => exact absurd rfl (hop b place)
  | delete id =>
    have hstands : StandsFor (resolve s id) (.delete id) (.delete (resolve s id)) :=
      ⟨rfl, fun _ => by simp [touchBy, PatchOp.target], fun _ => rfl⟩
    rw [carry, carryDelete] at h
    split at h
    · dsimp only at h
      split at h
      · exact hemit h rfl rfl rfl hstands
      · cases h
        exact ⟨rfl, .inl ⟨rfl, rfl⟩⟩
    · exact hemit h rfl rfl rfl hstands
    · cases h
      exact ⟨rfl, .inl ⟨rfl, rfl⟩⟩
    · cases h
  | replace id content =>
    have hstands : ∀ {e : PatchOp}, e.target = resolve s id → (∀ y, e ≠ .delete y) →
        StandsFor (resolve s id) (.replace id content) e := fun htarget hne =>
      ⟨htarget, fun _ => by simp [touchBy, PatchOp.target], fun heq => absurd heq (hne _)⟩
    rw [carry, carryReplace] at h
    split at h
    · split at h
      · exact hemit h rfl rfl rfl (hstands rfl (by simp))
      · dsimp only at h
        split at h
        · exact hemit h rfl rfl rfl (hstands rfl (by simp))
        · cases h
          exact ⟨rfl, .inl ⟨rfl, rfl⟩⟩
    · exact hemit h rfl rfl rfl (hstands rfl (by simp))
    · dsimp only at h
      split at h
      · split at h
        · cases h
        · rename_i hrestore
          obtain ⟨b, a, rfl, hid⟩ := restore_eq_ok hrestore
          exact hemit h rfl rfl rfl (hstands hid (by simp))
      · cases h
        exact ⟨rfl, .inl ⟨rfl, rfl⟩⟩
    · cases h
  | move id place =>
    obtain ⟨rfl, -⟩ | ⟨a, happly, hops, hrenamed, -⟩ := carryMove_spec h
    · exact ⟨rfl, .inl ⟨rfl, rfl⟩⟩
    · exact ⟨hrenamed, .inr ⟨.move (resolve s id) a,
        ⟨rfl, fun htouch => absurd rfl htouch, by simp⟩, hops, happly⟩⟩

/-- A deletion that the earlier patch is not in the way of is made. -/
theorem apply_of_carryDelete (hfree : c.policy = .laterWins ∨ touch? c id = none)
    (hheld : id ∈ s.working.map (·.id)) (h : carryDelete c s id = .ok t) :
    (PatchOp.delete id).apply s.working = .ok t.working := by
  obtain hpolicy | hnone := hfree
  · obtain ⟨rfl, hgone⟩ | ⟨happly, -⟩ := carryDelete_spec hpolicy h
    · exact absurd hheld hgone
    · exact happly
  · rw [carryDelete, hnone, show holds s id = true from Block.isIn_iff.2 hheld] at h
    obtain ⟨working, happly, rfl⟩ := exists_apply_of_emit h
    exact happly

/-- The name that a block in view has now, which is its own one if this name was reused. -/
def nameNow (s : State) (reused : List BlockId) (x : BlockId) : BlockId :=
  if x ∈ reused then x else resolve s x

/-- Whether the earlier patch is not in the way of what the later one does to a block: the later one
    wins, or the block is new or has not been touched. -/
def Unopposed (c : Setting) (x : BlockId) : Prop :=
  c.policy = .laterWins ∨ (x ∈ c.before.map (·.id) → touch? c x = none)

/-- What holds of the names of the blocks in view, besides that the blocks are kept track of. -/
structure Renames (c : Setting) (after view : List Block) (s : State) (reused : List BlockId) :
    Prop where
  reused_mem : ∀ x ∈ reused, x ∈ view.map (·.id) ∧ x ∈ s.working.map (·.id)
  reused_apart : ∀ x ∈ reused, ∀ y ∈ view.map (·.id), y ∉ reused → resolve s y ≠ x
  /-- A block that has the name of a block which was there already is that block, and was there
      before the earlier patch. -/
  own : ∀ y ∈ view.map (·.id), nameNow s reused y ∈ after.map (·.id) →
    nameNow s reused y = y ∧ y ∈ c.before.map (·.id)
  /-- The blocks that the earlier patch has brought stay. -/
  brought : ∀ z ∈ after.map (·.id), z ∉ c.before.map (·.id) → z ∈ s.working.map (·.id)
  /-- A block that was there all the time has its own name. -/
  kept : ∀ x ∈ c.before.map (·.id), x ∈ after.map (·.id) → Unopposed c x →
    (∀ e ∈ s.renamed, e.1 ≠ x) ∧ (x ∈ view.map (·.id) ↔ x ∈ s.working.map (·.id))

theorem renames_start (c : Setting) (after : List Block) (g : IdSource) :
    Renames c after c.before ⟨after, g, [], [], []⟩ [] where
  reused_mem := nofun
  reused_apart := nofun
  own _ hy _ := ⟨rfl, hy⟩
  brought _ hz _ := hz
  kept _ hbefore hafter _ := ⟨nofun, iff_of_true hbefore hafter⟩

theorem Tracks.name_not_mem_after (hgrounds : Grounds c after g)
    (h : Tracks c after g view s reused) {e : BlockId × BlockId} (he : e ∈ s.renamed) :
    e.2 ∉ after.map (·.id) := by
  obtain ⟨n, hlt, hmax, hname⟩ := h.fresh e he
  exact hname ▸ hgrounds.covers.name_not_mem hlt hmax

/-- Where a block was there all the time, a change is looked for under its name only if it is about
    that block. -/
theorem Tracks.eq_of_resolve_eq (hgrounds : Grounds c after g)
    (h : Tracks c after g view s reused) (hx : x ∈ after.map (·.id)) (hid : resolve s id = x) :
    id = x := by
  obtain ⟨hself, -⟩ | ⟨e, he, -, heq⟩ := resolve_cases s id
  · exact hself.symm.trans hid
  · rw [← hid, heq] at hx
    exact absurd hx (h.name_not_mem_after hgrounds he)

namespace Renames

theorem nameNow_eq (hkept : id ∉ reused) : nameNow s reused id = resolve s id := if_neg hkept

/-- No two blocks in view have the same name now. -/
theorem nameNow_injOn (h : Renames c after view s reused) (htracks : Tracks c after g view s reused)
    {y : BlockId} (hx : x ∈ view.map (·.id)) (hy : y ∈ view.map (·.id))
    (heq : nameNow s reused x = nameNow s reused y) : x = y := by
  rw [nameNow, nameNow] at heq
  split at heq <;> split at heq
  · exact heq
  · exact absurd heq.symm (h.reused_apart x ‹_› y hy ‹_›)
  · exact absurd heq (h.reused_apart y ‹_› x hx ‹_›)
  · exact htracks.apart x hx ‹_› y hy ‹_› heq

/-- A block that was there all the time is looked for under its own name. -/
theorem resolve_self (h : Renames c after view s reused) (hbefore : x ∈ c.before.map (·.id))
    (hafter : x ∈ after.map (·.id)) (hunopposed : Unopposed c x) : resolve s x = x := by
  obtain ⟨hself, -⟩ | ⟨e, he, hid, -⟩ := resolve_cases s x
  · exact hself
  · exact absurd hid ((h.kept x hbefore hafter hunopposed).1 e he)

theorem nameNow_self (h : Renames c after view s reused) (hbefore : x ∈ c.before.map (·.id))
    (hafter : x ∈ after.map (·.id)) (hunopposed : Unopposed c x) : nameNow s reused x = x := by
  rw [nameNow, h.resolve_self hbefore hafter hunopposed, ite_self]

/-- A block that is inserted has the name that it is inserted under, and the others have the names
    that they had. -/
theorem carryInsert (h : Renames c after view s reused) {b : Block} {place : Option BlockId}
    (hnew : b.id ∉ view.map (·.id)) (hcarry : carryInsert c s b place = .ok t) :
    ∃ name a, (PatchOp.insert { b with id := name } a).apply s.working = .ok t.working ∧
      t.ops = s.ops ++ [.insert { b with id := name } a] ∧ t.conflicts = s.conflicts ∧
      (name = b.id ∧ t.renamed = s.renamed ∨
        b.id ∈ s.working.map (·.id) ∧ t.renamed = (b.id, name) :: s.renamed) ∧
      ∀ x, nameNow t (if reuses s (.insert b place) then b.id :: reused else reused) x =
        if x = b.id then name else nameNow s reused x := by
  obtain ⟨name, a, happly, hops, hconflicts, hname⟩ := carryInsert_spec hcarry
  refine ⟨name, a, happly, hops, hconflicts, hname, fun x => ?_⟩
  have hkept : b.id ∉ reused := fun hmem => hnew (h.reused_mem _ hmem).1
  obtain ⟨rfl, hsame⟩ | ⟨hheld, hcons⟩ := hname
  · have hfree : holds s b.id = false :=
      Block.isIn_eq_false_iff.2 (PatchOp.perm_of_apply_insert happly).1
    by_cases hx : x = b.id
    · subst hx
      rw [if_pos rfl, nameNow]
      split
      · exact if_pos List.mem_cons_self
      · rename_i hnot
        rw [resolve_congr hsame]
        obtain ⟨hself, -⟩ | ⟨e, he, hid, -⟩ := resolve_cases s b.id
        · exact hself
        · exact absurd (by simpa [reuses, hfree] using ⟨e.2, hid ▸ he⟩) hnot
    · rw [if_neg hx, nameNow, nameNow, resolve_congr hsame]
      have hmem : x ∈ (if reuses s (.insert b place) then b.id :: reused else reused) ↔
          x ∈ reused := by
        split <;> simp [hx]
      simp only [hmem]
  · have hreuses : reuses s (.insert b place) = false := by
      simp [reuses, show holds s b.id = true from Block.isIn_iff.2 hheld]
    rw [hreuses, if_neg Bool.false_ne_true, nameNow, nameNow, resolve_of_renamed_cons hcons]
    by_cases hx : x = b.id
    · rw [if_pos hx, if_pos hx, if_neg (hx ▸ hkept)]
    · rw [if_neg hx, if_neg hx]

/-- An insertion keeps what holds of the names. -/
theorem insert (h : Renames c after view s reused) (hgrounds : Grounds c after g)
    (htracks : Tracks c after g view s reused) {b : Block} {place : Option BlockId}
    (hview : (view.map (·.id)).Nodup) (happly : (PatchOp.insert b place).apply view = .ok next)
    (hcarry : Rebase.carryInsert c s b place = .ok t)
    (hnext : Tracks c after g next t
      (if reuses s (.insert b place) then b.id :: reused else reused)) :
    Renames c after next t (if reuses s (.insert b place) then b.id :: reused else reused) := by
  have hnew := (PatchOp.perm_of_apply_insert happly).1
  have hids : ∀ x, x ∈ next.map (·.id) ↔ x = b.id ∨ x ∈ view.map (·.id) :=
    PatchOp.mem_ids_of_apply hview happly
  obtain ⟨name, a, hworking, -, -, hname, hnow⟩ := h.carryInsert hnew hcarry
  have hfree : name ∉ s.working.map (·.id) := (PatchOp.perm_of_apply_insert hworking).1
  have hmem : ∀ z, z ∈ t.working.map (·.id) ↔ z = name ∨ z ∈ s.working.map (·.id) :=
    PatchOp.mem_ids_of_apply htracks.covers.nodup hworking
  have hold : ∀ x, x ≠ b.id →
      (x ∈ (if reuses s (.insert b place) then b.id :: reused else reused) ↔ x ∈ reused) :=
    fun x hx => by split <;> simp [hx]
  generalize (if reuses s (.insert b place) then b.id :: reused else reused) = reused' at *
  have hreused : ∀ x ∈ reused', nameNow t reused' x = x := fun x hx => if_pos hx
  constructor
  case reused_mem =>
    intro x hx
    by_cases hxb : x = b.id
    · have hself := hreused x hx
      rw [hnow, if_pos hxb] at hself
      exact ⟨(hids x).2 (.inl hxb), (hmem x).2 (.inl hself.symm)⟩
    · obtain ⟨hin, hthere⟩ := h.reused_mem x ((hold x hxb).1 hx)
      exact ⟨(hids x).2 (.inr hin), (hmem x).2 (.inr hthere)⟩
  case reused_apart =>
    intro x hx y hy hyr heq
    have hnowx := hreused x hx
    have hnowy : nameNow t reused' y = x := (nameNow_eq hyr).trans heq
    rw [hnow] at hnowx hnowy
    by_cases hyb : y = b.id <;> by_cases hxb : x = b.id
    · exact hyr (hyb.trans hxb.symm ▸ hx)
    · rw [if_pos hyb] at hnowy
      exact hfree (hnowy ▸ (h.reused_mem x ((hold x hxb).1 hx)).2)
    · -- no other block in view has the new name
      rw [if_pos hxb] at hnowx
      have hyold := (hids y).1 hy |>.resolve_left hyb
      have hykept := mt (hold y hyb).2 hyr
      rw [if_neg hyb, nameNow_eq hykept] at hnowy
      obtain hin | ⟨hself, -⟩ := htracks.landed y hyold hykept
      · exact hfree (hnowx ▸ hnowy ▸ hin)
      · exact hyb (hself.symm.trans (hnowy.trans hxb))
    · rw [if_neg hyb, nameNow_eq (mt (hold y hyb).2 hyr)] at hnowy
      exact h.reused_apart x ((hold x hxb).1 hx) y ((hids y).1 hy |>.resolve_left hyb)
        (mt (hold y hyb).2 hyr) hnowy
  case own =>
    intro y hy hafter
    rw [hnow] at hafter ⊢
    by_cases hyb : y = b.id
    · rw [if_pos hyb] at hafter ⊢
      obtain ⟨hself, -⟩ | ⟨-, hcons⟩ := hname
      · refine ⟨hself.trans hyb.symm, ?_⟩
        by_contra hbefore
        exact hfree (h.brought name hafter (hself.trans hyb.symm ▸ hbefore))
      · exact absurd hafter
          (hnext.name_not_mem_after hgrounds (e := (b.id, name)) (hcons ▸ List.mem_cons_self))
    · rw [if_neg hyb] at hafter ⊢
      exact h.own y ((hids y).1 hy |>.resolve_left hyb) hafter
  case brought =>
    intro z hz hzb
    exact (hmem z).2 (.inr (h.brought z hz hzb))
  case kept =>
    intro x hbefore hafter hunopposed
    obtain ⟨hkeys, hiff⟩ := h.kept x hbefore hafter hunopposed
    rw [hids, hmem, hiff]
    obtain ⟨rfl, hsame⟩ | ⟨hheld, hcons⟩ := hname
    · exact ⟨hsame ▸ hkeys, Iff.rfl⟩
    · have hxb : b.id ≠ x := fun heq => hnew (heq ▸ hiff.2 (heq ▸ hheld))
      have hxname : x ≠ name := fun heq => hnext.name_not_mem_after hgrounds (e := (b.id, name))
        (hcons ▸ List.mem_cons_self) (heq ▸ hafter)
      rw [hcons]
      exact ⟨List.forall_mem_cons.2 ⟨hxb, hkeys⟩, by simp [hxb.symm, hxname]⟩

/-- A change to a block keeps what holds of the names. -/
theorem change (h : Renames c after view s reused) (hgrounds : Grounds c after g)
    (htracks : Tracks c after g view s reused) (hop : ∀ b place, op ≠ .insert b place)
    (hview : (view.map (·.id)).Nodup) (happly : op.apply view = .ok next)
    (hin : op.target ∈ view.map (·.id)) (hkept : op.target ∉ reused)
    (hcarry : carry c s op = .ok t) : Renames c after next t reused := by
  have hsubset : ∀ x ∈ next.map (·.id), x ∈ view.map (·.id) := by
    intro x hx
    have hids := (PatchOp.mem_ids_of_apply hview happly x).1 hx
    cases op with
    | insert b place => exact absurd rfl (hop b place)
    | delete id => exact hids.1
    | replace id content => exact hids
    | move id place => exact hids
  obtain ⟨hsame, hcase⟩ := carry_at hop hcarry
  have hworking : ∀ z, z ≠ resolve s op.target →
      (z ∈ t.working.map (·.id) ↔ z ∈ s.working.map (·.id)) := by
    intro z hz
    obtain ⟨-, heq⟩ | ⟨e, hstands, -, heq⟩ := hcase
    · rw [heq]
    · exact PatchOp.mem_ids_of_apply_of_ne htracks.covers.nodup heq (hstands.target_eq ▸ hz)
  have hnow : nameNow t reused = nameNow s reused := by
    funext x
    rw [nameNow, nameNow, resolve_congr hsame]
  have htarget : nameNow s reused op.target = resolve s op.target := nameNow_eq hkept
  constructor
  case reused_mem =>
    intro x hx
    obtain ⟨hxin, hthere⟩ := h.reused_mem x hx
    have hne : x ≠ op.target := fun heq => hkept (heq ▸ hx)
    exact ⟨(PatchOp.mem_ids_of_apply_of_ne hview happly hne).2 hxin,
      (hworking x (h.reused_apart x hx _ hin hkept).symm).2 hthere⟩
  case reused_apart =>
    intro x hx y hy hyr
    rw [resolve_congr hsame]
    exact h.reused_apart x hx y (hsubset y hy) hyr
  case own =>
    intro y hy hafter
    rw [hnow] at hafter ⊢
    exact h.own y (hsubset y hy) hafter
  case brought =>
    intro z hz hzb
    refine (hworking z fun heq => hzb ?_).2 (h.brought z hz hzb)
    obtain ⟨hself, hold⟩ := h.own _ hin (htarget ▸ heq ▸ hz)
    rw [heq, ← htarget, hself]
    exact hold
  case kept =>
    intro x hbefore hafter hunopposed
    obtain ⟨hkeys, hiff⟩ := h.kept x hbefore hafter hunopposed
    refine ⟨hsame ▸ hkeys, ?_⟩
    by_cases hx : x = op.target
    · subst hx
      have hself := h.resolve_self hbefore hafter hunopposed
      by_cases hdelete : op = .delete op.target
      · have hgone : op.target ∉ next.map (·.id) := by
          rw [hdelete] at happly
          exact fun hmem => ((PatchOp.mem_ids_of_apply hview happly _).1 hmem).2 rfl
        rw [hdelete, carry, hself] at hcarry
        have hdeleted := apply_of_carryDelete (hunopposed.imp_right fun hnone => hnone hbefore)
          (hiff.1 hin) hcarry
        refine iff_of_false hgone fun hmem => ?_
        exact ((PatchOp.mem_ids_of_apply htracks.covers.nodup hdeleted _).1 hmem).2 rfl
      · refine iff_of_true
          ((PatchOp.mem_or_deletes_of_apply hview happly hin).resolve_right hdelete) ?_
        obtain ⟨-, heq⟩ | ⟨e, hstands, -, heq⟩ := hcase
        · exact heq ▸ hiff.1 hin
        · exact (PatchOp.mem_or_deletes_of_apply htracks.covers.nodup heq
            (hiff.1 hin)).resolve_right fun he => hdelete (hstands.deletes (by rw [he, hself]))
    · rw [PatchOp.mem_ids_of_apply_of_ne hview happly hx, hworking x, hiff]
      exact fun heq => hx (htracks.eq_of_resolve_eq hgrounds hafter heq.symm).symm

end Renames

end Rebase

end LiterateSync
