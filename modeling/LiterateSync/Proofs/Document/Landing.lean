import LiterateSync.Proofs.Document.LastContent
import LiterateSync.Proofs.Document.Renaming

namespace LiterateSync

namespace Rebase

variable {c : Setting} {after view next : List Block} {g : IdSource} {s t : State}
  {reused : List BlockId} {done : List PatchOp} {op : PatchOp} {id x : BlockId} {content : String}

/-- A replacement that the earlier patch is not in the way of gives the block its content. -/
theorem gives?_of_carryReplace
    (hfree : c.policy = .laterWins ∨
      id ∈ s.working.map (·.id) ∧ ∀ theirs, touch? c id ≠ some (.replaced theirs))
    (h : carryReplace c s id content = .ok t) :
    ∃ e, t.ops = s.ops ++ [e] ∧ e.gives? id = some (some content) := by
  obtain hpolicy | ⟨hheld, hother⟩ := hfree
  · obtain ⟨-, -, ⟨-, hops, -⟩ | ⟨kind, a, -, -, hops⟩⟩ := carryReplace_spec hpolicy h
    · exact ⟨_, hops, if_pos rfl⟩
    · exact ⟨_, hops, if_pos rfl⟩
  · rw [carryReplace, show holds s id = true from Block.isIn_iff.2 hheld] at h
    split at h
    · exact absurd ‹_› (hother _)
    · obtain ⟨working, happly, rfl⟩ := exists_apply_of_emit h
      exact ⟨_, rfl, if_pos rfl⟩
    · simp_all
    · simp_all

/-- Only a change that touches a block is in conflict, with a replacement by the earlier patch or,
    where the block is gone, with a deletion. -/
theorem conflicts_carry (h : carry c s op = .ok t) :
    t.conflicts = s.conflicts ∨
      t.conflicts = s.conflicts ++ [resolve s op.target] ∧ touchBy op.target op ≠ none ∧
        ((∃ theirs, touch? c (resolve s op.target) = some (.replaced theirs)) ∨
          touch? c (resolve s op.target) = some .deleted ∧
            resolve s op.target ∉ s.working.map (·.id)) := by
  have hemit : ∀ {r : State} {e : PatchOp}, emit r e = .ok t → t.conflicts = r.conflicts := by
    intro r e heq
    obtain ⟨working, -, rfl⟩ := exists_apply_of_emit heq
    rfl
  cases op with
  | insert b place =>
    obtain ⟨-, -, -, -, hconflicts, -⟩ := carryInsert_spec h
    exact .inl hconflicts
  | delete id =>
    have htouch : touchBy id (.delete id) ≠ none := by simp [touchBy]
    rw [carry, carryDelete] at h
    split at h
    · rename_i hreplaced
      dsimp only at h
      split at h
      · exact .inr ⟨hemit h, htouch, .inl ⟨_, hreplaced⟩⟩
      · cases h
        exact .inr ⟨rfl, htouch, .inl ⟨_, hreplaced⟩⟩
    · exact .inl (hemit h)
    · cases h
      exact .inl rfl
    · cases h
  | replace id content =>
    have htouch : touchBy id (.replace id content) ≠ none := by simp [touchBy]
    rw [carry, carryReplace] at h
    split at h
    · rename_i hreplaced
      split at h
      · exact .inl (hemit h)
      · dsimp only at h
        split at h
        · exact .inr ⟨hemit h, htouch, .inl ⟨_, hreplaced⟩⟩
        · cases h
          exact .inr ⟨rfl, htouch, .inl ⟨_, hreplaced⟩⟩
    · exact .inl (hemit h)
    · rename_i hgone hdeleted
      have hin := Block.isIn_eq_false_iff.1 hgone
      dsimp only at h
      split at h
      · split at h
        · cases h
        · exact .inr ⟨hemit h, htouch, .inr ⟨hdeleted, hin⟩⟩
      · cases h
        exact .inr ⟨rfl, htouch, .inr ⟨hdeleted, hin⟩⟩
    · cases h
  | move id place =>
    obtain ⟨rfl, -⟩ | ⟨-, -, -, -, hconflicts⟩ := carryMove_spec h
    · exact .inl rfl
    · exact .inl hconflicts

/-- What holds between the changes `done` of the later patch and those that they have been carried
    over as. -/
structure Carries (c : Setting) (after : List Block) (done : List PatchOp) (view : List Block)
    (s : State) (reused : List BlockId) : Prop where
  shown : ∀ x content, lastContent? x done = some content → x ∈ view.map (·.id)
  /-- The carried changes leave a block with the same content under the name that it has now. -/
  content : ∀ x content, Unopposed c x → lastContent? x done = some content →
    lastContent? (nameNow s reused x) s.ops = some content
  conflicts : ∀ z ∈ s.conflicts,
    z ∈ c.before.map (·.id) ∧ touch? c z ≠ none ∧ ∃ op ∈ done, touchBy z op ≠ none
  /-- A carried change touches a block that was there already only if the later patch does so. -/
  touches : ∀ z ∈ after.map (·.id), ∀ e ∈ s.ops, touchBy z e ≠ none →
    z ∈ c.before.map (·.id) ∧ ∃ op ∈ done, touchBy z op ≠ none

theorem carries_start (c : Setting) (after : List Block) (g : IdSource) :
    Carries c after [] c.before ⟨after, g, [], [], []⟩ [] where
  shown := nofun
  content := nofun
  conflicts := nofun
  touches _ _ := nofun

namespace Carries

theorem exists_mem_concat {z : BlockId} (op' : PatchOp) (h : ∃ op ∈ done, touchBy z op ≠ none) :
    ∃ op ∈ done ++ [op'], touchBy z op ≠ none := by
  obtain ⟨op, hop, htouch⟩ := h
  exact ⟨op, List.mem_append_left _ hop, htouch⟩

theorem insert (h : Carries c after done view s reused) (hnames : Renames c after view s reused)
    (htracks : Tracks c after g view s reused) {b : Block} {place : Option BlockId}
    (hview : (view.map (·.id)).Nodup) (happly : (PatchOp.insert b place).apply view = .ok next)
    (hcarry : carryInsert c s b place = .ok t) :
    Carries c after (done ++ [.insert b place]) next t
      (if reuses s (.insert b place) then b.id :: reused else reused) := by
  have hids : ∀ x, x ∈ next.map (·.id) ↔ x = b.id ∨ x ∈ view.map (·.id) :=
    PatchOp.mem_ids_of_apply hview happly
  obtain ⟨name, a, hworking, hops, hconflicts, -, hnow⟩ :=
    hnames.carryInsert (PatchOp.perm_of_apply_insert happly).1 hcarry
  constructor
  case shown =>
    intro x content hx
    by_cases hxb : x = b.id
    · exact (hids x).2 (.inl hxb)
    · rw [lastContent?_concat_of_ne done hxb] at hx
      exact (hids x).2 (.inr (h.shown x content hx))
  case content =>
    intro x content hfree hx
    rw [hnow, hops]
    by_cases hxb : x = b.id
    · rw [if_pos hxb, lastContent?_concat]
      simpa [PatchOp.gives?, hxb] using hx
    · rw [lastContent?_concat_of_ne done hxb] at hx
      have hsame := h.content x content hfree hx
      obtain ⟨ids, hreplays⟩ := htracks.replays
      have hne : nameNow s reused x ≠ name := fun heq =>
        (PatchOp.perm_of_apply_insert hworking).1
          (heq ▸ Document.mem_ids_of_lastContent? hreplays hsame)
      rw [if_neg hxb, lastContent?_concat_of_ne _ hne, hsame]
  case conflicts =>
    intro z hz
    rw [hconflicts] at hz
    obtain ⟨hbefore, htouch, hdone⟩ := h.conflicts z hz
    exact ⟨hbefore, htouch, exists_mem_concat _ hdone⟩
  case touches =>
    intro z hz e he htouch
    rw [hops, List.mem_append, List.mem_singleton] at he
    obtain he | rfl := he
    · exact (h.touches z hz e he htouch).imp_right (exists_mem_concat _)
    · exact absurd rfl htouch

/-- A replacement that nothing is in the way of is carried over as a change that gives the block
    its content. -/
theorem exists_gives? (hnames : Renames c after view s reused)
    (htracks : Tracks c after g view s reused)
    (hreplaced : ∀ z theirs, touch? c z = some (.replaced theirs) → z ∈ after.map (·.id))
    (hin : id ∈ view.map (·.id)) (hkept : id ∉ reused) (hfree : Unopposed c id)
    (hcarry : carryReplace c s (resolve s id) content = .ok t) :
    ∃ e, t.ops = s.ops ++ [e] ∧ e.gives? (resolve s id) = some (some content) := by
  refine gives?_of_carryReplace (hfree.imp_right fun hnone => ⟨?_, fun theirs htheirs => ?_⟩) hcarry
  · obtain hheld | ⟨-, hdeleted, hbefore⟩ := htracks.landed id hin hkept
    · exact hheld
    · rw [hnone hbefore] at hdeleted
      cases hdeleted
  · obtain ⟨hself, hbefore⟩ := hnames.own id hin
      (by rw [Renames.nameNow_eq hkept]; exact hreplaced _ theirs htheirs)
    rw [← Renames.nameNow_eq hkept, hself, hnone hbefore] at htheirs
    cases htheirs

section Change

variable (h : Carries c after done view s reused) (hnames : Renames c after view s reused)
  (htracks : Tracks c after g view s reused)
  (hreplaced : ∀ z theirs, touch? c z = some (.replaced theirs) → z ∈ after.map (·.id))
  (hop : ∀ b place, op ≠ .insert b place) (hin : op.target ∈ view.map (·.id))
  (hkept : op.target ∉ reused) (hcarry : carry c s op = .ok t)

include hnames hin hkept in
/-- What is said of a name that was there already is said of the block itself. -/
theorem resolve_eq_of_mem (hafter : resolve s op.target ∈ after.map (·.id)) :
    resolve s op.target = op.target ∧ op.target ∈ c.before.map (·.id) := by
  rw [← Renames.nameNow_eq hkept] at hafter ⊢
  exact hnames.own _ hin hafter

include h hnames hin hkept hcarry

include htracks hreplaced hop in
/-- The content that a change gives the block that it is about is given to that block under the name
    that it has now. -/
theorem content_target (hfree : Unopposed c op.target)
    (hcontent : lastContent? op.target (done ++ [op]) = some content) :
    lastContent? (resolve s op.target) t.ops = some content := by
  cases op with
  | insert b place => exact absurd rfl (hop b place)
  | delete id => simp [PatchOp.gives?, PatchOp.target] at hcontent
  | replace id new =>
    obtain ⟨e, hops, hgives⟩ := exists_gives? hnames htracks hreplaced hin hkept hfree hcarry
    have hnew : new = content := by simpa [PatchOp.gives?, PatchOp.target] using hcontent
    rw [hops, lastContent?_concat]
    simp only [PatchOp.target] at hgives ⊢
    rw [hgives, Option.getD_some, hnew]
  | move id place =>
    have hold := h.content _ content hfree
      (by simpa only [lastContent?_concat, PatchOp.gives?, Option.getD_none] using hcontent)
    rw [Renames.nameNow_eq hkept] at hold
    obtain ⟨rfl, -⟩ | ⟨a, -, hops, -⟩ := carryMove_spec hcarry
    · exact hold
    · rw [hops, lastContent?_concat]
      exact hold

include htracks hreplaced hop in
theorem content_change (hfree : Unopposed c x)
    (hcontent : lastContent? x (done ++ [op]) = some content) :
    lastContent? (nameNow s reused x) t.ops = some content := by
  by_cases hx : x = op.target
  · subst hx
    rw [Renames.nameNow_eq hkept]
    exact h.content_target hnames htracks hreplaced hop hin hkept hcarry hfree hcontent
  · rw [lastContent?_concat_of_ne done hx] at hcontent
    have hold := h.content x content hfree hcontent
    have hne : nameNow s reused x ≠ resolve s op.target := fun heq =>
      hx (hnames.nameNow_injOn htracks (h.shown x content hcontent) hin
        (heq.trans (Renames.nameNow_eq hkept).symm))
    obtain ⟨-, ⟨hops, -⟩ | ⟨e, hstands, hops, -⟩⟩ := carry_at hop hcarry
    · rw [hops, hold]
    · rw [hops, lastContent?_concat_of_ne _ (hstands.target_eq ▸ hne), hold]

include htracks hreplaced in
theorem conflicts_change {z : BlockId} (hz : z ∈ t.conflicts) :
    z ∈ c.before.map (·.id) ∧ touch? c z ≠ none ∧ ∃ op' ∈ done ++ [op], touchBy z op' ≠ none := by
  have hold : z ∈ s.conflicts → z ∈ c.before.map (·.id) ∧ touch? c z ≠ none ∧
      ∃ op' ∈ done ++ [op], touchBy z op' ≠ none := fun hz =>
    have ⟨hbefore, hearlier, hdone⟩ := h.conflicts z hz
    ⟨hbefore, hearlier, exists_mem_concat op hdone⟩
  obtain hsame | ⟨hcons, htouch, hclash⟩ := conflicts_carry hcarry
  · exact hold (hsame ▸ hz)
  · rw [hcons, List.mem_append, List.mem_singleton] at hz
    obtain hz | rfl := hz
    · exact hold hz
    · obtain ⟨hself, hbefore⟩ : resolve s op.target = op.target ∧
          op.target ∈ c.before.map (·.id) := by
        obtain ⟨theirs, htheirs⟩ | ⟨-, hgone⟩ := hclash
        · exact resolve_eq_of_mem hnames hin hkept (hreplaced _ theirs htheirs)
        · obtain hheld | ⟨hself, -, hbefore⟩ := htracks.landed _ hin hkept
          · exact absurd hheld hgone
          · exact ⟨hself, hbefore⟩
      rw [hself] at hclash ⊢
      refine ⟨hbefore, fun hnone => ?_, op, by simp, htouch⟩
      rw [hnone] at hclash
      obtain ⟨theirs, htheirs⟩ | ⟨hdeleted, -⟩ := hclash
      · cases htheirs
      · cases hdeleted

include hop in
theorem touches_change {z : BlockId} (hz : z ∈ after.map (·.id)) {e : PatchOp} (he : e ∈ t.ops)
    (htouch : touchBy z e ≠ none) :
    z ∈ c.before.map (·.id) ∧ ∃ op' ∈ done ++ [op], touchBy z op' ≠ none := by
  have hold : e ∈ s.ops → z ∈ c.before.map (·.id) ∧
      ∃ op' ∈ done ++ [op], touchBy z op' ≠ none :=
    fun he => (h.touches z hz e he htouch).imp_right (exists_mem_concat op)
  obtain ⟨-, ⟨hops, -⟩ | ⟨e', hstands, hops, -⟩⟩ := carry_at hop hcarry
  · exact hold (hops ▸ he)
  · rw [hops, List.mem_append, List.mem_singleton] at he
    obtain he | rfl := he
    · exact hold he
    · obtain rfl : z = resolve s op.target := by
        by_contra hne
        exact htouch (touchBy_of_ne (hstands.target_eq ▸ hne))
      have htouch' := hstands.touches htouch
      obtain ⟨hself, hbefore⟩ := resolve_eq_of_mem hnames hin hkept hz
      rw [hself]
      exact ⟨hbefore, op, by simp, htouch'⟩

include htracks hreplaced hop in
theorem change (hview : (view.map (·.id)).Nodup) (happly : op.apply view = .ok next) :
    Carries c after (done ++ [op]) next t reused := by
  have hnow : nameNow t reused = nameNow s reused := by
    funext x
    rw [nameNow, nameNow, resolve_congr (carry_at hop hcarry).1]
  constructor
  case shown =>
    intro x content hx
    by_cases hxt : x = op.target
    · subst hxt
      refine (PatchOp.mem_or_deletes_of_apply hview happly hin).resolve_right fun hdelete => ?_
      rw [hdelete, lastContent?_concat] at hx
      simp [PatchOp.gives?, PatchOp.target] at hx
    · rw [lastContent?_concat_of_ne done hxt] at hx
      exact (PatchOp.mem_ids_of_apply_of_ne hview happly hxt).2 (h.shown x content hx)
  case content =>
    intro x content hfree hx
    rw [hnow]
    exact h.content_change hnames htracks hreplaced hop hin hkept hcarry hfree hx
  case conflicts => exact fun z => h.conflicts_change hnames htracks hreplaced hin hkept hcarry
  case touches => exact fun z hz e => h.touches_change hnames hop hin hkept hcarry hz

end Change

end Carries

theorem target_mem_of_apply (hop : ∀ b place, op ≠ .insert b place)
    (happly : op.apply view = .ok next) : op.target ∈ view.map (·.id) := by
  cases op with
  | insert b place => exact absurd rfl (hop b place)
  | delete id =>
    obtain ⟨b, rfl, hperm⟩ := PatchOp.perm_of_apply_delete happly
    exact List.mem_map_of_mem (hperm.mem_iff.2 List.mem_cons_self)
  | replace id content => exact (PatchOp.ids_of_apply_replace happly).1
  | move id place => exact (PatchOp.perm_of_apply_move happly).1

/-- One change that is not misled keeps all that holds while changes are carried over. -/
theorem Carries.step (h : Carries c after done view s reused)
    (hnames : Renames c after view s reused) (hgrounds : Grounds c after g)
    (hreplaced : ∀ z theirs, touch? c z = some (.replaced theirs) → z ∈ after.map (·.id))
    (htracks : Tracks c after g view s reused) (hview : (view.map (·.id)).Nodup)
    (happly : op.apply view = .ok next) (hmisled : isMisled reused op = false)
    (hcarry : carry c s op = .ok t)
    (hnext : Tracks c after g next t (if reuses s op then op.target :: reused else reused)) :
    Renames c after next t (if reuses s op then op.target :: reused else reused) ∧
      Carries c after (done ++ [op]) next t
        (if reuses s op then op.target :: reused else reused) := by
  by_cases hop : ∃ b place, op = .insert b place
  · obtain ⟨b, place, rfl⟩ := hop
    exact ⟨hnames.insert hgrounds htracks hview happly hcarry hnext,
      h.insert hnames htracks hview happly hcarry⟩
  · have hother : ∀ b place, op ≠ .insert b place := fun b place heq => hop ⟨b, place, heq⟩
    have hin := target_mem_of_apply hother happly
    have hkept : op.target ∉ reused ∧ reuses s op = false := by
      cases op with
      | insert b place => exact absurd rfl (hother b place)
      | _ => exact ⟨by simpa [isMisled] using hmisled, rfl⟩
    rw [hkept.2, if_neg Bool.false_ne_true]
    exact ⟨hnames.change hgrounds htracks hother hview happly hin hkept.1 hcarry,
      h.change hnames htracks hreplaced hother hin hkept.1 hcarry hview happly⟩

/-- All that holds while changes are carried over holds in the end, if none of them is misled and
    the numbers last. -/
theorem Carries.carryAll {k : IdSource} {ops : List PatchOp} {result : List Block × IdSource}
    (h : Carries c after done view s reused) (hnames : Renames c after view s reused)
    (hgrounds : Grounds c after g)
    (hreplaced : ∀ z theirs, touch? c z = some (.replaced theirs) → z ∈ after.map (·.id))
    (htracks : Tracks c after g view s reused) (hview : k.Covers view)
    (happly : Document.applyOps ops view k = .ok result)
    (hcourse : course c s reused ops = .clear) (hcarry : Rebase.carryAll c s ops = .ok t) :
    ∃ reused', Tracks c after g result.1 t reused' ∧ Renames c after result.1 t reused' ∧
      Carries c after (done ++ ops) result.1 t reused' := by
  induction ops generalizing view k s reused done with
  | nil =>
    cases happly
    cases hcarry
    exact ⟨reused, htracks, hnames, by rwa [List.append_nil]⟩
  | cons op ops ih =>
    obtain ⟨next, hop, hrest⟩ := Document.applyOps_cons_eq_ok_iff.1 happly
    obtain ⟨mid, hfirst, hmore⟩ := carryAll_cons_eq_ok_iff.1 hcarry
    cases hspent : isSpent s op with
    | true => simp [course_cons_of_spent hspent] at hcourse
    | false =>
      cases hmisled : isMisled reused op with
      | true =>
        rw [course_cons_of_misled hspent hmisled] at hcourse
        split at hcourse <;> cases hcourse
      | false =>
        obtain ⟨mid', hfirst', hmid⟩ :=
          htracks.exists_carry hgrounds hview.nodup hop hspent hmisled
        obtain rfl : mid' = mid := Except.ok.inj (hfirst'.symm.trans hfirst)
        rw [course_cons_of_carry hspent hmisled hfirst] at hcourse
        obtain ⟨hnames', hcarries'⟩ :=
          h.step hnames hgrounds hreplaced htracks hview.nodup hop hmisled hfirst hmid
        have hresult := ih hcarries' hnames' hmid (PatchOp.covers_of_apply hview hop) hrest
          hcourse hmore
        rwa [List.append_assoc] at hresult

end Rebase

/-- How what a patch writes to the blocks of `before` stands in the patch that it was carried over
    as, for the blocks of `current`, where `name` gives the blocks their names. -/
structure Patch.Landing (patch carried : Patch) (before current : Document)
    (name : BlockId → BlockId) (unopposed steady : BlockId → Prop) : Prop where
  content : ∀ x content, unopposed x → lastContent? x patch.ops = some content →
    lastContent? (name x) carried.ops = some content
  inj : ∀ x y, unopposed x → unopposed y → (lastContent? x patch.ops).isSome →
    (lastContent? y patch.ops).isSome → name x = name y → x = y
  /-- A block that was there already is written only as itself. -/
  own : ∀ x, unopposed x → (lastContent? x patch.ops).isSome →
    name x ∈ current.blocks.map (·.id) → name x = x ∧ x ∈ before.blocks.map (·.id)
  kept : ∀ x, unopposed x → (lastContent? x patch.ops).isSome → steady x → name x = x

namespace Patch

open Rebase

variable {patch carried later earlier : Patch} {before current next target : Document}
  {policy : ConflictPolicy} {rebased : Rebased} {x : BlockId}

theorem landing_self (patch : Patch) (d : Document) (unopposed steady : BlockId → Prop) :
    patch.Landing patch d d id unopposed steady where
  content _ _ _ h := h
  inj _ _ _ _ _ _ h := h
  own _ _ _ h := ⟨rfl, h⟩
  kept _ _ _ _ := rfl

theorem Landing.mono {name : BlockId → BlockId}
    {unopposed unopposed' steady steady' : BlockId → Prop}
    (h : patch.Landing carried before current name unopposed steady)
    (hunopposed : ∀ x, unopposed' x → unopposed x) (hsteady : ∀ x, steady' x → steady x) :
    patch.Landing carried before current name unopposed' steady' where
  content x content hx := h.content x content (hunopposed x hx)
  inj x y hx hy := h.inj x y (hunopposed x hx) (hunopposed y hy)
  own x hx := h.own x (hunopposed x hx)
  kept x hx hsome hx' := h.kept x (hunopposed x hx) hsome (hsteady x hx')

/-- A patch that has landed is carried over another one. -/
theorem Landing.trans {mid : Patch} {between : Document} {first second : BlockId → BlockId}
    {unopposed₁ unopposed₂ unopposed steady₁ steady₂ steady : BlockId → Prop}
    (h₁ : patch.Landing mid before between first unopposed₁ steady₁)
    (h₂ : mid.Landing carried between current second unopposed₂ steady₂)
    (hunopposed₁ : ∀ x, unopposed x → unopposed₁ x)
    (hunopposed₂ : ∀ x, unopposed x →
      (first x ∈ between.blocks.map (·.id) → first x = x ∧ x ∈ before.blocks.map (·.id)) →
        unopposed₂ (first x))
    (hsteady : ∀ x, steady x → steady₁ x ∧ steady₂ x) :
    patch.Landing carried before current (second ∘ first) unopposed steady := by
  have hmid : ∀ x, unopposed x → (lastContent? x patch.ops).isSome →
      unopposed₂ (first x) ∧ (lastContent? (first x) mid.ops).isSome := by
    intro x hx hsome
    refine ⟨hunopposed₂ x hx (h₁.own x (hunopposed₁ x hx) hsome), ?_⟩
    obtain ⟨content, hcontent⟩ := Option.isSome_iff_exists.1 hsome
    rw [h₁.content x content (hunopposed₁ x hx) hcontent]
    rfl
  constructor
  case content =>
    intro x content hx hcontent
    have hsome := Option.isSome_of_eq_some hcontent
    exact h₂.content _ content (hmid x hx hsome).1
      (h₁.content x content (hunopposed₁ x hx) hcontent)
  case inj =>
    intro x y hx hy hsomex hsomey heq
    obtain ⟨hx₂, hmidx⟩ := hmid x hx hsomex
    obtain ⟨hy₂, hmidy⟩ := hmid y hy hsomey
    exact h₁.inj x y (hunopposed₁ x hx) (hunopposed₁ y hy) hsomex hsomey
      (h₂.inj _ _ hx₂ hy₂ hmidx hmidy heq)
  case own =>
    intro x hx hsome hin
    obtain ⟨hx₂, hmidx⟩ := hmid x hx hsome
    obtain ⟨hself₂, hbetween⟩ := h₂.own _ hx₂ hmidx hin
    obtain ⟨hself₁, hbefore⟩ := h₁.own x (hunopposed₁ x hx) hsome hbetween
    exact ⟨hself₂.trans hself₁, hbefore⟩
  case kept =>
    intro x hx hsome hx'
    obtain ⟨hx₂, hmidx⟩ := hmid x hx hsome
    obtain ⟨hsteady₁, hsteady₂⟩ := hsteady x hx'
    have hself := h₁.kept x (hunopposed₁ x hx) hsome hsteady₁
    rw [hself] at hx₂ hmidx
    exact (congrArg second hself).trans (h₂.kept x hx₂ hmidx hsteady₂)

/-- A patch lands behind another one when none of its changes is misled and the numbers last. What
    it does to a block stands if it wins or the block is new in it, or if the other patch has not
    touched the block. The two are in conflict only about blocks from before that both of them
    touch. -/
theorem exists_landing (hbefore : before.WellNamed)
    (hearlier : before.apply earlier = .ok current) (hlater : before.apply later = .ok target)
    (hcourse : later.course earlier before current policy = .clear)
    (hrebase : later.rebase earlier before current policy = .ok rebased) :
    (∃ name, later.Landing rebased.patch before current name
      (fun x => policy = .laterWins ∨
        (x ∈ before.blocks.map (·.id) → touched earlier.ops x = none))
      (fun x => x ∈ before.blocks.map (·.id) ∧ x ∈ current.blocks.map (·.id))) ∧
    (∀ x ∈ rebased.conflicts, x ∈ before.blocks.map (·.id) ∧ touched earlier.ops x ≠ none ∧
      touched later.ops x ≠ none) ∧
    ∀ x ∈ current.blocks.map (·.id), touched rebased.patch.ops x ≠ none →
      x ∈ before.blocks.map (·.id) ∧ touched later.ops x ≠ none := by
  have hgrounds := grounds_of_apply hbefore hearlier policy
  obtain ⟨-, s, hcarry, rfl⟩ := rebase_eq_ok hrebase
  obtain ⟨-, blocks, ids, hops, -⟩ := Document.apply_eq_ok_iff.1 hlater
  obtain ⟨-, blocks', ids', hops', hcurrent⟩ := Document.apply_eq_ok_iff.1 hearlier
  have hreplaced : ∀ z theirs,
      touch? ⟨before.blocks, earlier.ops, policy⟩ z = some (.replaced theirs) →
        z ∈ current.blocks.map (·.id) := fun z theirs htheirs => by
    rw [hcurrent]
    exact Document.mem_ids_of_lastContent? hops' (lastContent?_of_touched hops' htheirs)
  obtain ⟨reused, htracks, hnames, hcarries⟩ :=
    (carries_start _ current.blocks current.ids).carryAll (renames_start _ _ _) hgrounds hreplaced
      hgrounds.tracks hbefore hops hcourse hcarry
  rw [List.nil_append] at hcarries
  have hshown : ∀ x, (lastContent? x later.ops).isSome → x ∈ blocks.map (·.id) := fun x hsome => by
    obtain ⟨content, hcontent⟩ := Option.isSome_iff_exists.1 hsome
    exact hcarries.shown x content hcontent
  refine ⟨⟨nameNow s reused, hcarries.content,
    fun x y _ _ hx hy => hnames.nameNow_injOn htracks (hshown x hx) (hshown y hy),
    fun x _ hx hin => hnames.own x (hshown x hx) hin,
    fun x hunopposed _ hsteady => hnames.nameNow_self hsteady.1 hsteady.2 hunopposed⟩,
    fun x hx => ?_, fun x hx htouched => ?_⟩
  · obtain ⟨hin, hearlier, hdone⟩ := hcarries.conflicts x hx
    exact ⟨hin, hearlier, touched_ne_none_iff.2 hdone⟩
  · obtain ⟨e, he, htouch⟩ := touched_ne_none_iff.1 htouched
    exact (hcarries.touches x hx e he htouch).imp_right touched_ne_none_iff.2

end Patch

end LiterateSync
