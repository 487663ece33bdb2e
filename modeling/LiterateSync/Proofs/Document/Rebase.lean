import LiterateSync.Proofs.Document.Tracking

namespace LiterateSync.Rebase

variable {c : Setting} {after view next : List Block} {g : IdSource} {s : State}
  {reused : List BlockId}

namespace Tracks

/-- An insertion under a name that is in use is carried over under a fresh one. -/
theorem exists_carryInsert_held (hgrounds : Grounds c after g)
    (h : Tracks c after g view s reused) (hview : (view.map (·.id)).Nodup) {b : Block}
    {place : Option BlockId} (happly : (PatchOp.insert b place).apply view = .ok next)
    (hheld : b.id ∈ s.working.map (·.id)) (hroom : s.ids.count < IdSource.maxNumber) :
    ∃ t, carryInsert c s b place = .ok t ∧ Tracks c after g next t reused := by
  have hnext := PatchOp.mem_ids_of_apply hview happly
  have hlt : g.count < s.ids.count + 1 := Nat.lt_succ_of_le h.advances.count_le
  have hname : s.ids.fresh.1 = g.name (s.ids.count + 1) := h.advances.name_eq _
  have hfree : s.ids.fresh.1 ∉ s.working.map (·.id) :=
    h.covers.name_not_mem (Nat.lt_succ_self _) hroom
  obtain ⟨a, ha, heq⟩ := carryInsert_of_holds c place (Block.isIn_iff.2 hheld)
  obtain ⟨working, hw⟩ := PatchOp.exists_apply_insert (b := { b with id := s.ids.fresh.1 })
    hfree ha
  have hcovers := PatchOp.covers_of_apply h.covers hw
  rw [PatchOp.observe, IdSource.observe_fresh hroom] at hcovers
  rw [heq]
  refine ⟨_, emit_of_apply hw, h.insert b.id s.ids.fresh.1 hcovers (IdSource.advances_fresh _)
    (fun y hy => (hnext y).1 hy) (fun y hy => hy) (fun _ => ?_) (fun y hy => ?_) hfree
    (fun _ => ?_) (PatchOp.mem_ids_of_apply h.covers.nodup hw) (fun e he => ?_) (fun y hy => ?_)
    (h.replays_emit hw)⟩
  · rw [resolve_of_renamed_cons rfl, if_pos rfl]
  · rw [resolve_of_renamed_cons rfl, if_neg hy]
  · rw [hname]
    exact hgrounds.touch?_name_ne hlt hroom
  · rcases List.mem_cons.1 he with rfl | he
    · exact ⟨s.ids.count + 1, hlt, hroom, hname⟩
    · exact h.fresh e he
  · obtain ⟨e, he, heq⟩ := h.entered y hy
    exact ⟨e, List.mem_cons_of_mem _ he, heq⟩

/-- An insertion under a free name is carried over as it is. Track of the block is lost when the
    name has been given a new one before. -/
theorem exists_carryInsert_free (h : Tracks c after g view s reused)
    (hview : (view.map (·.id)).Nodup) {b : Block} {place : Option BlockId}
    (happly : (PatchOp.insert b place).apply view = .ok next)
    (hfree : b.id ∉ s.working.map (·.id)) :
    ∃ t, carryInsert c s b place = .ok t ∧ Tracks c after g next t
      (if s.renamed.any (·.1 = b.id) then b.id :: reused else reused) := by
  have hnew : b.id ∉ view.map (·.id) := (PatchOp.perm_of_apply_insert happly).1
  have hnext := PatchOp.mem_ids_of_apply hview happly
  obtain ⟨a, ha, heq⟩ := carryInsert_of_free c place (Block.isIn_eq_false_iff.2 hfree)
  obtain ⟨working, hw⟩ := PatchOp.exists_apply_insert hfree ha
  rw [heq]
  refine ⟨_, emit_of_apply hw, h.insert b.id b.id (PatchOp.covers_of_apply h.covers hw)
    (IdSource.advances_observe _ _) (fun y hy => (hnext y).1 hy) (fun y hy => ?_)
    (fun hkept => ?_) (fun y _ => congrFun (resolve_congr rfl) y) hfree
    (fun hin => absurd hin hnew) (PatchOp.mem_ids_of_apply h.covers.nodup hw) h.fresh
    (fun y hy => ?_) (h.replays_emit hw)⟩
  · split
    · exact List.mem_cons_of_mem _ hy
    · exact hy
  · obtain ⟨hself, -⟩ | ⟨e, he, hid, -⟩ := resolve_cases s b.id
    · exact hself
    · rw [if_pos (List.any_eq_true.2 ⟨e, he, by simp [hid]⟩)] at hkept
      exact absurd List.mem_cons_self hkept
  · split at hy
    · rename_i hentry
      rcases List.mem_cons.1 hy with rfl | hy
      · obtain ⟨e, he, hid⟩ := List.any_eq_true.1 hentry
        exact ⟨e, he, by simpa using hid⟩
      · exact h.entered y hy
    · exact h.entered y hy

/-- A deletion is carried over or dropped. -/
theorem exists_carryDelete (h : Tracks c after g view s reused) (hview : (view.map (·.id)).Nodup)
    {id : BlockId} (happly : (PatchOp.delete id).apply view = .ok next) (hkept : id ∉ reused) :
    ∃ t, carryDelete c s (resolve s id) = .ok t ∧ Tracks c after g next t reused := by
  obtain ⟨b, rfl, hperm⟩ := PatchOp.perm_of_apply_delete happly
  have hin : b.id ∈ view.map (·.id) := List.mem_map_of_mem (hperm.mem_iff.2 (by simp))
  have hnext := PatchOp.mem_ids_of_apply hview happly
  have hsubset : ∀ x ∈ next.map (·.id), x ∈ view.map (·.id) := fun x hx => ((hnext x).1 hx).1
  by_cases hheld : resolve s b.id ∈ s.working.map (·.id)
  · obtain ⟨conflicts, heq | heq⟩ := carryDelete_of_holds c (Block.isIn_iff.2 hheld)
    · obtain ⟨working, hw⟩ := PatchOp.exists_apply_delete hheld
      have hids := PatchOp.mem_ids_of_apply h.covers.nodup hw
      rw [heq]
      refine ⟨_, emit_of_apply hw, ?_⟩
      refine h.follow (PatchOp.covers_of_apply h.covers hw) rfl rfl hsubset
        (fun x hx hxr hxin => (hids _).2 ⟨hxin, fun hsame => ?_⟩) (h.replays_emit hw)
      exact ((hnext x).1 hx).2 (h.apart x (hsubset x hx) hxr _ hin hkept hsame)
    · exact ⟨_, heq, (h.with_conflicts conflicts).follow h.covers rfl rfl hsubset
        (fun x hx hxr hxin => hxin) h.replays⟩
  · obtain hmem | ⟨hself, hdeleted, -⟩ := h.landed _ hin hkept
    · exact absurd hmem hheld
    · rw [hself] at hheld ⊢
      rw [carryDelete, hdeleted, show holds s b.id = false from Block.isIn_eq_false_iff.2 hheld]
      exact ⟨s, rfl, h.follow h.covers rfl rfl hsubset (fun x hx hxr hxin => hxin) h.replays⟩

/-- A replacement is carried over or dropped, or brings back what the earlier patch deleted. -/
theorem exists_carryReplace (hgrounds : Grounds c after g) (h : Tracks c after g view s reused)
    {id : BlockId} {content : String}
    (happly : (PatchOp.replace id content).apply view = .ok next) (hkept : id ∉ reused) :
    ∃ t, carryReplace c s (resolve s id) content = .ok t ∧ Tracks c after g next t reused := by
  obtain ⟨hin, hids⟩ := PatchOp.ids_of_apply_replace happly
  have hsubset : ∀ x ∈ next.map (·.id), x ∈ view.map (·.id) := fun x hx => hids ▸ hx
  have hconflicts : ∀ conflicts, Tracks c after g next { s with conflicts } reused :=
    fun conflicts => (h.with_conflicts conflicts).follow h.covers rfl rfl hsubset
      (fun x hx hxr hxin => hxin) h.replays
  by_cases hheld : resolve s id ∈ s.working.map (·.id)
  · obtain ⟨conflicts, heq | heq⟩ := carryReplace_of_holds c content (Block.isIn_iff.2 hheld)
    · obtain ⟨working, hw⟩ := PatchOp.exists_apply_replace content hheld
      have hsame := (PatchOp.ids_of_apply_replace hw).2
      rw [heq]
      refine ⟨_, emit_of_apply hw, ?_⟩
      exact h.follow (PatchOp.covers_of_apply h.covers hw) rfl rfl hsubset
        (fun x hx hxr hxin => hsame ▸ hxin) (h.replays_emit hw)
    · exact ⟨_, heq, hconflicts conflicts⟩
  · obtain hmem | ⟨hself, hdeleted, hbefore⟩ := h.landed _ hin hkept
    · exact absurd hmem hheld
    · rw [hself] at hheld ⊢
      obtain ⟨conflicts, heq | ⟨kind, heq⟩⟩ := carryReplace_of_deleted content
        (Block.isIn_eq_false_iff.2 hheld) hdeleted hbefore
      · exact ⟨_, heq, hconflicts conflicts⟩
      · have hplace : ∀ a ∈ predecessor? c s id, a ∈ s.working.map (·.id) :=
          fun a => predecessor?_mem
        obtain ⟨working, hw⟩ := PatchOp.exists_apply_insert (b := ⟨id, kind, content⟩) hheld hplace
        have hmore := PatchOp.mem_ids_of_apply h.covers.nodup hw
        have hcovers := PatchOp.covers_of_apply h.covers hw
        rw [PatchOp.observe, IdSource.observe_eq_self fun n hn => ?_] at hcovers
        · rw [heq]
          exact ⟨_, emit_of_apply hw, h.follow hcovers rfl rfl hsubset
            (fun x hx hxr hxin => (hmore _).2 (.inr hxin)) (h.replays_emit hw)⟩
        · rw [h.advances.numberOf?_eq] at hn
          exact Nat.le_trans (hgrounds.deleted_le id hdeleted n hn) h.advances.count_le

/-- A move is carried over or dropped. -/
theorem exists_carryMove (h : Tracks c after g view s reused) {id : BlockId}
    {place : Option BlockId} (happly : (PatchOp.move id place).apply view = .ok next)
    (hkept : id ∉ reused) :
    ∃ t, carryMove c s (resolve s id) place = .ok t ∧ Tracks c after g next t reused := by
  obtain ⟨hin, hperm⟩ := PatchOp.perm_of_apply_move happly
  have hsubset : ∀ x ∈ next.map (·.id), x ∈ view.map (·.id) :=
    fun x hx => (hperm.map (·.id)).mem_iff.1 hx
  by_cases hheld : resolve s id ∈ s.working.map (·.id)
  · have hplace : ∀ a ∈ (anchor c s place).filter (· ≠ resolve s id),
        a ∈ s.working.map (·.id) ∧ a ≠ resolve s id := by
      intro a ha
      obtain ⟨ha, hne⟩ := Option.mem_filter_iff.1 ha
      exact ⟨anchor_mem ha, by simpa using hne⟩
    obtain ⟨working, hw⟩ := PatchOp.exists_apply_move hheld hplace
    have hids := PatchOp.mem_ids_of_apply h.covers.nodup hw
    rw [carryMove, show holds s (resolve s id) = true from Block.isIn_iff.2 hheld]
    exact ⟨_, emit_of_apply hw, h.follow (PatchOp.covers_of_apply h.covers hw) rfl rfl hsubset
      (fun x hx hxr hxin => (hids _).2 hxin) (h.replays_emit hw)⟩
  · obtain hmem | ⟨hself, hdeleted, -⟩ := h.landed _ hin hkept
    · exact absurd hmem hheld
    · rw [hself] at hheld ⊢
      rw [carryMove, hdeleted, show holds s id = false from Block.isIn_eq_false_iff.2 hheld]
      exact ⟨s, rfl, h.follow h.covers rfl rfl hsubset (fun x hx hxr hxin => hxin) h.replays⟩

/-- A change that is not misled and has a number for its name is carried over, and the blocks
    are kept track of. -/
theorem exists_carry (hgrounds : Grounds c after g) (h : Tracks c after g view s reused)
    (hview : (view.map (·.id)).Nodup) {op : PatchOp} (happly : op.apply view = .ok next)
    (hspent : isSpent s op = false) (hmisled : isMisled reused op = false) :
    ∃ t, carry c s op = .ok t ∧
      Tracks c after g next t (if reuses s op then op.target :: reused else reused) := by
  cases op with
  | insert b place =>
    by_cases hheld : b.id ∈ s.working.map (·.id)
    · have hholds : holds s b.id = true := Block.isIn_iff.2 hheld
      have hroom : s.ids.count < IdSource.maxNumber := by simpa [isSpent, hholds] using hspent
      rw [show reuses s (.insert b place) = false by simp [reuses, hholds]]
      exact h.exists_carryInsert_held hgrounds hview happly hheld hroom
    · have hholds : holds s b.id = false := Block.isIn_eq_false_iff.2 hheld
      rw [show reuses s (.insert b place) = s.renamed.any (·.1 = b.id) by simp [reuses, hholds]]
      exact h.exists_carryInsert_free hview happly hheld
  | delete id =>
    have hkept : id ∉ reused := by simpa [isMisled, PatchOp.target] using hmisled
    exact h.exists_carryDelete hview happly hkept
  | replace id content =>
    have hkept : id ∉ reused := by simpa [isMisled, PatchOp.target] using hmisled
    exact h.exists_carryReplace hgrounds happly hkept
  | move id place =>
    have hkept : id ∉ reused := by simpa [isMisled, PatchOp.target] using hmisled
    exact h.exists_carryMove happly hkept

end Tracks

theorem course_cons_of_carry {op : PatchOp} {ops : List PatchOp} {t : State}
    (hspent : isSpent s op = false) (hmisled : isMisled reused op = false)
    (hcarry : carry c s op = .ok t) :
    course c s reused (op :: ops) =
      course c t (if reuses s op then op.target :: reused else reused) ops := by
  rw [course, if_neg (by simp [hspent]), if_neg (by simp [hmisled]), hcarry]

theorem course_cons_of_misled {op : PatchOp} {ops : List PatchOp}
    (hspent : isSpent s op = false) (hmisled : isMisled reused op = true) :
    course c s reused (op :: ops) =
      if holds s (resolve s op.target) then .crossed else .lost := by
  rw [course, if_neg (by simp [hspent]), if_pos hmisled]

theorem course_cons_of_spent {op : PatchOp} {ops : List PatchOp} (hspent : isSpent s op = true) :
    course c s reused (op :: ops) = .spent := by
  rw [course, if_pos hspent]

/-- All changes are carried over when none is misled and the numbers last. -/
theorem Tracks.exists_carryAll (hgrounds : Grounds c after g) {h : IdSource}
    {ops : List PatchOp} {result : List Block × IdSource}
    (htracks : Tracks c after g view s reused) (hview : h.Covers view)
    (happly : Document.applyOps ops view h = .ok result)
    (hcourse : course c s reused ops = .clear) :
    ∃ t, carryAll c s ops = .ok t ∧
      ∃ ids, Document.applyOps t.ops after g = .ok (t.working, ids) := by
  induction ops generalizing view h s reused with
  | nil => exact ⟨s, rfl, htracks.replays⟩
  | cons op ops ih =>
    obtain ⟨next, hop, hrest⟩ := Document.applyOps_cons_eq_ok_iff.1 happly
    cases hspent : isSpent s op with
    | true => simp [course_cons_of_spent hspent] at hcourse
    | false =>
      cases hmisled : isMisled reused op with
      | true =>
        rw [course_cons_of_misled hspent hmisled] at hcourse
        split at hcourse <;> cases hcourse
      | false =>
        obtain ⟨t, hcarry, ht⟩ := htracks.exists_carry hgrounds hview.nodup hop hspent hmisled
        rw [course_cons_of_carry hspent hmisled hcarry] at hcourse
        rw [carryAll, hcarry]
        exact ih ht (PatchOp.covers_of_apply hview hop) hrest hcourse

/-- A change that looks for its block under a name which no block has is refused. The earlier
    patch cannot have deleted a block of that name, since the name was fresh. -/
theorem Tracks.carryAll_of_lost (hgrounds : Grounds c after g) {h : IdSource}
    {ops : List PatchOp} {result : List Block × IdSource}
    (htracks : Tracks c after g view s reused) (hview : h.Covers view)
    (happly : Document.applyOps ops view h = .ok result)
    (hcourse : course c s reused ops = .lost) :
    ∃ id, carryAll c s ops = .error (.unknownBlock id) := by
  induction ops generalizing view h s reused with
  | nil => cases hcourse
  | cons op ops ih =>
    obtain ⟨next, hop, hrest⟩ := Document.applyOps_cons_eq_ok_iff.1 happly
    cases hspent : isSpent s op with
    | true => simp [course_cons_of_spent hspent] at hcourse
    | false =>
      cases hmisled : isMisled reused op with
      | true =>
        rw [course_cons_of_misled hspent hmisled] at hcourse
        split at hcourse
        · cases hcourse
        · rename_i hgone
          have htarget : isMisled [op.target] op ∧ op.target ∈ reused := by
            cases op <;> simp_all [isMisled, PatchOp.target]
          -- The name in the entry is fresh, so that the earlier patch cannot have deleted it.
          have htouch : touch? c (resolve s op.target) ≠ some .deleted := by
            obtain ⟨e, he, hid⟩ := htracks.entered _ htarget.2
            obtain ⟨-, hnone⟩ | ⟨e', he', -, heq⟩ := resolve_cases s op.target
            · exact absurd hid (hnone e he)
            · obtain ⟨n, hlt, hmax, hname⟩ := htracks.fresh e' he'
              rw [heq, hname]
              exact hgrounds.touch?_name_ne hlt hmax
          rw [carryAll, carry_of_gone htarget.1 (by simpa using hgone) htouch]
          exact ⟨_, rfl⟩
      | false =>
        obtain ⟨t, hcarry, ht⟩ := htracks.exists_carry hgrounds hview.nodup hop hspent hmisled
        rw [course_cons_of_carry hspent hmisled hcarry] at hcourse
        rw [carryAll, hcarry]
        exact ih ht (PatchOp.covers_of_apply hview hop) hrest hcourse

end LiterateSync.Rebase

namespace LiterateSync.Patch

/-- How it goes with the names when a patch is carried over an earlier one. -/
def course (later earlier : Patch) (before current : Document) (policy : ConflictPolicy) :
    Rebase.Course :=
  Rebase.course ⟨before.blocks, earlier.ops, policy⟩ ⟨current.blocks, current.ids, [], [], []⟩ []
    later.ops

variable {later earlier : Patch} {before current target : Document} {policy : ConflictPolicy}

theorem rebase_eq_of_base (hearlier : before.apply earlier = .ok current)
    (hbase : later.base = before.revision) :
    later.rebase earlier before current policy =
      match Rebase.carryAll ⟨before.blocks, earlier.ops, policy⟩
          ⟨current.blocks, current.ids, [], [], []⟩ later.ops with
      | .error e => .error e
      | .ok s => .ok ⟨⟨current.revision, s.ops⟩, s.conflicts⟩ := by
  obtain ⟨hbase', blocks, ids, -, hcurrent⟩ := Document.apply_eq_ok_iff.1 hearlier
  have hrevision : current.revision = before.revision + 1 := by rw [hcurrent]
  rw [rebase, if_neg (fun hne => hne hbase), if_neg (fun hne => hne hbase')]
  exact if_neg fun hne => hne hrevision

theorem rebase_eq (hearlier : before.apply earlier = .ok current)
    (hlater : before.apply later = .ok target) :
    later.rebase earlier before current policy =
      match Rebase.carryAll ⟨before.blocks, earlier.ops, policy⟩
          ⟨current.blocks, current.ids, [], [], []⟩ later.ops with
      | .error e => .error e
      | .ok s => .ok ⟨⟨current.revision, s.ops⟩, s.conflicts⟩ :=
  rebase_eq_of_base hearlier (Document.apply_eq_ok_iff.1 hlater).1

/-- A patch that can be applied before an earlier one can be applied after it once it has been
    carried over, when none of its changes is misled and the numbers last. -/
theorem exists_rebase (hbefore : before.WellNamed)
    (hearlier : before.apply earlier = .ok current) (hlater : before.apply later = .ok target)
    (hcourse : later.course earlier before current policy = .clear) :
    ∃ rebased next, later.rebase earlier before current policy = .ok rebased ∧
      current.apply rebased.patch = .ok next := by
  have hgrounds := Rebase.grounds_of_apply hbefore hearlier policy
  obtain ⟨-, blocks, ids, hops, -⟩ := Document.apply_eq_ok_iff.1 hlater
  obtain ⟨s, hcarry, last, hreplays⟩ :=
    hgrounds.tracks.exists_carryAll hgrounds hbefore hops hcourse
  refine ⟨⟨⟨current.revision, s.ops⟩, s.conflicts⟩,
    { current with blocks := s.working, revision := current.revision + 1, ids := last }, ?_,
    Document.apply_eq_ok_iff.2 ⟨rfl, _, _, hreplays, rfl⟩⟩
  rw [rebase_eq hearlier hlater, hcarry]

theorem rebase_of_lost (hbefore : before.WellNamed)
    (hearlier : before.apply earlier = .ok current) (hlater : before.apply later = .ok target)
    (hcourse : later.course earlier before current policy = .lost) :
    ∃ id, later.rebase earlier before current policy = .error (.unknownBlock id) := by
  have hgrounds := Rebase.grounds_of_apply hbefore hearlier policy
  obtain ⟨-, blocks, ids, hops, -⟩ := Document.apply_eq_ok_iff.1 hlater
  obtain ⟨id, hcarry⟩ := hgrounds.tracks.carryAll_of_lost hgrounds hbefore hops hcourse
  exact ⟨id, by rw [rebase_eq hearlier hlater, hcarry]⟩

end LiterateSync.Patch
