import LiterateSync.Proofs.Document.Emission
import LiterateSync.Proofs.Document.Rebase
import LiterateSync.Proofs.Document.Survivors

namespace LiterateSync

/-- Whether a change revises a block in its place: it deletes it or replaces its content. -/
def PatchOp.revises : PatchOp → Bool
  | .delete _ => true
  | .replace .. => true
  | _ => false

namespace Rebase

/-- What becomes of a block that two patches have touched: the touch of the winner stands, and
    that of the loser where the winner has left the block alone. -/
def settled (policy : ConflictPolicy) (theirs mine : BlockId → Option Touch) (id : BlockId) :
    Option Touch :=
  match policy with
  | .laterWins => (mine id).or (theirs id)
  | .earlierWins => (theirs id).or (mine id)

variable {policy : ConflictPolicy} {theirs mine : BlockId → Option Touch}

theorem settled_none : settled policy theirs (fun _ => none) = theirs := by
  funext x
  cases policy <;> simp [settled]

theorem settled_eq_deleted {id : BlockId} (h : settled policy theirs mine id = some .deleted)
    (hmine : mine id ≠ some .deleted) : theirs id = some .deleted := by
  cases policy with
  | laterWins =>
    obtain hdeleted | ⟨-, hdeleted⟩ := Option.or_eq_some_iff.1 h
    · exact absurd hdeleted hmine
    · exact hdeleted
  | earlierWins =>
    obtain hdeleted | ⟨-, hdeleted⟩ := Option.or_eq_some_iff.1 h
    · exact hdeleted
    · exact absurd hdeleted hmine

/-- One more touch by the later patch settles the block anew, if the later one wins, or if the
    earlier one has left the block alone or done the same to it. -/
theorem settled_update {id : BlockId} {touch : Touch}
    (h : policy = .laterWins ∨ theirs id = none ∨ theirs id = some touch) :
    settled policy theirs (Function.update mine id (some touch)) =
      Function.update (settled policy theirs mine) id (some touch) := by
  funext x
  by_cases hx : x = id
  · subst hx
    cases policy with
    | laterWins => simp [settled]
    | earlierWins =>
      obtain hnone | hsame := h.resolve_left (by decide)
      · simp [settled, hnone]
      · simp [settled, hsame]
  · cases policy <;> simp [settled, hx]

/-- A block that the winner has touched stays as it is. -/
theorem settled_update_of_earlierWins {id : BlockId} (touch : Touch) (h : theirs id ≠ none) :
    settled .earlierWins theirs (Function.update mine id (some touch)) =
      settled .earlierWins theirs mine := by
  funext x
  by_cases hx : x = id
  · subst hx
    obtain ⟨other, hother⟩ := Option.ne_none_iff_exists'.1 h
    simp [settled, hother]
  · simp [settled, hx]

/-- Two patches that touch no block in common leave the winner nothing to win. -/
theorem settled_eq_of_disjoint (h : ∀ x, mine x ≠ none → theirs x = none) :
    settled policy theirs mine = fun x => (mine x).or (theirs x) := by
  funext x
  cases policy with
  | laterWins => rfl
  | earlierWins =>
    cases hmine : mine x with
    | none => simp [settled, hmine]
    | some touch => simp [settled, hmine, h x (by simp [hmine])]

/-- A revision of what is left of some blocks is a touch of one that is left. -/
theorem exists_touch_of_apply {blocks next : List Block} {op : PatchOp}
    (hrevises : op.revises = true) (hnodup : (blocks.map (·.id)).Nodup)
    (h : op.apply (Block.survivors mine blocks) = .ok next) :
    ∃ touch, touchBy op.target op = some touch ∧ op.target ∈ blocks.map (·.id) ∧
      mine op.target ≠ some .deleted ∧
      next = Block.survivors (Function.update mine op.target (some touch)) blocks := by
  cases op with
  | insert b place => cases hrevises
  | delete id =>
    obtain ⟨b, rfl, hperm⟩ := PatchOp.perm_of_apply_delete h
    have hmem := List.mem_map_of_mem (f := (·.id)) (hperm.mem_iff.2 List.mem_cons_self)
    obtain ⟨hin, hleft⟩ := Block.mem_ids_survivors.1 hmem
    rw [Block.apply_delete_survivors hnodup hmem, Except.ok.injEq] at h
    exact ⟨.deleted, by simp [touchBy, PatchOp.target], hin, hleft, h.symm⟩
  | replace id content =>
    have hmem := (PatchOp.ids_of_apply_replace h).1
    obtain ⟨hin, hleft⟩ := Block.mem_ids_survivors.1 hmem
    rw [Block.apply_replace_survivors content hnodup hmem, Except.ok.injEq] at h
    exact ⟨.replaced content, by simp [touchBy, PatchOp.target], hin, hleft, h.symm⟩
  | move id place => cases hrevises

/-- Revisions leave the blocks that their last touches leave. -/
theorem survivors_of_applyOps {done ops : List PatchOp} {blocks result : List Block}
    {g h : IdSource} (hrevises : ∀ op ∈ ops, op.revises = true)
    (hnodup : (blocks.map (·.id)).Nodup)
    (happly : Document.applyOps ops (Block.survivors (touched done) blocks) g = .ok (result, h)) :
    result = Block.survivors (touched (done ++ ops)) blocks := by
  induction ops generalizing done g with
  | nil =>
    cases happly
    rw [List.append_nil]
  | cons op ops ih =>
    obtain ⟨next, hop, hrest⟩ := Document.applyOps_cons_eq_ok_iff.1 happly
    obtain ⟨touch, htouch, -, -, rfl⟩ :=
      exists_touch_of_apply (hrevises op List.mem_cons_self) hnodup hop
    rw [← touched_concat done htouch] at hrest
    rw [ih (fun e he => hrevises e (List.mem_cons_of_mem op he)) hrest, List.append_assoc]
    rfl

/-- How far two patches of revisions are settled when the touches `mine` of the later one have
    been carried over. -/
structure Settled (c : Setting) (mine : BlockId → Option Touch) (s : State) : Prop where
  renamed : s.renamed = []
  working : s.working = Block.survivors (settled c.policy (touched c.earlier) mine) c.before
  calm : (∀ x, mine x ≠ none → touched c.earlier x = none) → s.conflicts = []

variable {c : Setting} {s : State} {id : BlockId}

namespace Settled

theorem holds_iff (h : Settled c mine s) (hin : id ∈ c.before.map (·.id)) :
    holds s id = true ↔ settled c.policy (touched c.earlier) mine id ≠ some .deleted := by
  rw [holds, Block.isIn_iff, h.working, Block.mem_ids_survivors, and_iff_right hin]

theorem eq_deleted (h : Settled c mine s) (hin : id ∈ c.before.map (·.id))
    (hgone : holds s id = false) :
    settled c.policy (touched c.earlier) mine id = some .deleted := by
  rw [← Bool.not_eq_true, h.holds_iff hin, not_not] at hgone
  exact hgone

/-- Only a later patch that wins has brought back what the earlier one deleted. -/
theorem laterWins_of_held (h : Settled c mine s) (hin : id ∈ c.before.map (·.id))
    (hheld : holds s id = true) (htheirs : touched c.earlier id = some .deleted) :
    c.policy = .laterWins := by
  have hleft := (h.holds_iff hin).1 hheld
  cases hpolicy : c.policy with
  | laterWins => rfl
  | earlierWins => simp [hpolicy, settled, htheirs] at hleft

/-- A change that is emitted settles the block by its touch. -/
theorem emit (h : Settled c mine s) {op : PatchOp} {touch : Touch}
    {conflicts : List BlockId}
    (hwins : c.policy = .laterWins ∨ touched c.earlier id = none ∨
      touched c.earlier id = some touch)
    (hop : op.apply s.working = .ok (Block.survivors (Function.update
      (settled c.policy (touched c.earlier) mine) id (some touch)) c.before))
    (hcalm : conflicts = s.conflicts ∨ touched c.earlier id ≠ none) :
    ∃ t, Rebase.emit { s with conflicts } op = .ok t ∧
      Settled c (Function.update mine id (some touch)) t := by
  refine ⟨_, emit_of_apply hop, h.renamed, ?_, fun hdisjoint => ?_⟩
  · rw [settled_update hwins]
  · have hfree : touched c.earlier id = none := hdisjoint id (by simp)
    refine (hcalm.resolve_right (not_not.2 hfree)).trans (h.calm fun x hx => hdisjoint x ?_)
    by_cases hid : x = id
    · simp [hid]
    · simpa [hid] using hx

/-- A change that is dropped leaves the block as the earlier patch has settled it. -/
theorem drop (h : Settled c mine s) {touch : Touch} {conflicts : List BlockId}
    (htheirs : touched c.earlier id ≠ none)
    (hloses : c.policy = .earlierWins ∨
      settled c.policy (touched c.earlier) mine id = some touch) :
    Settled c (Function.update mine id (some touch)) { s with conflicts } := by
  refine ⟨h.renamed, ?_, fun hdisjoint => absurd (hdisjoint id (by simp)) htheirs⟩
  rw [h.working]
  obtain hpolicy | hsettled := hloses
  · rw [hpolicy, settled_update_of_earlierWins touch htheirs]
  · cases hpolicy : c.policy with
    | earlierWins => rw [settled_update_of_earlierWins touch htheirs]
    | laterWins =>
      rw [settled_update (.inl rfl), ← hpolicy, ← hsettled, Function.update_eq_self]

variable (hnodup : (c.before.map (·.id)).Nodup)
include hnodup

theorem exists_carryDelete (h : Settled c mine s) (hin : id ∈ c.before.map (·.id))
    (hmine : mine id ≠ some .deleted) :
    ∃ t, carryDelete c s id = .ok t ∧
      Settled c (Function.update mine id (some .deleted)) t := by
  cases hheld : holds s id with
  | false =>
    have hsettled := h.eq_deleted hin hheld
    have htheirs := settled_eq_deleted hsettled hmine
    refine ⟨s, ?_, h.drop (by simp [htheirs]) (.inr hsettled)⟩
    rw [carryDelete, hheld, touch?_eq, htheirs]
  | true =>
    have hop := Block.apply_delete_survivors hnodup
      (Block.mem_ids_survivors.2 ⟨hin, (h.holds_iff hin).1 hheld⟩)
    rw [← h.working] at hop
    rw [carryDelete, hheld, touch?_eq]
    cases htheirs : touched c.earlier id with
    | none => exact h.emit (.inr (.inl htheirs)) hop (.inl rfl)
    | some touch =>
      cases touch with
      | deleted => exact h.emit (.inr (.inr htheirs)) hop (.inl rfl)
      | replaced content =>
        have htouched : touched c.earlier id ≠ none := by simp [htheirs]
        cases hpolicy : c.policy with
        | laterWins => exact h.emit (.inl hpolicy) hop (.inr htouched)
        | earlierWins => exact ⟨_, rfl, h.drop htouched (.inl hpolicy)⟩

/-- A replacement of a block that the earlier patch deleted brings it back if the later patch
    wins, in the place that it had. -/
theorem exists_carryReplace_of_gone (h : Settled c mine s)
    (hin : id ∈ c.before.map (·.id)) (hmine : mine id ≠ some .deleted) (content : String)
    (hgone : holds s id = false) :
    ∃ t, carryReplace c s id content = .ok t ∧
      Settled c (Function.update mine id (some (.replaced content))) t := by
  have hsettled := h.eq_deleted hin hgone
  have htheirs := settled_eq_deleted hsettled hmine
  have htouched : touched c.earlier id ≠ none := by simp [htheirs]
  rw [carryReplace, hgone, touch?_eq, htheirs]
  cases hpolicy : c.policy with
  | earlierWins => exact ⟨_, rfl, h.drop htouched (.inl hpolicy)⟩
  | laterWins =>
    obtain ⟨front, b, back, hbefore, rfl, hfront⟩ := Block.exists_split hin
    have hfind : c.before.find? (·.id = b.id) = some b := by
      rw [hbefore, List.find?_append, List.find?_eq_none.2 ?_]
      · simp
      · intro d hd
        have hne : d.id ≠ b.id := fun hid => hfront (hid ▸ List.mem_map_of_mem hd)
        simpa using hne
    have hparts : ((front ++ b :: back).map (·.id)).Nodup := hbefore ▸ hnodup
    have hop := Block.apply_insert_survivors content hparts hsettled
    rw [← hbefore, ← h.working, ← predecessor?_of_survivors hbefore hfront h.working] at hop
    simp only [restore, clash, hfind]
    exact h.emit (.inl hpolicy) hop (.inr htouched)

theorem exists_carryReplace (h : Settled c mine s) (hin : id ∈ c.before.map (·.id))
    (hmine : mine id ≠ some .deleted) (content : String) :
    ∃ t, carryReplace c s id content = .ok t ∧
      Settled c (Function.update mine id (some (.replaced content))) t := by
  cases hheld : holds s id with
  | false => exact h.exists_carryReplace_of_gone hnodup hin hmine content hheld
  | true =>
    have hop := Block.apply_replace_survivors content hnodup
      (Block.mem_ids_survivors.2 ⟨hin, (h.holds_iff hin).1 hheld⟩)
    rw [← h.working] at hop
    rw [carryReplace, hheld, touch?_eq]
    cases htheirs : touched c.earlier id with
    | none => exact h.emit (.inr (.inl htheirs)) hop (.inl rfl)
    | some touch =>
      have htouched : touched c.earlier id ≠ none := by simp [htheirs]
      cases touch with
      | deleted =>
        have hwins := h.laterWins_of_held hin hheld htheirs
        exact h.emit (.inl hwins) hop (.inl rfl)
      | replaced theirs =>
        by_cases hsame : theirs = content
        · simp only [if_pos hsame]
          exact h.emit (.inr (.inr (hsame ▸ htheirs))) hop (.inl rfl)
        · simp only [if_neg hsame]
          cases hpolicy : c.policy with
          | laterWins => exact h.emit (.inl hpolicy) hop (.inr htouched)
          | earlierWins => exact ⟨_, rfl, h.drop htouched (.inl hpolicy)⟩

/-- A revision by the later patch settles its block. -/
theorem exists_carry (h : Settled c mine s) {op : PatchOp} {touch : Touch}
    (htouch : touchBy op.target op = some touch) (hin : op.target ∈ c.before.map (·.id))
    (hmine : mine op.target ≠ some .deleted) :
    ∃ t, carry c s op = .ok t ∧
      Settled c (Function.update mine op.target (some touch)) t := by
  have hself : ∀ x, resolve s x = x := by
    intro x
    rw [resolve, h.renamed]
    rfl
  cases op with
  | insert b place => cases htouch
  | delete target =>
    obtain rfl : Touch.deleted = touch := by simpa [touchBy, PatchOp.target] using htouch
    rw [carry, hself]
    exact h.exists_carryDelete hnodup hin hmine
  | replace target content =>
    obtain rfl : Touch.replaced content = touch := by
      simpa [touchBy, PatchOp.target] using htouch
    rw [carry, hself]
    exact h.exists_carryReplace hnodup hin hmine content
  | move target place => cases htouch

/-- A later patch of revisions is carried over as a whole, and settles the blocks. -/
theorem exists_carryAll {done ops : List PatchOp} {result : List Block × IdSource} {k : IdSource}
    (h : Settled c (touched done) s) (hrevises : ∀ op ∈ ops, op.revises = true)
    (happly : Document.applyOps ops (Block.survivors (touched done) c.before) k = .ok result) :
    ∃ t, carryAll c s ops = .ok t ∧ Settled c (touched (done ++ ops)) t := by
  induction ops generalizing done s k with
  | nil => exact ⟨s, rfl, by rwa [List.append_nil]⟩
  | cons op ops ih =>
    obtain ⟨next, hop, hrest⟩ := Document.applyOps_cons_eq_ok_iff.1 happly
    obtain ⟨touch, htouch, hin, hleft, rfl⟩ :=
      exists_touch_of_apply (hrevises op List.mem_cons_self) hnodup hop
    obtain ⟨t, hcarry, ht⟩ := h.exists_carry hnodup htouch hin hleft
    rw [← touched_concat done htouch] at hrest ht
    obtain ⟨u, hcarryAll, hu⟩ := ih ht (fun e he => hrevises e (List.mem_cons_of_mem op he)) hrest
    refine ⟨u, ?_, ?_⟩
    · rw [carryAll, hcarry]
      exact hcarryAll
    · rw [List.append_assoc] at hu
      exact hu

end Settled

end Rebase

namespace Patch

variable {later earlier : Patch} {before current target : Document}

/-- A patch of revisions is carried over another one, and each block is settled between them. -/
theorem exists_rebase_of_revises (policy : ConflictPolicy)
    (hnodup : (before.blocks.map (·.id)).Nodup) (hearlier : before.apply earlier = .ok current)
    (hlater : before.apply later = .ok target)
    (hrevises : ∀ op ∈ earlier.ops, op.revises = true)
    (hrevises' : ∀ op ∈ later.ops, op.revises = true) :
    ∃ rebased next, later.rebase earlier before current policy = .ok rebased ∧
      current.apply rebased.patch = .ok next ∧
      next.blocks = Block.survivors (Rebase.settled policy (Rebase.touched earlier.ops)
        (Rebase.touched later.ops)) before.blocks ∧
      ((∀ x, Rebase.touched later.ops x ≠ none → Rebase.touched earlier.ops x = none) →
        rebased.conflicts = []) := by
  have hnone : Block.survivors (Rebase.touched []) before.blocks = before.blocks :=
    Block.survivors_none
  obtain ⟨-, blocks, ids, hops, hcurrent⟩ := Document.apply_eq_ok_iff.1 hearlier
  obtain ⟨-, blocks', ids', hops', -⟩ := Document.apply_eq_ok_iff.1 hlater
  rw [← hnone] at hops hops'
  have hblocks : current.blocks = Block.survivors (Rebase.touched earlier.ops) before.blocks := by
    rw [hcurrent]
    exact Rebase.survivors_of_applyOps hrevises hnodup hops
  have hstart : Rebase.Settled ⟨before.blocks, earlier.ops, policy⟩ (Rebase.touched [])
      ⟨current.blocks, current.ids, [], [], []⟩ := by
    refine ⟨rfl, ?_, fun _ => rfl⟩
    rw [hblocks]
    exact congrArg (Block.survivors · before.blocks) Rebase.settled_none.symm
  obtain ⟨s, hcarry, hs⟩ := hstart.exists_carryAll hnodup hrevises' hops'
  obtain ⟨last, hreplays⟩ := Rebase.replays_carryAll current.blocks current.ids ⟨_, rfl⟩ hcarry
  refine ⟨⟨⟨current.revision, s.ops⟩, s.conflicts⟩,
    { current with blocks := s.working, revision := current.revision + 1, ids := last }, ?_,
    Document.apply_eq_ok_iff.2 ⟨rfl, _, _, hreplays, rfl⟩, hs.working, hs.calm⟩
  rw [rebase_eq hearlier hlater, hcarry]

end Patch

namespace Document

/-- A patch, and then another one that was made from the same revision and is carried over it:
    the document in the end, and the conflicts between the two. -/
def applyBoth (d : Document) (policy : ConflictPolicy) (first second : Patch) :
    Except PatchError (Document × List BlockId) := do
  let current ← d.apply first
  let rebased ← second.rebase first d current policy
  let next ← current.apply rebased.patch
  return (next, rebased.conflicts)

theorem exists_applyBoth {d current target : Document} {first second : Patch}
    (policy : ConflictPolicy) (hnodup : (d.blocks.map (·.id)).Nodup)
    (hfirst : d.apply first = .ok current) (hsecond : d.apply second = .ok target)
    (hrevises : ∀ op ∈ first.ops, op.revises = true)
    (hrevises' : ∀ op ∈ second.ops, op.revises = true) :
    ∃ next conflicts, d.applyBoth policy first second = .ok (next, conflicts) ∧
      next.blocks = Block.survivors (Rebase.settled policy (Rebase.touched first.ops)
        (Rebase.touched second.ops)) d.blocks ∧
      ((∀ x, Rebase.touched second.ops x ≠ none → Rebase.touched first.ops x = none) →
        conflicts = []) := by
  obtain ⟨rebased, next, hrebase, hnext, hblocks, hcalm⟩ :=
    Patch.exists_rebase_of_revises policy hnodup hfirst hsecond hrevises hrevises'
  refine ⟨next, rebased.conflicts, ?_, hblocks, hcalm⟩
  simp only [applyBoth, hfirst, hrebase, hnext, bind, Except.bind, pure, Except.pure]

/-- It makes no difference which of two patches of revisions comes first, as long as the same
    one wins: the later one in one order and the earlier one in the other. If they are about
    different blocks there is nothing to win, and no conflict in either order. -/
theorem applyBoth_dual {d dp dq : Document} {p q : Patch}
    (hnodup : (d.blocks.map (·.id)).Nodup) (hp : d.apply p = .ok dp) (hq : d.apply q = .ok dq)
    (hrevises : ∀ op ∈ p.ops ++ q.ops, op.revises = true) :
    (∃ e e' : Document × List BlockId, d.applyBoth .laterWins p q = .ok e ∧
      d.applyBoth .earlierWins q p = .ok e' ∧ e.1.blocks = e'.1.blocks) ∧
    ((∀ a ∈ p.ops, ∀ b ∈ q.ops, a.target ≠ b.target) → ∃ blocks, ∀ policy,
      (∃ e, d.applyBoth policy p q = .ok (e, []) ∧ e.blocks = blocks) ∧
      ∃ e, d.applyBoth policy q p = .ok (e, []) ∧ e.blocks = blocks) := by
  have hprevises : ∀ op ∈ p.ops, op.revises = true :=
    fun op hop => hrevises op (List.mem_append_left _ hop)
  have hqrevises : ∀ op ∈ q.ops, op.revises = true :=
    fun op hop => hrevises op (List.mem_append_right _ hop)
  constructor
  · obtain ⟨e, cs, he, hblocks, -⟩ := exists_applyBoth .laterWins hnodup hp hq hprevises hqrevises
    obtain ⟨e', cs', he', hblocks', -⟩ :=
      exists_applyBoth .earlierWins hnodup hq hp hqrevises hprevises
    exact ⟨(e, cs), (e', cs'), he, he', hblocks.trans hblocks'.symm⟩
  · intro hdisjoint
    have hfree : ∀ x, Rebase.touched p.ops x = none ∨ Rebase.touched q.ops x = none := by
      intro x
      by_contra hboth
      rw [not_or] at hboth
      obtain ⟨a, ha, rfl⟩ := Rebase.exists_target_of_touched hboth.1
      obtain ⟨b, hb, hid⟩ := Rebase.exists_target_of_touched hboth.2
      exact hdisjoint a ha b hb hid.symm
    have hpq : ∀ x, Rebase.touched q.ops x ≠ none → Rebase.touched p.ops x = none :=
      fun x hx => (hfree x).resolve_right hx
    have hqp : ∀ x, Rebase.touched p.ops x ≠ none → Rebase.touched q.ops x = none :=
      fun x hx => (hfree x).resolve_left hx
    have hcomm : (fun x => (Rebase.touched p.ops x).or (Rebase.touched q.ops x)) =
        fun x => (Rebase.touched q.ops x).or (Rebase.touched p.ops x) := by
      funext x
      rcases hfree x with hx | hx <;> simp [hx]
    refine ⟨Block.survivors (fun x => (Rebase.touched q.ops x).or (Rebase.touched p.ops x))
      d.blocks, fun policy => ⟨?_, ?_⟩⟩
    · obtain ⟨e, cs, he, hblocks, hcalm⟩ :=
        exists_applyBoth policy hnodup hp hq hprevises hqrevises
      exact ⟨e, hcalm hpq ▸ he, by rw [hblocks, Rebase.settled_eq_of_disjoint hpq]⟩
    · obtain ⟨e, cs, he, hblocks, hcalm⟩ :=
        exists_applyBoth policy hnodup hq hp hqrevises hprevises
      exact ⟨e, hcalm hqp ▸ he, by rw [hblocks, Rebase.settled_eq_of_disjoint hqp, hcomm]⟩

/-- Two patches that fight over three blocks, one of which both delete in the end, and a third
    patch that is about the fourth block alone. -/
theorem applyBoth_dual_three_fights :
    let d : Document :=
      { blocks := [⟨⟨"b1"⟩, .doc, "# a\n"⟩, ⟨⟨"b2"⟩, .code, "x\n"⟩, ⟨⟨"b3"⟩, .doc, "# c\n"⟩,
          ⟨⟨"b4"⟩, .code, "z\n"⟩]
        revision := 7, profile := { id := "sh", lineComments := ["#"] }, ids := ⟨none, 4⟩ }
    let p : Patch := ⟨7, [.delete ⟨"b1"⟩, .replace ⟨"b2"⟩ "y\n", .delete ⟨"b3"⟩]⟩
    let q : Patch := ⟨7, [.replace ⟨"b1"⟩ "# b\n", .replace ⟨"b2"⟩ "y\n", .delete ⟨"b2"⟩,
      .replace ⟨"b3"⟩ "# d\n", .delete ⟨"b3"⟩]⟩
    let r : Patch := ⟨7, [.replace ⟨"b4"⟩ "w\n"]⟩
    (∃ e e' : Document × List BlockId, d.applyBoth .laterWins p q = .ok e ∧
      d.applyBoth .earlierWins q p = .ok e' ∧ e.1.blocks = e'.1.blocks) ∧
    ∃ e e' : Document, d.applyBoth .laterWins p r = .ok (e, []) ∧
      d.applyBoth .laterWins r p = .ok (e', []) ∧ e.blocks = e'.blocks := by
  intro d p q r
  have hnodup : (d.blocks.map (·.id)).Nodup := by decide
  have hp : d.apply p = .ok { d with
      blocks := [⟨⟨"b2"⟩, .code, "y\n"⟩, ⟨⟨"b4"⟩, .code, "z\n"⟩], revision := 8 } := by
    decide +kernel
  have hq : d.apply q = .ok { d with
      blocks := [⟨⟨"b1"⟩, .doc, "# b\n"⟩, ⟨⟨"b4"⟩, .code, "z\n"⟩], revision := 8 } := by
    decide +kernel
  have hr : d.apply r = .ok { d with
      blocks := [⟨⟨"b1"⟩, .doc, "# a\n"⟩, ⟨⟨"b2"⟩, .code, "x\n"⟩, ⟨⟨"b3"⟩, .doc, "# c\n"⟩,
        ⟨⟨"b4"⟩, .code, "w\n"⟩], revision := 8 } := by
    decide +kernel
  obtain ⟨hdual, -⟩ := applyBoth_dual hnodup hp hq (by decide)
  obtain ⟨-, hdisjoint⟩ := applyBoth_dual hnodup hp hr (by decide)
  obtain ⟨blocks, hboth⟩ := hdisjoint (by decide)
  obtain ⟨⟨e, he, hblocks⟩, e', he', hblocks'⟩ := hboth .laterWins
  exact ⟨hdual, e, e', he, he', hblocks.trans hblocks'.symm⟩

end Document

end LiterateSync
