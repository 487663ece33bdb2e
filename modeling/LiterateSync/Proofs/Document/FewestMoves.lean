import LiterateSync.Proofs.Document.DiffApply
import LiterateSync.Proofs.Document.Framing

namespace LiterateSync

/-- Items that stand at some indexes, and come there in the order of the list, have rising
    indexes. -/
theorem pairwise_of_sublist_getElem? {α : Type} [DecidableEq α] {l : List α} {is : List Nat}
    (hnodup : l.Nodup) (h : (is.filterMap fun i => l[i]?).Sublist l)
    (hlt : ∀ i ∈ is, i < l.length) : is.Pairwise (· < ·) := by
  have hplaces : l.Pairwise fun a b => l.idxOf a < l.idxOf b := by
    rw [List.pairwise_iff_getElem]
    intro i j hi hj hij
    rwa [hnodup.idxOf_getElem i hi, hnodup.idxOf_getElem j hj]
  have hrising := List.pairwise_filterMap.1 (hplaces.sublist h)
  refine hrising.imp_of_mem fun {i j} hi hj hij => ?_
  have higet := List.getElem?_eq_getElem (hlt i hi)
  have hjget := List.getElem?_eq_getElem (hlt j hj)
  have hless := hij _ higet _ hjget
  rwa [hnodup.idxOf_getElem i (hlt i hi), hnodup.idxOf_getElem j (hlt j hj)] at hless

/-- Items are chosen by what they stand for. -/
theorem filterMap_filter_any {α β : Type} (f : α → Option β) (q : β → Bool) (l : List α) :
    (l.filter fun x => (f x).any q).filterMap f = (l.filterMap f).filter q := by
  induction l with
  | nil => rfl
  | cons x l ih =>
    cases hx : f x with
    | none => simp [hx, ih]
    | some y => by_cases hy : q y <;> simp [hx, hy, ih]

namespace PatchOp

/-- Whether a change moves a block. -/
def isMove : PatchOp → Bool
  | .move .. => true
  | _ => false

/-- The names of the blocks that some changes move. -/
def moved (ops : List PatchOp) : List BlockId :=
  (ops.filter isMove).map target

theorem length_moved (ops : List PatchOp) : (moved ops).length = ops.countP isMove := by
  rw [moved, List.length_map, List.countP_eq_length_filter]

theorem move_mem_moved {ops : List PatchOp} {id : BlockId} {after : Option BlockId}
    (h : .move id after ∈ ops) : id ∈ moved ops :=
  List.mem_map.2 ⟨_, List.mem_filter.2 ⟨h, rfl⟩, rfl⟩

/-- A change keeps the order of the names that it does not insert, delete or move. -/
theorem filter_ids_of_apply {op : PatchOp} {blocks result : List Block} {q : BlockId → Bool}
    (hq : (∃ id content, op = .replace id content) ∨ q op.target = false)
    (h : op.apply blocks = .ok result) :
    (result.map (·.id)).filter q = (blocks.map (·.id)).filter q := by
  rcases hq with ⟨id, content, rfl⟩ | hq
  · rw [(ids_of_apply_replace h).2]
  · rw [List.filter_map, List.filter_map]
    exact congrArg _ (filter_of_apply (fun c hc => by rw [Function.comp_apply, hc, hq]) h)

end PatchOp

namespace Document

variable {ops : List PatchOp} {blocks result : List Block} {g h : IdSource} {q : BlockId → Bool}

/-- Changes keep the order of the names of blocks that are there from the start, and are neither
    deleted nor moved. -/
theorem filter_ids_of_applyOps (hnodup : (blocks.map (·.id)).Nodup)
    (happly : applyOps ops blocks g = .ok (result, h))
    (hthere : ∀ id, q id = true → id ∈ blocks.map (·.id))
    (hdelete : ∀ id, q id = true → .delete id ∉ ops)
    (hmove : ∀ id, q id = true → ∀ after, .move id after ∉ ops) :
    (result.map (·.id)).filter q = (blocks.map (·.id)).filter q := by
  induction ops generalizing blocks g with
  | nil =>
    cases happly
    rfl
  | cons op ops ih =>
    obtain ⟨next, hop, hrest⟩ := applyOps_cons_eq_ok_iff.1 happly
    have hmem := PatchOp.mem_ids_of_apply hnodup hop
    have hnext : (∃ id content, op = .replace id content) ∨ q op.target = false := by
      cases op with
      | insert b after =>
        refine .inr (Bool.eq_false_iff.2 fun hb => ?_)
        exact (PatchOp.perm_of_apply_insert hop).1 (hthere b.id hb)
      | delete id =>
        exact .inr (Bool.eq_false_iff.2 fun hid => hdelete id hid List.mem_cons_self)
      | replace id content => exact .inl ⟨id, content, rfl⟩
      | move id after =>
        exact .inr (Bool.eq_false_iff.2 fun hid => hmove id hid after List.mem_cons_self)
    refine (ih (PatchOp.nodup_of_apply hnodup hop) hrest (fun id hid => ?_) ?_ ?_).trans
      (PatchOp.filter_ids_of_apply hnext hop)
    · -- The block is still there, since it was not the one that was deleted.
      rw [hmem id]
      cases op with
      | insert b after => exact .inr (hthere id hid)
      | delete other => exact ⟨hthere id hid, fun heq => hdelete id hid (heq ▸ List.mem_cons_self)⟩
      | replace other content => exact hthere id hid
      | move other after => exact hthere id hid
    · exact fun id hid hin => hdelete id hid (List.mem_cons_of_mem op hin)
    · exact fun id hid after hin => hmove id hid after (List.mem_cons_of_mem op hin)

end Document

namespace Pairing

/-- Changes that realize a pairing: they leave a block for each new one, in its order, with its
    kind and content. Where it has a partner, it is that block, which was never deleted. -/
structure Realizes (p : Pairing) (old new : List Block) (g : IdSource) (ops : List PatchOp) :
    Prop where
  laid : ∃ next h, Document.applyOps ops old g = .ok (next, h) ∧
    List.Forall₂ (fun row c => c.kind = row.2.1.kind ∧ c.content = row.2.1.content ∧
      ∀ a ∈ kept? old row, c.id = a.id) (rows new p) next
  keeps : ∀ a ∈ (rows new p).filterMap (kept? old), .delete a.id ∉ ops

variable {old new : List Block} {p : Pairing} {ops : List PatchOp} {g : IdSource}

/-- The names of the blocks that are kept, in the order of the new ones. -/
def keptIds (p : Pairing) (old : List Block) : List BlockId :=
  p.pairs.filterMap fun x => (old[x.2]?).map (·.id)

theorem map_snd_pairs (p : Pairing) : p.pairs.map (·.2) = p.taken := by
  have hfst : p.taken = p.zipIdx.filterMap (·.1) := by
    conv_lhs => rw [taken, ← List.zipIdx_map_fst 0 p, List.filterMap_map]
    rfl
  rw [hfst, pairs, List.map_filterMap]
  refine List.filterMap_congr fun x _ => ?_
  rw [Option.map_map]
  exact Option.map_id'

theorem keptIds_eq (hp : Sound old new p) :
    p.keptIds old = ((rows new p).filterMap (kept? old)).map (·.id) := by
  rw [filterMap_kept?_rows hp.length_eq, ← map_snd_pairs, List.filterMap_map, List.map_filterMap]
  rfl

theorem length_keptIds (hp : Sound old new p) : (p.keptIds old).length = p.pairs.length := by
  refine List.filterMap_length_eq_length.2 fun x hx => ?_
  simpa using lt_length_of_mem_pairs hp hx

theorem sublist_ids_of_forall₂ {rows : List Row} {next : List Block}
    (h : List.Forall₂ (fun row (c : Block) => ∀ a ∈ kept? old row, c.id = a.id) rows next) :
    ((rows.filterMap (kept? old)).map (·.id)).Sublist (next.map (·.id)) := by
  induction h with
  | nil => exact .slnil
  | @cons row c rows next hrow _ ih =>
    cases hkept : kept? old row with
    | none =>
      rw [List.filterMap_cons_none hkept]
      exact ih.cons c.id
    | some a =>
      rw [List.filterMap_cons_some hkept, List.map_cons, List.map_cons, hrow a hkept]
      exact ih.cons_cons a.id

/-- The names of the kept blocks that are not moved have the same order before and after. -/
theorem sublist_of_realizes (hold : (old.map (·.id)).Nodup) (hp : Sound old new p)
    (h : p.Realizes old new g ops) :
    ((p.keptIds old).filter fun id => id ∉ PatchOp.moved ops).Sublist (old.map (·.id)) := by
  obtain ⟨next, g', happly, hlaid⟩ := h.laid
  have hnext : (p.keptIds old).Sublist (next.map (·.id)) := by
    rw [keptIds_eq hp]
    exact sublist_ids_of_forall₂ (hlaid.imp fun _ _ hrow => hrow.2.2)
  have hin : ∀ id ∈ p.keptIds old, id ∈ old.map (·.id) ∧ .delete id ∉ ops := by
    intro id hid
    rw [keptIds_eq hp] at hid
    obtain ⟨a, ha, rfl⟩ := List.mem_map.1 hid
    obtain ⟨row, hrow, hkept⟩ := List.mem_filterMap.1 ha
    obtain ⟨o, -, ho⟩ := exists_of_kept hrow hkept
    exact ⟨List.mem_map_of_mem (List.mem_of_getElem? ho), h.keeps a ha⟩
  have hsame := Document.filter_ids_of_applyOps
    (q := fun id => id ∈ p.keptIds old ∧ id ∉ PatchOp.moved ops) hold happly
    (fun id hid => (hin id (of_decide_eq_true hid).1).1)
    (fun id hid => (hin id (of_decide_eq_true hid).1).2)
    (fun id hid after hmove => (of_decide_eq_true hid).2 (PatchOp.move_mem_moved hmove))
  have hkept : (next.map (·.id)).filter (fun id => id ∈ p.keptIds old) = p.keptIds old := by
    have hnodup : ((next.map (·.id)).map id).Nodup := by
      rw [List.map_id]
      exact Document.nodup_of_applyOps hold happly
    have hfilter := filter_key_eq_of_sublist hnext hnodup
    simpa using hfilter
  conv_lhs => rw [← hkept, List.filter_filter]
  simp only [← Bool.decide_and, and_comm, hsame]
  exact List.filter_sublist

/-- Of the pairs, those whose old block is not moved have rising old indexes. -/
theorem exists_rising_of_realizes (hold : (old.map (·.id)).Nodup) (hp : Sound old new p)
    (h : p.Realizes old new g ops) :
    ∃ run : List (Nat × Nat), run.Sublist p.pairs ∧ run.Pairwise (fun x y => x.2 < y.2) ∧
      p.pairs.length ≤ run.length + ops.countP PatchOp.isMove := by
  set unmoved : BlockId → Bool := fun id => id ∉ PatchOp.moved ops with hunmoved
  set run := p.pairs.filter fun x => ((old[x.2]?).map (·.id)).any unmoved with hrun
  have hlt : ∀ x ∈ run, x.2 < (old.map (·.id)).length := fun x hx => by
    simpa using lt_length_of_mem_pairs hp (List.mem_of_mem_filter hx)
  have hids : (run.map (·.2)).filterMap (fun o => (old.map (·.id))[o]?) =
      (p.keptIds old).filter unmoved := by
    rw [keptIds, ← filterMap_filter_any, ← hrun, List.filterMap_map]
    exact List.filterMap_congr fun x _ => List.getElem?_map
  refine ⟨run, List.filter_sublist, ?_, ?_⟩
  · refine List.pairwise_map.1 (pairwise_of_sublist_getElem? hold ?_ ?_)
    · rw [hids]
      exact sublist_of_realizes hold hp h
    · exact List.forall_mem_map.2 hlt
  · have hlength : ((p.keptIds old).filter unmoved).length = run.length := by
      rw [← hids, List.filterMap_map, List.filterMap_length_eq_length]
      exact fun x hx => by simpa using hlt x hx
    have hmoved : ((p.keptIds old).filter fun id => !unmoved id).length ≤
        ops.countP PatchOp.isMove := by
      rw [← PatchOp.length_moved]
      have hnodup : (p.keptIds old).Nodup := keptIds_eq hp ▸ nodup_kept hold hp
      refine (List.subperm_of_subset (hnodup.filter _) fun id hid => ?_).length_le
      simpa [hunmoved] using (List.mem_filter.1 hid).2
    have hparts := List.length_eq_length_filter_add (l := p.keptIds old) unmoved
    rw [length_keptIds hp] at hparts
    omega

/-! ### What the comparison moves -/

/-- The layout moves those of the kept blocks that do not stay, and deletes nothing. -/
theorem layOut_moves (old : List Block) (staying : List Nat) (g : IdSource)
    (after : Option BlockId) (rows : List Row) :
    (layOut old staying g after rows).countP PatchOp.isMove = (movers old staying rows).length ∧
      ∀ id, .delete id ∉ layOut old staying g after rows := by
  induction rows generalizing g after with
  | nil => simp [layOut, movers]
  | cons row rows ih =>
    obtain ⟨n, b, partner⟩ := row
    cases hkept : kept? old (n, b, partner) with
    | none =>
      rw [movers_cons_of_none hkept]
      rw [kept?] at hkept
      simp only [layOut, hkept]
      obtain ⟨hcount, hdelete⟩ := ih g.fresh.2 (some g.fresh.1)
      refine ⟨?_, fun id hid => ?_⟩
      · rw [List.countP_cons_of_neg (by simp [PatchOp.isMove]), hcount]
      · rcases List.mem_cons.1 hid with heq | hid
        · cases heq
        · exact hdelete id hid
    | some a =>
      rw [movers_cons_of_some staying rows hkept]
      rw [kept?] at hkept
      simp only [layOut, hkept, List.countP_append, keep]
      obtain ⟨hcount, hdelete⟩ := ih g (some a.id)
      refine ⟨?_, fun id => ?_⟩
      · by_cases hstays : n ∈ staying <;> by_cases hcontent : a.content = b.content <;>
          simp [hstays, hcontent, PatchOp.isMove, hcount, Nat.add_comm]
      · have hrest := hdelete id
        by_cases hstays : n ∈ staying <;> by_cases hcontent : a.content = b.content <;>
          simp [hstays, hcontent, hrest]

theorem length_movers (hp : Sound old new p) :
    (movers old (Subsequence.longestRising p.pairs) (rows new p)).length +
      (Subsequence.longestRising p.pairs).length = p.pairs.length := by
  obtain ⟨run, hsub, -, hstaying⟩ := Subsequence.exists_rising_eq_longestRising p.pairs
  have hstayers : (stayers old (Subsequence.longestRising p.pairs) (rows new p)).length =
      (Subsequence.longestRising p.pairs).length := by
    rw [stayers_rows hp.length_eq, hstaying, filter_key_eq_of_sublist hsub (nodup_fst_pairs p),
      List.filterMap_map, List.filterMap_length_eq_length.2 fun x hx => ?_, List.length_map]
    simpa using lt_length_of_mem_pairs hp (hsub.subset hx)
  have hparts := (List.filter_append_perm
    (fun row => (Subsequence.longestRising p.pairs).contains row.1) (rows new p)).filterMap
      (kept? old) |>.length_eq
  rw [List.filterMap_append, List.length_append] at hparts
  have hkept : (stayers old (Subsequence.longestRising p.pairs) (rows new p)).length +
      (movers old (Subsequence.longestRising p.pairs) (rows new p)).length = p.pairs.length := by
    rw [← length_keptIds hp, keptIds_eq hp, List.length_map]
    exact hparts
  omega

/-- No changes that realize the pairing move fewer blocks than the layout. -/
theorem length_movers_le (hold : (old.map (·.id)).Nodup) (hp : Sound old new p)
    (h : p.Realizes old new g ops) :
    (movers old (Subsequence.longestRising p.pairs) (rows new p)).length ≤
      ops.countP PatchOp.isMove := by
  obtain ⟨run, hsub, hrising, hle⟩ := exists_rising_of_realizes hold hp h
  have hlongest := Subsequence.length_le_longestRising hsub hrising
  have hparts := length_movers hp
  omega

/-! ### The pass in order -/

/-- The kind and the content of a block, by which it is compared. -/
def outlineOf (x : Nat × Block) : BlockKind × String :=
  (x.2.kind, x.2.content)

theorem same_iff_outlineOf {x y : Nat × Block} :
    same x.2 y.2 = true ↔ outlineOf x = outlineOf y := by
  rw [same_iff, outlineOf, outlineOf, Prod.mk.injEq]

/-- The pairs that the pass in order makes of the free blocks, each with its index. -/
def orderedPairs (p : Pairing) (old new : List Block) : List ((Nat × Block) × Nat × Block) :=
  Subsequence.common (fun a b => same a.2 b.2) (p.freeOld old) (p.freeNew new)

/-- No order-preserving choice of equal blocks is longer than the one that is made. -/
theorem length_le_orderedPairs (p : Pairing) {old new : List Block}
    {l : List (BlockKind × String)} (hold : l.Sublist ((p.freeOld old).map outlineOf))
    (hnew : l.Sublist ((p.freeNew new).map outlineOf)) :
    l.length ≤ (p.orderedPairs old new).length := by
  obtain ⟨xs, hxs, rfl⟩ := List.sublist_map_iff.1 hold
  obtain ⟨ys, hys, heq⟩ := List.sublist_map_iff.1 hnew
  have hlength : xs.length = ys.length := by simpa using congrArg List.length heq
  have hcommon : Subsequence.IsCommon (fun a b : Nat × Block => same a.2 b.2) (p.freeOld old)
      (p.freeNew new) (xs.zip ys) := by
    refine ⟨?_, ?_, ?_⟩
    · rwa [List.map_fst_zip (Nat.le_of_eq hlength)]
    · rwa [List.map_snd_zip (Nat.le_of_eq hlength.symm)]
    · have hsame : List.Forall₂ (fun x y => outlineOf x = outlineOf y) xs ys := by
        rwa [← List.forall₂_eq_eq_eq, List.forall₂_map_left_iff, List.forall₂_map_right_iff] at heq
      exact fun x hx => same_iff_outlineOf.2 (List.forall₂_zip hsame hx)
  have hle := hcommon.length_le_common
  rw [List.length_zip, ← hlength, Nat.min_self] at hle
  rwa [List.length_map]

/-- A new block has a partner behind the pass in order if it had one before, or if the pass has
    paired it. -/
theorem getElem?_inOrder {old new : List Block} {p : Pairing} (h : new.length = p.length)
    {n o : Nat} : (p.inOrder old new)[n]? = some (some o) ↔
      p[n]? = some (some o) ∨ ∃ a b, ((o, a), (n, b)) ∈ p.orderedPairs old new := by
  have hcommon := Subsequence.isCommon_common (fun a b : Nat × Block => same a.2 b.2)
    (p.freeOld old) (p.freeNew new)
  set pairs := (p.orderedPairs old new).map fun x => (x.1.1, x.2.1) with hpairs
  have hinOrder : p.inOrder old new = p.add pairs := rfl
  have hmem : (o, n) ∈ pairs ↔ ∃ a b, ((o, a), (n, b)) ∈ p.orderedPairs old new := by
    simp [hpairs]
  rw [hinOrder, ← hmem]
  refine ⟨of_getElem?_add, fun hpartner => ?_⟩
  rw [getElem?_add]
  rcases hpartner with hpartner | hpair
  · simp [hpartner]
  · obtain ⟨a, b, hrun⟩ := hmem.1 hpair
    obtain ⟨hb, hfree⟩ := mem_freeNew.1 (hcommon.right.subset (List.mem_map_of_mem hrun))
    have hnone : p[n]? = some none := by
      have hlt : n < p.length := h ▸ (List.getElem?_eq_some_iff.1 hb).1
      rw [List.getElem?_eq_getElem hlt] at hfree ⊢
      exact congrArg some hfree
    have hnodup : (pairs.map (·.2)).Nodup := by
      have hsub := hcommon.right.map (·.1)
      rw [List.map_map] at hsub
      rw [hpairs, List.map_map]
      exact hsub.nodup (nodup_fst_freeNew p new)
    -- No other pair is about this block.
    obtain ⟨x, hx⟩ : ∃ x, pairs.find? (fun x => x.2 = n) = some x :=
      Option.isSome_iff_exists.1 (List.find?_isSome.2 ⟨_, hpair, by simp⟩)
    have hxn : x.2 = n := by simpa using List.find?_some hx
    obtain rfl := List.inj_on_of_nodup_map hnodup (List.mem_of_find?_eq_some hx) hpair hxn
    simp [hnone, hx]

end Pairing

namespace Document

theorem countP_isMove_diff (old new : Document) :
    let p := Pairing.ofBlocks old.blocks new.blocks
    (old.diff new).ops.countP PatchOp.isMove =
      (Pairing.movers old.blocks (Subsequence.longestRising p.pairs)
        (Pairing.rows new.blocks p)).length := by
  intro p
  have hdeletions : (p.deletions old.blocks).countP PatchOp.isMove = 0 := by
    rw [Pairing.deletions_eq, List.countP_eq_zero]
    exact List.forall_mem_map.2 fun id _ => by simp [PatchOp.isMove]
  rw [diff, List.countP_append, hdeletions, (Pairing.layOut_moves _ _ _ _ _).1, Nat.zero_add]

/-- The patch between two documents gives each new block its partner. -/
theorem realizes_diff {old new : Document} (hold : old.WellNamed)
    (hroom : old.ids.count + new.blocks.length < 2 ^ 64) :
    (Pairing.ofBlocks old.blocks new.blocks).Realizes old.blocks new.blocks old.ids
      (old.diff new).ops := by
  obtain ⟨next, happly, hlaid⟩ := exists_apply_diff hold hroom
  obtain ⟨-, blocks, ids, hops, rfl⟩ := apply_eq_ok_iff.1 happly
  refine ⟨⟨blocks, ids, hops, hlaid.imp fun row c hc => ?_⟩, fun a ha hdelete => ?_⟩
  · exact ⟨hc.kind_eq, hc.content_eq, fun a ha => (hc.of_kept a ha).1⟩
  · obtain ⟨row, hrow, hkept⟩ := List.mem_filterMap.1 ha
    rw [diff, Pairing.deletions_eq, List.mem_append] at hdelete
    rcases hdelete with hdelete | hdelete
    · obtain ⟨id, hid, heq⟩ := List.mem_map.1 hdelete
      cases heq
      exact Pairing.id_not_mem_freeIds hold.nodup hrow hkept hid
    · exact (Pairing.layOut_moves _ _ _ _ _).2 a.id hdelete

/-- The comparison of two documents keeps as much as it can. What stays of some pairs in order of
    their first numbers is a longest part that rises in the second ones, so no changes that give
    each new block its partner move fewer blocks; and the blocks that are paired by content in order
    are a longest common part of the free ones. -/
theorem diff_keeps_most {old new : Document} (hold : old.WellNamed)
    (hroom : old.ids.count + new.blocks.length < 2 ^ 64) :
    (∀ pairs : List (Nat × Nat), ∃ run : List (Nat × Nat), run.Sublist pairs ∧
      run.Pairwise (fun x y => x.2 < y.2) ∧ Subsequence.longestRising pairs = run.map (·.1) ∧
      ∀ other : List (Nat × Nat), other.Sublist pairs → other.Pairwise (fun x y => x.2 < y.2) →
        other.length ≤ run.length) ∧
    (let p := Pairing.ofBlocks old.blocks new.blocks
     p.Realizes old.blocks new.blocks old.ids (old.diff new).ops ∧
      ∀ g ops, p.Realizes old.blocks new.blocks g ops →
        (old.diff new).ops.countP PatchOp.isMove ≤ ops.countP PatchOp.isMove) ∧
    ∀ p : Pairing, new.blocks.length = p.length →
      let run := p.orderedPairs old.blocks new.blocks
      (∀ n o : Nat, (p.inOrder old.blocks new.blocks)[n]? = some (some o) ↔
        p[n]? = some (some o) ∨ ∃ a b, ((o, a), (n, b)) ∈ run) ∧
      (run.map (·.1)).Sublist (p.freeOld old.blocks) ∧
      (run.map (·.2)).Sublist (p.freeNew new.blocks) ∧
      (∀ x ∈ run, Pairing.outlineOf x.1 = Pairing.outlineOf x.2) ∧
      ∀ l : List (BlockKind × String),
        l.Sublist ((p.freeOld old.blocks).map Pairing.outlineOf) →
        l.Sublist ((p.freeNew new.blocks).map Pairing.outlineOf) → l.length ≤ run.length := by
  refine ⟨fun pairs => ?_, ⟨realizes_diff hold hroom, fun g ops h => ?_⟩, fun p hp => ?_⟩
  · obtain ⟨run, hsub, hrising, heq⟩ := Subsequence.exists_rising_eq_longestRising pairs
    refine ⟨run, hsub, hrising, heq, fun other hother hrises => ?_⟩
    simpa [heq] using Subsequence.length_le_longestRising hother hrises
  · rw [countP_isMove_diff]
    exact Pairing.length_movers_le hold.nodup (Pairing.sound_ofBlocks _ _) h
  · have hcommon := Subsequence.isCommon_common (fun a b : Nat × Block => Pairing.same a.2 b.2)
      (p.freeOld old.blocks) (p.freeNew new.blocks)
    exact ⟨fun n o => Pairing.getElem?_inOrder hp, hcommon.left, hcommon.right,
      fun x hx => Pairing.same_iff_outlineOf.1 (hcommon.same x hx),
      fun l hold hnew => Pairing.length_le_orderedPairs p hold hnew⟩

/-- Four blocks come in an order in which no three of them stood before, so two are moved, and two
    have to be. -/
theorem diff_keeps_most_crossing :
    let p : Profile := { id := "sh", lineComments := ["#"], strings := [.spanning "\""] }
    let old := build p .unseeded
      [⟨.doc, "# a\n", ⟨0, 4⟩⟩, ⟨.code, "x\n", ⟨4, 6⟩⟩, ⟨.doc, "# b\n", ⟨6, 10⟩⟩,
        ⟨.code, "y\n", ⟨10, 12⟩⟩]
    let new : Document :=
      { old with
        blocks :=
          [⟨⟨"b3"⟩, .doc, "# b\n"⟩, ⟨⟨"b1"⟩, .doc, "# a\n"⟩, ⟨⟨"b4"⟩, .code, "y\n"⟩,
            ⟨⟨"b2"⟩, .code, "x\n"⟩] }
    old.WellNamed ∧ old.ids.count + new.blocks.length < 2 ^ 64 ∧
      (old.diff new).ops = [.move ⟨"b3"⟩ none, .move ⟨"b4"⟩ (some ⟨"b1"⟩)] ∧
      ∀ g ops, (Pairing.ofBlocks old.blocks new.blocks).Realizes old.blocks new.blocks g ops →
        2 ≤ ops.countP PatchOp.isMove := by
  intro p old new
  have hold : old.WellNamed := wellNamed_build p .unseeded _
  have hroom : old.ids.count + new.blocks.length < 2 ^ 64 := by decide
  have hops : (old.diff new).ops = [.move ⟨"b3"⟩ none, .move ⟨"b4"⟩ (some ⟨"b1"⟩)] := by
    decide +kernel
  obtain ⟨-, ⟨-, hleast⟩, -⟩ := diff_keeps_most hold hroom
  have hcount : (old.diff new).ops.countP PatchOp.isMove = 2 := by
    rw [hops]
    rfl
  exact ⟨hold, hroom, hops, fun g ops h => hcount ▸ hleast g ops h⟩

end Document

end LiterateSync
