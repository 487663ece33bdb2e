import LiterateSync.Proofs.Document.Partners
import LiterateSync.Proofs.Document.RisingRun
import LiterateSync.Proofs.Document.Rows

namespace LiterateSync

/-- Blocks with distinct names are found at one index each. -/
theorem index_unique {blocks : List Block} (hnodup : (blocks.map (·.id)).Nodup) {i j : Nat}
    {a b : Block} (ha : blocks[i]? = some a) (hb : blocks[j]? = some b) (hid : a.id = b.id) :
    i = j := by
  have hi : (blocks.map (·.id))[i]? = some a.id := by simp [ha]
  have hj : (blocks.map (·.id))[j]? = some a.id := by simp [hb, hid]
  obtain ⟨hilt, hival⟩ := List.getElem?_eq_some_iff.1 hi
  obtain ⟨hjlt, hjval⟩ := List.getElem?_eq_some_iff.1 hj
  exact (hnodup.getElem_inj_iff).1 (hival.trans hjval.symm)

namespace Document

/-- Blocks that are there can all be deleted, and the others stay in their order. -/
theorem applyOps_deletions {blocks : List Block} (g : IdSource) {ids : List BlockId}
    (hblocks : (blocks.map (·.id)).Nodup) (hids : ids.Nodup)
    (hmem : ∀ id ∈ ids, id ∈ blocks.map (·.id)) :
    applyOps (ids.map .delete) blocks g = .ok (blocks.filter fun b => b.id ∉ ids, g) := by
  induction ids generalizing blocks with
  | nil => simp
  | cons id ids ih =>
    obtain ⟨hout, hothers⟩ := List.nodup_cons.1 hids
    obtain ⟨front, b, back, rfl, rfl, hfront⟩ := Block.exists_split (hmem id (by simp))
    have hsplit := hblocks
    rw [List.map_append, List.map_cons, List.nodup_middle, ← List.map_append, List.nodup_cons]
      at hsplit
    have happly : (PatchOp.delete b.id).apply (front ++ b :: back) = .ok (front ++ back) := by
      simp only [PatchOp.apply, Block.takeOut_append hfront]
    have hrest : ∀ id ∈ ids, id ∈ (front ++ back).map (·.id) := by
      intro id hid
      have hne : id ≠ b.id := fun heq => hout (heq ▸ hid)
      have := hmem id (List.mem_cons_of_mem _ hid)
      simp only [List.map_append, List.map_cons, List.mem_append, List.mem_cons, hne,
        false_or] at this ⊢
      exact this
    have hsame : ∀ c ∈ front ++ back, decide (c.id ∉ b.id :: ids) = decide (c.id ∉ ids) := by
      intro c hc
      have hne : c.id ≠ b.id := fun heq => hsplit.1 (heq ▸ List.mem_map_of_mem hc)
      simp [hne]
    have hobserve : (PatchOp.delete b.id).observe g = g := rfl
    rw [List.map_cons, applyOps_cons_of_ok g happly, hobserve, ih hsplit.2 hothers hrest,
      ← List.filter_congr hsame]
    simp [List.filter_append]

end Document

namespace Pairing

section Kept

variable {old new : List Block} {p : Pairing}

theorem exists_of_kept {row : Row} {a : Block} (hrow : row ∈ rows new p)
    (hkept : kept? old row = some a) :
    ∃ o : Nat, p[row.1]? = some (some o) ∧ old[o]? = some a := by
  obtain ⟨n, b, partner⟩ := row
  obtain ⟨o, rfl, ho⟩ := Option.bind_eq_some_iff.1 hkept
  exact ⟨o, (mem_rows.1 hrow).2, ho⟩

/-- An old block is the partner of one row at most. -/
theorem kept_unique (hold : (old.map (·.id)).Nodup) (hp : Sound old new p) {r s : Row}
    {a b : Block} (hr : r ∈ rows new p) (hs : s ∈ rows new p) (ha : kept? old r = some a)
    (hb : kept? old s = some b) (hid : a.id = b.id) : r.1 = s.1 := by
  obtain ⟨i, hi, hai⟩ := exists_of_kept hr ha
  obtain ⟨j, hj, hbj⟩ := exists_of_kept hs hb
  obtain rfl := index_unique hold hai hbj hid
  exact nodup_taken_iff.1 hp.nodup _ _ _ hi hj

/-- The old blocks that are kept, in the order of the new ones. -/
theorem filterMap_kept?_rows (h : new.length = p.length) :
    (rows new p).filterMap (kept? old) = p.taken.filterMap fun o => old[o]? := by
  have hpartners : (rows new p).map (·.2.2) = p := by
    have := congrArg (List.map (·.1)) (map_partner_rows h)
    rwa [List.map_map, List.zipIdx_map_fst] at this
  conv_rhs => rw [← hpartners, taken, List.filterMap_map, List.filterMap_filterMap]
  rfl

theorem nodup_kept (hold : (old.map (·.id)).Nodup) (hp : Sound old new p) :
    (((rows new p).filterMap (kept? old)).map (·.id)).Nodup := by
  rw [filterMap_kept?_rows hp.length_eq, List.map_filterMap]
  refine hp.nodup.filterMap fun i j id hi hj => ?_
  obtain ⟨a, ha, rfl⟩ := Option.map_eq_some_iff.1 hi
  obtain ⟨b, hb, hid⟩ := Option.map_eq_some_iff.1 hj
  exact index_unique hold ha hb hid.symm

theorem kinds_of_kept (hp : Sound old new p) :
    ∀ row ∈ rows new p, ∀ a ∈ kept? old row, a.kind = row.2.1.kind := by
  rintro ⟨n, b, partner⟩ hrow a ha
  obtain ⟨hb, hpartner⟩ := mem_rows.1 hrow
  obtain ⟨o, rfl, ho⟩ := Option.bind_eq_some_iff.1 ha
  obtain ⟨hnew, hbval⟩ := List.getElem?_eq_some_iff.1 hb
  obtain ⟨hlt, hpval⟩ := List.getElem?_eq_some_iff.1 hpartner
  have hfits := (List.forall₂_iff_get.1 hp.fits).2 n hnew hlt o hpval
  obtain ⟨c, hc, hkind⟩ := hfits
  rw [List.get_eq_getElem, hbval] at hkind
  rw [ho, Option.some.injEq] at hc
  exact hc ▸ hkind

/-- The names of the old blocks without a partner. -/
def freeIds (p : Pairing) (old : List Block) : List BlockId :=
  (p.freeOld old).map (·.2.id)

theorem deletions_eq (p : Pairing) (old : List Block) :
    p.deletions old = (p.freeIds old).map .delete := by
  rw [deletions, freeIds, List.map_map]
  rfl

theorem nodup_freeIds (hold : (old.map (·.id)).Nodup) (p : Pairing) : (p.freeIds old).Nodup := by
  have hsub := (List.filter_sublist (p := fun x : Nat × Block => !p.taken.contains x.1)
    (l := indexed old)).map (·.2.id)
  refine hsub.nodup ?_
  have := congrArg (List.map (·.id)) (map_snd_indexed old)
  rw [List.map_map] at this
  exact this ▸ hold

theorem freeIds_subset (p : Pairing) (old : List Block) :
    ∀ id ∈ p.freeIds old, id ∈ old.map (·.id) := by
  intro id hid
  obtain ⟨⟨o, a⟩, hmem, rfl⟩ := List.mem_map.1 hid
  exact List.mem_map_of_mem (List.mem_of_getElem? (mem_freeOld.1 hmem).1)

/-- A block that is kept is not one of those without a partner. -/
theorem id_not_mem_freeIds (hold : (old.map (·.id)).Nodup) {row : Row} {a : Block}
    (hrow : row ∈ rows new p) (hkept : kept? old row = some a) : a.id ∉ p.freeIds old := by
  intro hid
  obtain ⟨⟨o, b⟩, hmem, hb⟩ := List.mem_map.1 hid
  obtain ⟨ho, hfree⟩ := mem_freeOld.1 hmem
  obtain ⟨i, hi, hai⟩ := exists_of_kept hrow hkept
  obtain rfl := index_unique hold ho hai hb
  exact hfree (mem_taken_iff.2 ⟨row.1, hi⟩)

/-- Each old block is without a partner or kept in some row. -/
theorem exists_kept_of_mem (hp : Sound old new p) {a : Block} (ha : a ∈ old)
    (hfree : a.id ∉ p.freeIds old) : ∃ row ∈ rows new p, kept? old row = some a := by
  obtain ⟨o, ho⟩ := List.getElem?_of_mem ha
  have htaken : o ∈ p.taken := by
    by_contra hout
    exact hfree (List.mem_map.2 ⟨(o, a), mem_freeOld.2 ⟨ho, hout⟩, rfl⟩)
  obtain ⟨n, hn⟩ := mem_taken_iff.1 htaken
  have hlt : n < new.length := by
    rw [hp.length_eq]
    exact (List.getElem?_eq_some_iff.1 hn).1
  exact ⟨(n, new[n], some o), mem_rows.2 ⟨List.getElem?_eq_getElem hlt, hn⟩, ho⟩

theorem getElem?_of_mem_pairs {x : Nat × Nat} (hx : x ∈ p.pairs) :
    p[x.1]? = some (some x.2) := by
  obtain ⟨⟨partner, n⟩, hzip, hpartner⟩ := List.mem_filterMap.1 hx
  obtain ⟨o, rfl, rfl⟩ := Option.map_eq_some_iff.1 hpartner
  exact List.mem_zipIdx_iff_getElem?.1 hzip

theorem lt_length_of_mem_pairs (hp : Sound old new p) {x : Nat × Nat} (hx : x ∈ p.pairs) :
    x.2 < old.length := by
  obtain ⟨hlt, hval⟩ := List.getElem?_eq_some_iff.1 (getElem?_of_mem_pairs hx)
  have hnew : x.1 < new.length := hp.length_eq ▸ hlt
  obtain ⟨a, ha, -⟩ := (List.forall₂_iff_get.1 hp.fits).2 x.1 hnew hlt x.2 hval
  exact (List.getElem?_eq_some_iff.1 ha).1

/-- The blocks that stay are met in their old order, since their old indexes rise. -/
theorem sublist_stayers (hp : Sound old new p) :
    (stayers old (Subsequence.longestRising p.pairs) (rows new p)).Sublist old := by
  obtain ⟨run, hsub, hrising, hstaying⟩ := Subsequence.exists_rising_eq_longestRising p.pairs
  rw [stayers_rows hp.length_eq, hstaying, filter_key_eq_of_sublist hsub (nodup_fst_pairs p)]
  refine sublist_filterMap_getElem? (List.pairwise_map.2 hrising) fun o ho => ?_
  obtain ⟨x, hx, rfl⟩ := List.mem_map.1 ho
  exact lt_length_of_mem_pairs hp (hsub.subset hx)

/-- With the blocks without a partner deleted, the layout can begin. -/
theorem underway_of_sound (hold : (old.map (·.id)).Nodup) (hp : Sound old new p) {g : IdSource}
    (hcovers : g.Covers old) :
    Underway old (Subsequence.longestRising p.pairs) (rows new p) g
      (old.filter fun b => b.id ∉ p.freeIds old) [] := by
  set staying := Subsequence.longestRising p.pairs with hstaying
  have hsub : (old.filter fun b => b.id ∉ p.freeIds old).Sublist old := List.filter_sublist
  refine ⟨⟨(hsub.map _).nodup hold, fun b hb => hcovers.number_le b (hsub.subset hb)⟩, ?_, ?_⟩
  · intro a ha
    obtain ⟨row, hrow, hkept⟩ := List.mem_filterMap.1 ha
    have hrow := List.mem_of_mem_filter hrow
    obtain ⟨o, -, ho⟩ := exists_of_kept hrow hkept
    refine List.mem_filter.2 ⟨List.mem_of_getElem? ho, ?_⟩
    exact decide_eq_true (id_not_mem_freeIds hold hrow hkept)
  · refine eq_of_sublist_of_mem_iff (List.filter_sublist.trans hsub) (sublist_stayers hp) hold ?_
    intro a
    constructor
    · intro ha
      obtain ⟨hin, hsettled⟩ := List.mem_filter.1 ha
      obtain ⟨haold, hfree⟩ := List.mem_filter.1 hin
      obtain ⟨row, hrow, hkept⟩ := exists_kept_of_mem hp haold (of_decide_eq_true hfree)
      refine List.mem_filterMap.2 ⟨row, List.mem_filter.2 ⟨hrow, ?_⟩, hkept⟩
      by_contra hmoves
      refine of_decide_eq_true hsettled (List.mem_map_of_mem ?_)
      exact List.mem_filterMap.2 ⟨row, List.mem_filter.2 ⟨hrow, by simpa using hmoves⟩, hkept⟩
    · intro ha
      obtain ⟨row, hrow, hkept⟩ := List.mem_filterMap.1 ha
      obtain ⟨hrow, hstays⟩ := List.mem_filter.1 hrow
      obtain ⟨o, -, ho⟩ := exists_of_kept hrow hkept
      refine List.mem_filter.2 ⟨List.mem_filter.2 ⟨List.mem_of_getElem? ho, ?_⟩, ?_⟩
      · exact decide_eq_true (id_not_mem_freeIds hold hrow hkept)
      · refine decide_eq_true fun hmem => ?_
        obtain ⟨b, hb, hid⟩ := List.mem_map.1 hmem
        obtain ⟨other, hother, hbkept⟩ := List.mem_filterMap.1 hb
        obtain ⟨hother, hmoves⟩ := List.mem_filter.1 hother
        have heq := kept_unique hold hp hother hrow hbkept hkept hid
        simp_all

end Kept

section Identity

theorem taken_identity (n : Nat) : (identity n).taken = List.range n := by
  simp [taken, identity]

theorem pairs_identity (n : Nat) : (identity n).pairs = (List.range n).map fun i => (i, i) := by
  have hzip : (List.range n).zipIdx = (List.range n).map fun i => (i, i) := by
    rw [List.zipIdx_eq_zip_range', List.length_range, ← List.range_eq_range', List.zip,
      List.zipWith_self]
  rw [pairs, identity, List.zipIdx_map, hzip, List.map_map, List.filterMap_map,
    ← List.filterMap_eq_map]
  rfl

theorem longestRising_identity (n : Nat) :
    Subsequence.longestRising (identity n).pairs = List.range n := by
  have hrising : (identity n).pairs.Pairwise fun x y => x.2 < y.2 := by
    rw [pairs_identity, List.pairwise_map]
    exact List.pairwise_lt_range
  rw [Subsequence.longestRising_of_rising hrising, pairs_identity, List.map_map]
  exact List.map_id _

theorem freeOld_identity (old : List Block) : (identity old.length).freeOld old = [] := by
  rw [freeOld, List.filter_eq_nil_iff]
  rintro ⟨o, a⟩ hmem
  have hlt := (List.getElem?_eq_some_iff.1 (mem_indexed.1 hmem)).1
  simpa [taken_identity] using hlt

/-- What is done to the content of a block that stays where it is. -/
def rewriting (a b : Block) : List PatchOp :=
  if a.content = b.content then [] else [.replace a.id b.content]

/-- Where every block stays, the layout is no more than the contents that are new. -/
theorem layOut_of_stays {old partners : List Block} {staying : List Nat} {rows : List Row}
    (g : IdSource) (after : Option BlockId)
    (h : List.Forall₂ (fun row a => row.1 ∈ staying ∧ kept? old row = some a) rows partners) :
    layOut old staying g after rows =
      (partners.zip (rows.map (·.2.1))).flatMap fun x => rewriting x.1 x.2 := by
  induction h generalizing after with
  | nil => rfl
  | @cons row a rows partners hrow _ ih =>
    obtain ⟨n, b, partner⟩ := row
    obtain ⟨hstays, hkept⟩ := hrow
    have hwrite : keep (staying.contains n) after a b = rewriting a b := by
      rw [keep, List.contains_iff_mem.2 hstays, rewriting, if_pos rfl, List.nil_append]
    rw [kept?] at hkept
    simp only [layOut, hkept, hwrite, ih (some a.id), List.map_cons, List.zip_cons_cons,
      List.flatMap_cons]

/-- Blocks that are paired index by index all stay. -/
theorem layOut_identity {old new : List Block} (g : IdSource) (after : Option BlockId)
    (hlength : old.length = new.length) :
    layOut old (Subsequence.longestRising (identity new.length).pairs) g after
        (rows new (identity new.length)) =
      (old.zip new).flatMap fun x => rewriting x.1 x.2 := by
  have hpartners : new.length = (identity new.length).length := by simp [identity]
  have hrows : List.Forall₂
      (fun row a => row.1 ∈ List.range new.length ∧ kept? old row = some a)
      (rows new (identity new.length)) old := by
    refine List.forall₂_iff_get.2
      ⟨(length_rows hpartners).trans hlength.symm, fun n hrow hold => ?_⟩
    have hnew : n < new.length := hlength ▸ hold
    have hget : (rows new (identity new.length)).get ⟨n, hrow⟩ = (n, new[n], some n) := by
      simp [rows, identity]
    rw [hget]
    exact ⟨List.mem_range.2 hnew, List.getElem?_eq_getElem hold⟩
  rw [longestRising_identity, layOut_of_stays g after hrows, map_block_rows hpartners]

end Identity

end Pairing

end LiterateSync
