import LiterateSync.Proofs.Document.DiffApply

namespace LiterateSync.Pairing

/-! ### Blocks that are all the same but for one -/

section Holed

variable {old new front back front' back' : List Block} {a b : Block}

/-- The pairing of each block with the one at its own index, but for the one at index `i`. There
    are `m` blocks behind that one. -/
def holed (i m : Nat) : Pairing :=
  (List.range i).map some ++ none :: (List.range' (i + 1) m).map some

theorem length_holed (i m : Nat) : (holed i m).length = i + (m + 1) := by
  simp [holed]

theorem taken_holed (i m : Nat) : (holed i m).taken = List.range i ++ List.range' (i + 1) m := by
  simp [holed, taken, List.filterMap_append]

theorem range_eq_append (i m : Nat) :
    List.range (i + (m + 1)) = List.range i ++ i :: List.range' (i + 1) m := by
  rw [List.range_eq_range', ← List.range'_append_1, List.range'_succ, Nat.zero_add,
    ← List.range_eq_range']

/-- The pairing is the one by index, without the index that is left out. -/
theorem map_range_eq_holed (i m : Nat) :
    ((List.range (i + (m + 1))).map fun j =>
      if j ∈ List.range i ++ List.range' (i + 1) m then some j else none) = holed i m := by
  rw [range_eq_append, List.map_append, List.map_cons, if_neg (by simp), holed,
    List.map_congr_left fun j hj => if_pos (List.mem_append_left _ hj),
    List.map_congr_left fun j hj => if_pos (List.mem_append_right _ hj)]

theorem indexed_append (front back : List Block) :
    indexed (front ++ back) =
      indexed front ++ (back.zipIdx front.length).map fun (b, i) => (i, b) := by
  rw [indexed, List.zipIdx_append, List.map_append, Nat.zero_add]
  rfl

theorem map_fst_zipIdx (blocks : List Block) (n : Nat) :
    ((blocks.zipIdx n).map fun (b, i) => (i, b)).map (·.1) = List.range' n blocks.length := by
  rw [List.map_map]
  exact List.zipIdx_map_snd n blocks

/-- Blocks that are the same one by one are so with their indexes. -/
theorem forall₂_zipIdx (n : Nat) (h : List.Forall₂ (fun c d => same c d = true) old new) :
    List.Forall₂ (fun x y : Nat × Block => same x.2 y.2 = true)
      ((old.zipIdx n).map fun (b, i) => (i, b)) ((new.zipIdx n).map fun (b, i) => (i, b)) := by
  induction h generalizing n with
  | nil => exact .nil
  | cons hsame _ ih => exact .cons hsame (ih (n + 1))

/-- Equal blocks are paired in order around the one that differs. -/
theorem inOrder_of_one_differs
    (hfront : List.Forall₂ (fun c d => same c d = true) front front')
    (hdiffers : same a b = false)
    (hback : List.Forall₂ (fun c d => same c d = true) back back')
    (hnew : ∀ c ∈ back, same c b = false) :
    inOrder (front ++ a :: back) (front' ++ b :: back')
        (List.replicate (front' ++ b :: back').length none) =
      holed front.length back.length := by
  have hlength : front.length = front'.length := hfront.length_eq
  have hlength' : back.length = back'.length := hback.length_eq
  have hrun : Subsequence.common (fun x y : Nat × Block => same x.2 y.2)
      (indexed (front ++ a :: back)) (indexed (front' ++ b :: back')) =
        (indexed front).zip (indexed front') ++
          ((back.zipIdx (front.length + 1)).map fun (b, i) => (i, b)).zip
            ((back'.zipIdx (front.length + 1)).map fun (b, i) => (i, b)) := by
    rw [indexed_append, indexed_append, ← hlength]
    refine Subsequence.common_of_one_differs (forall₂_zipIdx 0 hfront) hdiffers
      (forall₂_zipIdx _ hback) fun z hz => ?_
    obtain ⟨⟨c, j⟩, hmem, rfl⟩ := List.mem_map.1 hz
    exact hnew c (List.fst_mem_of_mem_zipIdx hmem)
  have hpairs : (Subsequence.common (fun x y : Nat × Block => same x.2 y.2)
      (indexed (front ++ a :: back)) (indexed (front' ++ b :: back'))).map
        (fun x => (x.1.1, x.2.1)) =
      (List.range front.length ++ List.range' (front.length + 1) back.length).map
        fun i => (i, i) := by
    rw [hrun, List.map_append, map_indexes_zip, map_indexes_zip, map_fst_indexed,
      map_fst_indexed, map_fst_zipIdx, map_fst_zipIdx, ← hlength, ← hlength']
    simp only [List.zip, List.zipWith_self, List.map_append]
  rw [inOrder, freeOld_of_taken_nil (by simp [taken]), freeNew_replicate]
  change add ((Subsequence.common (fun x y : Nat × Block => same x.2 y.2)
    (indexed (front ++ a :: back)) (indexed (front' ++ b :: back'))).map
      fun (x : (Nat × Block) × Nat × Block) => (x.1.1, x.2.1)) _ = _
  rw [hpairs, add_diagonal, List.length_append, List.length_cons, ← hlength, ← hlength',
    ← map_range_eq_holed]

/-- Blocks that have the partners at their own indexes keep these, and the search for the next
    block goes on behind them. -/
theorem byGap_append_diagonal (taken : List Nat) (k : Nat) (front : List Block)
    (rest : List (Block × Option Nat)) :
    byGap old taken k (front.zip ((List.range' k front.length).map some) ++ rest) =
      (List.range' k front.length).map some ++ byGap old taken (k + front.length) rest := by
  induction front generalizing k with
  | nil => rfl
  | cons c front ih =>
    rw [List.length_cons, List.range'_succ, List.map_cons, List.zip_cons_cons, List.cons_append,
      byGap, ih (k + 1), List.cons_append, Nat.add_right_comm, Nat.add_assoc]

theorem drop_indexed (front : List Block) (a : Block) (back : List Block) :
    (indexed (front ++ a :: back)).drop front.length =
      (front.length, a) :: (back.zipIdx (front.length + 1)).map fun (b, i) => (i, b) := by
  have hfront : front.length = (indexed front).length := by simp [indexed]
  rw [indexed_append, List.drop_append_of_le_length (Nat.le_of_eq hfront), hfront, List.drop_length]
  rfl

theorem freeOld_of_holed (front : List Block) (a : Block) (back : List Block) :
    (holed front.length back.length).freeOld (front ++ a :: back) = [(front.length, a)] := by
  have hleading : (indexed front).filter (fun x =>
      !(holed front.length back.length).taken.contains x.1) = [] := by
    rw [List.filter_eq_nil_iff]
    rintro ⟨o, c⟩ hmem
    have hlt := (List.getElem?_eq_some_iff.1 (mem_indexed.1 hmem)).1
    simp [taken_holed, hlt]
  have htrailing : ((back.zipIdx (front.length + 1)).map fun (b, i) => (i, b)).filter
      (fun x => !(holed front.length back.length).taken.contains x.1) = [] := by
    rw [List.filter_eq_nil_iff]
    intro x hmem
    have hindex := List.mem_map_of_mem (f := (·.1)) hmem
    rw [map_fst_zipIdx] at hindex
    simp [taken_holed, hindex]
  have hsplit : indexed (front ++ a :: back) = indexed front ++ (front.length, a) ::
      (back.zipIdx (front.length + 1)).map fun (b, i) => (i, b) := indexed_append front (a :: back)
  change (indexed (front ++ a :: back)).filter (fun x =>
    !(holed front.length back.length).taken.contains x.1) = _
  rw [hsplit, List.filter_append, hleading, List.filter_cons_of_pos (by simp [taken_holed]),
    htrailing, List.nil_append]

/-- The one block that is left gets the partner at its own index, which the search for a place
    comes to first. -/
theorem ofBlocks_of_one_differs
    (hdisjoint : ∀ c ∈ front ++ a :: back, ∀ d ∈ front' ++ b :: back', c.id ≠ d.id)
    (hfront : List.Forall₂ (fun c d => same c d = true) front front')
    (hkind : a.kind = b.kind) (hdiffers : same a b = false)
    (hback : List.Forall₂ (fun c d => same c d = true) back back')
    (hnew : ∀ c ∈ back, same c b = false) :
    ofBlocks (front ++ a :: back) (front' ++ b :: back') =
      identity (front' ++ b :: back').length := by
  have hlength : front.length = front'.length := hfront.length_eq
  have hlength' : back.length = back'.length := hback.length_eq
  set p := holed front.length back.length with hp
  have hzip : (front' ++ b :: back').zip p =
      front'.zip ((List.range' 0 front'.length).map some) ++
        (b, none) :: back'.zip ((List.range' (front.length + 1) back'.length).map some) := by
    rw [hp, holed, List.zip_append (by simp [hlength]), List.zip_cons_cons, ← List.range_eq_range',
      hlength, hlength']
  have hsome : ∀ (blocks : List Block) (k : Nat),
      ∀ x ∈ blocks.zip ((List.range' k blocks.length).map some), x.2.isSome := by
    rintro blocks k ⟨c, partner⟩ hx
    obtain ⟨o, -, rfl⟩ := List.mem_map.1 (List.of_mem_zip hx).2
    rfl
  have hsnd : ((front' ++ b :: back').zip p).map (·.2) = p :=
    List.map_snd_zip (by simp [hp, length_holed, hlength, hlength'])
  have hcontent : byContent (p.freeOld (front ++ a :: back)) ((front' ++ b :: back').zip p) = p := by
    rw [byContent_eq_map_snd, hsnd]
    intro c hc x hx
    have hcb : c = b := by
      rw [hzip, List.mem_append, List.mem_cons] at hc
      rcases hc with hc | hc | hc
      · simpa using hsome _ _ _ hc
      · exact congrArg Prod.fst hc
      · simpa using hsome _ _ _ hc
    rw [freeOld_of_holed, List.mem_singleton] at hx
    rw [hcb, hx]
    exact hdiffers
  have hgap : gapPartner? p.taken b.kind ((indexed (front ++ a :: back)).drop front.length) =
      some front.length := by
    rw [drop_indexed, gapPartner?, if_neg (by simp [hp, taken_holed]), if_pos hkind]
  simp only [ofBlocks, byName_of_disjoint [] hdisjoint,
    inOrder_of_one_differs hfront hdiffers hback hnew, ← hp, hcontent]
  rw [hzip, byGap_append_diagonal, Nat.zero_add, byGap, ← hlength, hgap]
  simp only [byGap_of_all_some _ _ _ (hsome _ _)]
  rw [List.map_snd_zip (by simp), ← List.range_eq_range', ← hlength', identity, List.length_append,
    List.length_cons, ← hlength, ← hlength', range_eq_append, List.map_append, List.map_cons]

end Holed

end LiterateSync.Pairing

namespace LiterateSync.Document

variable {old new : Document} {front back front' back' : List Block} {a b : Block}

/-- Around the one block that differs all contents stay, so that it alone is replaced. -/
theorem diff_of_one_differs (hold : old.blocks = front ++ a :: back)
    (hnew : new.blocks = front' ++ b :: back')
    (hdisjoint : ∀ c ∈ old.blocks, ∀ d ∈ new.blocks, c.id ≠ d.id)
    (hfront : List.Forall₂ (fun c d => Pairing.same c d = true) front front')
    (hkind : a.kind = b.kind) (hedited : a.content ≠ b.content)
    (hback : List.Forall₂ (fun c d => Pairing.same c d = true) back back')
    (hlater : ∀ c ∈ back, Pairing.same c b = false) :
    old.diff new = ⟨old.revision, [.replace a.id b.content]⟩ := by
  have hlength : old.blocks.length = new.blocks.length := by
    simp [hold, hnew, hfront.length_eq, hback.length_eq]
  have hpairing : Pairing.ofBlocks old.blocks new.blocks = Pairing.identity new.blocks.length := by
    rw [hold, hnew] at hdisjoint
    rw [hold, hnew]
    exact Pairing.ofBlocks_of_one_differs hdisjoint hfront hkind (by simp [Pairing.same, hedited])
      hback hlater
  have hstill : ∀ {cs ds : List Block}, List.Forall₂ (fun c d => Pairing.same c d = true) cs ds →
      ((cs.zip ds).flatMap fun x => Pairing.rewriting x.1 x.2) = [] := by
    intro cs ds h
    rw [List.flatMap_eq_nil_iff]
    rintro ⟨c, d⟩ hmem
    exact if_pos (Pairing.same_iff.1 (List.forall₂_zip h hmem)).2
  have hwrite : Pairing.rewriting a b = [.replace a.id b.content] := if_neg hedited
  rw [diff_of_identity hpairing hlength, hold, hnew, List.zip_append hfront.length_eq,
    List.zip_cons_cons, List.flatMap_append, List.flatMap_cons, hstill hfront, hstill hback]
  simp only [hwrite, List.append_nil, List.nil_append]

/-- Lists of one length whose items are related at every index are related. -/
theorem forall₂_of_getElem? {r : Block → Block → Prop} {cs ds : List Block}
    (hlength : cs.length = ds.length)
    (h : ∀ (j : Nat) c d, cs[j]? = some c → ds[j]? = some d → r c d) : List.Forall₂ r cs ds :=
  List.forall₂_iff_get.2 ⟨hlength, fun j hc hd =>
    h j _ _ (List.getElem?_eq_getElem hc) (List.getElem?_eq_getElem hd)⟩

/-- An edit of one block is one replacement of its content: around it, blocks keep their names,
    also where their contents are repeated. Only the content that is new at the place must not
    come up behind it in a block of the same kind. -/
theorem diff_of_single_edit {i : Nat}
    (hdisjoint : ∀ c ∈ old.blocks, ∀ d ∈ new.blocks, c.id ≠ d.id)
    (hlength : old.blocks.length = new.blocks.length)
    (hkinds : ∀ (j : Nat) c d, old.blocks[j]? = some c → new.blocks[j]? = some d → c.kind = d.kind)
    (hcontents : ∀ (j : Nat) c d, j ≠ i → old.blocks[j]? = some c → new.blocks[j]? = some d →
      c.content = d.content)
    (ha : old.blocks[i]? = some a) (hb : new.blocks[i]? = some b)
    (hedited : a.content ≠ b.content)
    (hlater : ∀ (j : Nat) c, i < j → old.blocks[j]? = some c → c.kind = b.kind →
      c.content ≠ b.content) :
    old.diff new = ⟨old.revision, [.replace a.id b.content]⟩ := by
  have hsplit : ∀ {blocks : List Block} {c : Block}, blocks[i]? = some c →
      blocks = blocks.take i ++ c :: blocks.drop (i + 1) := by
    intro blocks c hc
    obtain ⟨hlt, rfl⟩ := List.getElem?_eq_some_iff.1 hc
    rw [List.getElem_cons_drop, List.take_append_drop]
  refine diff_of_one_differs (hsplit ha) (hsplit hb) hdisjoint ?_ (hkinds i a b ha hb) hedited ?_ ?_
  · refine forall₂_of_getElem? (by simp [hlength]) fun j c d hc hd => ?_
    rw [List.getElem?_take, Option.ite_none_right_eq_some] at hc hd
    obtain ⟨hj, hc⟩ := hc
    obtain ⟨-, hd⟩ := hd
    exact Pairing.same_iff.2 ⟨hkinds j c d hc hd, hcontents j c d (Nat.ne_of_lt hj) hc hd⟩
  · refine forall₂_of_getElem? (by simp [hlength]) fun j c d hc hd => ?_
    rw [List.getElem?_drop] at hc hd
    exact Pairing.same_iff.2 ⟨hkinds _ c d hc hd, hcontents _ c d (by omega) hc hd⟩
  · intro c hc
    obtain ⟨j, hj⟩ := List.getElem?_of_mem hc
    rw [List.getElem?_drop] at hj
    rw [Bool.eq_false_iff, Ne, Pairing.same_iff]
    rintro ⟨hkind, hcontent⟩
    exact hlater (i + 1 + j) c (by omega) hj hkind hcontent

/-- The new content stands in a block before the edited one, and the content that it takes the
    place of comes up again behind it, as does the one in front of it. -/
theorem diff_of_single_edit_among_repeats :
    let p : Profile := { id := "sh", lineComments := ["#"], strings := [.spanning "\""] }
    let segments (code : String) : List Segment :=
      [⟨.code, "y\n", ⟨0, 2⟩⟩, ⟨.doc, "# a\n", ⟨2, 6⟩⟩, ⟨.code, code, ⟨6, 8⟩⟩,
        ⟨.doc, "# a\n", ⟨8, 12⟩⟩, ⟨.code, "x\n", ⟨12, 14⟩⟩]
    let old := build p .unseeded (segments "x\n")
    let new := build p (.seeded "view") (segments "y\n")
    old.blocks.length = new.blocks.length ∧
      old.blocks[2]? = some ⟨⟨"b3"⟩, .code, "x\n"⟩ ∧
      new.blocks[2]? = some ⟨⟨"view-b3"⟩, .code, "y\n"⟩ ∧
      old.diff new = ⟨0, [.replace ⟨"b3"⟩ "y\n"]⟩ := by
  intro p segments old new
  have hagree : ∀ j < 5, ∀ c ∈ old.blocks[j]?, ∀ d ∈ new.blocks[j]?,
      c.kind = d.kind ∧ (j ≠ 2 → c.content = d.content) ∧
        (2 < j → c.kind = .code → c.content ≠ "y\n") := by decide
  have hbound : ∀ (j : Nat) c, old.blocks[j]? = some c → j < 5 :=
    fun j c hc => (List.getElem?_eq_some_iff.1 hc).1
  have hpair : ∀ (j : Nat) c, old.blocks[j]? = some c → ∃ d, new.blocks[j]? = some d :=
    fun j c hc => ⟨_, List.getElem?_eq_getElem (hbound j c hc)⟩
  have hold : old.blocks[2]? = some ⟨⟨"b3"⟩, .code, "x\n"⟩ := by decide
  have hnew : new.blocks[2]? = some ⟨⟨"view-b3"⟩, .code, "y\n"⟩ := by decide
  refine ⟨by decide, hold, hnew, diff_of_single_edit (by decide) (by decide)
    (fun j c d hc hd => (hagree j (hbound j c hc) c hc d hd).1)
    (fun j c d hj hc hd => (hagree j (hbound j c hc) c hc d hd).2.1 hj) hold hnew (by decide)
    fun j c hj hc hkind => ?_⟩
  obtain ⟨d, hd⟩ := hpair j c hc
  exact (hagree j (hbound j c hc) c hc d hd).2.2 hj hkind

end LiterateSync.Document
