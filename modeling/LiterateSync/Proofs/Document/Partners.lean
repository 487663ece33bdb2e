import Mathlib.Data.List.Basic
import Mathlib.Data.List.Forall2
import Mathlib.Data.List.Nodup
import LiterateSync.Document.Pairing
import LiterateSync.Proofs.Document.CommonRun

namespace LiterateSync.Pairing

/-- Whether an old block at the index, if there is one, may become a block: the kind of a
    block cannot be changed. -/
def Fits (old : List Block) (b : Block) (partner : Option Nat) : Prop :=
  ∀ o ∈ partner, ∃ a, old[o]? = some a ∧ a.kind = b.kind

theorem Fits.none (old : List Block) (b : Block) : Fits old b none :=
  fun _ h => nomatch h

theorem fits_some_iff {old : List Block} {b : Block} {o : Nat} :
    Fits old b (some o) ↔ ∃ a, old[o]? = some a ∧ a.kind = b.kind := by
  simp [Fits]

/-- A pairing of two lists of blocks: each partner has the kind of its block, and belongs to
    no other block. -/
structure Sound (old new : List Block) (p : Pairing) : Prop where
  fits : List.Forall₂ (Fits old) new p
  nodup : p.taken.Nodup

@[simp] theorem taken_nil : taken [] = [] := rfl

@[simp] theorem taken_none (p : Pairing) : taken (none :: p) = p.taken := rfl

@[simp] theorem taken_some (o : Nat) (p : Pairing) : taken (some o :: p) = o :: p.taken := rfl

theorem Sound.cons_none {old new : List Block} {p : Pairing} (h : Sound old new p) (b : Block) :
    Sound old (b :: new) (none :: p) :=
  ⟨.cons (.none old b) h.fits, h.nodup⟩

theorem Sound.cons_some {old new : List Block} {p : Pairing} (h : Sound old new p) {b : Block}
    {o : Nat} (hfits : Fits old b (some o)) (hout : o ∉ p.taken) :
    Sound old (b :: new) (some o :: p) :=
  ⟨.cons hfits h.fits, List.nodup_cons.2 ⟨hout, h.nodup⟩⟩

theorem mem_taken_iff {p : Pairing} {o : Nat} : o ∈ p.taken ↔ ∃ n : Nat, p[n]? = some (some o) := by
  rw [taken, List.mem_filterMap]
  simp [List.mem_iff_getElem?]

/-- That no two blocks have one partner, said by their indexes. -/
theorem nodup_taken_iff {p : Pairing} : p.taken.Nodup ↔
    ∀ (m n o : Nat), p[m]? = some (some o) → p[n]? = some (some o) → m = n := by
  induction p with
  | nil => simp
  | cons partner p ih =>
    cases partner with
    | none =>
      rw [taken_none, ih]
      refine ⟨fun h m n o hm hn => ?_, fun h m n o hm hn => ?_⟩
      · cases m with
        | zero => simp at hm
        | succ m =>
          cases n with
          | zero => simp at hn
          | succ n => exact congrArg _ (h m n o (by simpa using hm) (by simpa using hn))
      · simpa using h (m + 1) (n + 1) o (by simpa using hm) (by simpa using hn)
    | some first =>
      rw [taken_some, List.nodup_cons, ih, mem_taken_iff]
      refine ⟨fun ⟨hfirst, h⟩ m n o hm hn => ?_, fun h => ⟨?_, fun m n o hm hn => ?_⟩⟩
      · cases m with
        | zero =>
          cases n with
          | zero => rfl
          | succ n =>
            obtain rfl : first = o := by simpa using hm
            exact absurd ⟨n, by simpa using hn⟩ hfirst
        | succ m =>
          cases n with
          | zero =>
            obtain rfl : first = o := by simpa using hn
            exact absurd ⟨m, by simpa using hm⟩ hfirst
          | succ n => exact congrArg _ (h m n o (by simpa using hm) (by simpa using hn))
      · rintro ⟨n, hn⟩
        have := h 0 (n + 1) first (by simp) (by simpa using hn)
        omega
      · simpa using h (m + 1) (n + 1) o (by simpa using hm) (by simpa using hn)

theorem mem_indexed {blocks : List Block} {i : Nat} {b : Block} :
    (i, b) ∈ indexed blocks ↔ blocks[i]? = some b := by
  simp only [indexed, List.mem_map, Prod.exists, Prod.mk.injEq]
  constructor
  · rintro ⟨c, j, hmem, rfl, rfl⟩
    simpa using List.mem_zipIdx_iff_getElem?.1 hmem
  · exact fun h => ⟨b, i, List.mem_zipIdx_iff_getElem?.2 (by simpa using h), rfl, rfl⟩

theorem map_fst_indexed (blocks : List Block) :
    (indexed blocks).map (·.1) = List.range blocks.length := by
  rw [indexed, List.map_map, List.range_eq_range']
  exact List.zipIdx_map_snd 0 blocks

theorem map_snd_indexed (blocks : List Block) : (indexed blocks).map (·.2) = blocks := by
  rw [indexed, List.map_map]
  exact List.zipIdx_map_fst 0 blocks

/-- The indexes of paired items. -/
theorem map_indexes_zip (xs ys : List (Nat × Block)) :
    (xs.zip ys).map (fun x => (x.1.1, x.2.1)) = (xs.map (·.1)).zip (ys.map (·.1)) := by
  rw [List.zip_map]
  rfl

theorem mem_freeOld {p : Pairing} {old : List Block} {o : Nat} {a : Block} :
    (o, a) ∈ p.freeOld old ↔ old[o]? = some a ∧ o ∉ p.taken := by
  simp [freeOld, mem_indexed]

theorem mem_freeNew {p : Pairing} {new : List Block} {n : Nat} {b : Block} :
    (n, b) ∈ p.freeNew new ↔ new[n]? = some b ∧ p[n]?.join = none := by
  simp [freeNew, mem_indexed]

theorem nodup_fst_freeOld (p : Pairing) (old : List Block) :
    ((p.freeOld old).map (·.1)).Nodup := by
  have hsub := (List.filter_sublist (p := fun x : Nat × Block => !p.taken.contains x.1)
    (l := indexed old)).map (·.1)
  exact hsub.nodup (map_fst_indexed old ▸ List.nodup_range)

theorem nodup_fst_freeNew (p : Pairing) (new : List Block) :
    ((p.freeNew new).map (·.1)).Nodup := by
  have hsub := (List.filter_sublist (p := fun x : Nat × Block => (p[x.1]?.join).isNone)
    (l := indexed new)).map (·.1)
  exact hsub.nodup (map_fst_indexed new ▸ List.nodup_range)

/-! ### By name -/

theorem sound_byName (old : List Block) (taken : List Nat) (new : List Block) :
    Sound old new (byName old taken new) ∧ ∀ o ∈ (byName old taken new).taken, o ∉ taken := by
  induction new generalizing taken with
  | nil => exact ⟨⟨.nil, .nil⟩, by simp [byName]⟩
  | cons b new ih =>
    rw [byName]
    split
    · rename_i o a hpartner
      obtain ⟨hfind, hfree⟩ := Option.filter_eq_some_iff.1 hpartner
      have hold : old[o]? = some a := by
        have hmem := List.mem_of_find?_eq_some hfind
        exact mem_indexed.1 (List.mem_reverse.1 hmem)
      simp only [Bool.and_eq_true, decide_eq_true_eq, Bool.not_eq_true',
        List.contains_eq_mem, decide_eq_false_iff_not] at hfree
      obtain ⟨hsound, havoid⟩ := ih (o :: taken)
      refine ⟨hsound.cons_some (fits_some_iff.2 ⟨a, hold, hfree.1⟩)
        fun hmem => havoid o hmem (by simp), fun i hi => ?_⟩
      rcases List.mem_cons.1 hi with rfl | hi
      · exact hfree.2
      · exact fun hmem => havoid i hi (List.mem_cons_of_mem o hmem)
    · obtain ⟨hsound, havoid⟩ := ih taken
      exact ⟨hsound.cons_none b, havoid⟩

/-! ### By content in order -/

theorem getElem?_add (pairs : List (Nat × Nat)) (p : Pairing) (n : Nat) :
    (p.add pairs)[n]? =
      p[n]?.map fun partner => partner <|> ((pairs.find? fun x => x.2 = n).map (·.1)) := by
  simp only [add, List.getElem?_map, List.getElem?_zipIdx, Option.map_map, Nat.zero_add]
  rfl

theorem of_getElem?_add {pairs : List (Nat × Nat)} {p : Pairing} {n o : Nat}
    (h : (p.add pairs)[n]? = some (some o)) : p[n]? = some (some o) ∨ (o, n) ∈ pairs := by
  rw [getElem?_add, Option.map_eq_some_iff] at h
  obtain ⟨partner, hpartner, hor⟩ := h
  cases partner with
  | some i => exact .inl (by simpa using hpartner.trans (congrArg some hor))
  | none =>
    obtain ⟨x, hx, rfl⟩ := Option.map_eq_some_iff.1 hor
    have hn : x.2 = n := by simpa using List.find?_some hx
    exact .inr (hn ▸ List.mem_of_find?_eq_some hx)

/-- Pairs of free blocks of one kind can be added, as long as no old block is in two of them. -/
theorem sound_add {old new : List Block} {p : Pairing} {pairs : List (Nat × Nat)}
    (hp : Sound old new p)
    (hpairs : ∀ x ∈ pairs, x.1 ∉ p.taken ∧ ∃ b, new[x.2]? = some b ∧ Fits old b (some x.1))
    (hnodup : (pairs.map (·.1)).Nodup) : Sound old new (p.add pairs) := by
  have hlength : (p.add pairs).length = p.length := by simp [add]
  refine ⟨List.forall₂_iff_get.2 ⟨hp.fits.length_eq.trans hlength.symm, ?_⟩, ?_⟩
  · intro n hnew hn o ho
    have hb : new[n]? = some (new.get ⟨n, hnew⟩) := List.getElem?_eq_getElem hnew
    have hget : (p.add pairs)[n]? = some (some o) := by
      rw [List.getElem?_eq_getElem hn]
      exact congrArg some ho
    rcases of_getElem?_add hget with hold | hpair
    · obtain ⟨hlt, hval⟩ := List.getElem?_eq_some_iff.1 hold
      exact (List.forall₂_iff_get.1 hp.fits).2 n hnew hlt o hval
    · obtain ⟨-, b, hbn, hfits⟩ := hpairs (o, n) hpair
      rw [hb, Option.some.injEq] at hbn
      exact hbn ▸ hfits o rfl
  · rw [nodup_taken_iff]
    intro m n o hm hn
    rcases of_getElem?_add hm with hm | hm <;> rcases of_getElem?_add hn with hn | hn
    · exact nodup_taken_iff.1 hp.nodup m n o hm hn
    · exact absurd (mem_taken_iff.2 ⟨m, hm⟩) (hpairs (o, n) hn).1
    · exact absurd (mem_taken_iff.2 ⟨n, hn⟩) (hpairs (o, m) hm).1
    · have := List.inj_on_of_nodup_map hnodup hm hn rfl
      exact congrArg Prod.snd this

theorem same_iff {a b : Block} : same a b = true ↔ a.kind = b.kind ∧ a.content = b.content := by
  simp [same]

theorem sound_inOrder {old new : List Block} {p : Pairing} (hp : Sound old new p) :
    Sound old new (p.inOrder old new) := by
  obtain ⟨hold, hnew, hsame⟩ := Subsequence.sublist_walk
    (fun a b : Nat × Block => same a.2 b.2) (p.freeOld old) (p.freeNew new)
    (Subsequence.lengths (fun a b : Nat × Block => same a.2 b.2) (p.freeOld old) (p.freeNew new))
  refine sound_add hp (fun x hx => ?_) ?_
  · obtain ⟨⟨⟨o, a⟩, n, b⟩, hmem, rfl⟩ := List.mem_map.1 hx
    obtain ⟨ha, hfree⟩ := mem_freeOld.1 (hold.subset (List.mem_map_of_mem hmem))
    obtain ⟨hb, -⟩ := mem_freeNew.1 (hnew.subset (List.mem_map_of_mem hmem))
    exact ⟨hfree, b, hb, fits_some_iff.2 ⟨a, ha, (same_iff.1 (hsame _ hmem)).1⟩⟩
  · rw [List.map_map]
    have hsub := hold.map (·.1)
    rw [List.map_map] at hsub
    exact hsub.nodup (nodup_fst_freeOld p old)

/-! ### By content anywhere -/

/-- The pass only gives partners to blocks that have none, and takes them from the free ones. -/
theorem sound_byContent {old : List Block} (free : List (Nat × Block))
    (new : List (Block × Option Nat))
    (hp : Sound old (new.map (·.1)) (new.map (·.2)))
    (hfree : ∀ x ∈ free, old[x.1]? = some x.2 ∧ x.1 ∉ taken (new.map (·.2))) :
    Sound old (new.map (·.1)) (byContent free new) ∧
      ∀ o ∈ (byContent free new).taken, o ∈ taken (new.map (·.2)) ∨ o ∈ free.map (·.1) := by
  induction new generalizing free with
  | nil => exact ⟨⟨.nil, .nil⟩, by simp [byContent]⟩
  | cons x new ih =>
    obtain ⟨b, partner⟩ := x
    obtain ⟨hfits, hnodup⟩ := hp
    rw [List.map_cons, List.map_cons, List.forall₂_cons] at hfits
    cases partner with
    | some o =>
      rw [List.map_cons, taken_some, List.nodup_cons] at hnodup
      obtain ⟨hsound, hfrom⟩ := ih free ⟨hfits.2, hnodup.2⟩ fun x hx =>
        ⟨(hfree x hx).1, fun hmem => (hfree x hx).2 (by simp [hmem])⟩
      rw [byContent]
      refine ⟨hsound.cons_some hfits.1 fun hmem => ?_, ?_⟩
      · rcases hfrom o hmem with hmem | hmem
        · exact hnodup.1 hmem
        · obtain ⟨y, hy, rfl⟩ := List.mem_map.1 hmem
          exact (hfree y hy).2 (by simp)
      · intro i hi
        rw [taken_some] at hi
        rcases List.mem_cons.1 hi with rfl | hi
        · exact .inl (by simp)
        · exact (hfrom i hi).imp_left fun hmem => by simp [hmem]
    | none =>
      rw [List.map_cons, taken_none] at hnodup
      rw [byContent]
      split
      · -- The partner leaves the free ones, and so cannot be given to a later block.
        rename_i o a hfind
        have hmem := List.mem_of_find?_eq_some hfind
        have hsame : same a b = true := by simpa using List.find?_some hfind
        obtain ⟨hold, hout⟩ := hfree (o, a) hmem
        obtain ⟨hsound, hfrom⟩ := ih (free.filter fun x => x.1 ≠ o)
          ⟨hfits.2, hnodup⟩ fun x hx => hfree x (List.mem_of_mem_filter hx)
        have hfit : Fits old b (some o) := fits_some_iff.2 ⟨a, hold, (same_iff.1 hsame).1⟩
        refine ⟨hsound.cons_some hfit fun hin => ?_, ?_⟩
        · rcases hfrom o hin with hin | hin
          · exact hout hin
          · obtain ⟨y, hy, hyo⟩ := List.mem_map.1 hin
            simpa [hyo] using (List.mem_filter.1 hy).2
        · intro i hi
          rw [taken_some] at hi
          rcases List.mem_cons.1 hi with rfl | hi
          · exact .inr (List.mem_map_of_mem hmem)
          · refine (hfrom i hi).imp_right fun hin => ?_
            exact ((List.filter_sublist (l := free)).map _).subset hin
      · obtain ⟨hsound, hfrom⟩ := ih free ⟨hfits.2, hnodup⟩ hfree
        exact ⟨hsound.cons_none b, hfrom⟩

/-! ### By place -/

theorem gapPartner?_eq_some {taken : List Nat} {kind : BlockKind} {old : List (Nat × Block)}
    {o : Nat} (h : gapPartner? taken kind old = some o) :
    o ∉ taken ∧ ∃ a, (o, a) ∈ old ∧ a.kind = kind := by
  induction old with
  | nil => cases h
  | cons x old ih =>
    obtain ⟨i, a⟩ := x
    rw [gapPartner?] at h
    split at h
    · cases h
    · rename_i hi
      split at h
      · rename_i hkind
        cases h
        exact ⟨by simpa using hi, a, by simp, hkind⟩
      · obtain ⟨hout, b, hb, hkind⟩ := ih h
        exact ⟨hout, b, List.mem_cons_of_mem _ hb, hkind⟩

theorem sound_byGap {old : List Block} (taken : List Nat) (floor : Nat)
    (new : List (Block × Option Nat))
    (hp : Sound old (new.map (·.1)) (new.map (·.2)))
    (htaken : ∀ o ∈ Pairing.taken (new.map (·.2)), o ∈ taken) :
    Sound old (new.map (·.1)) (byGap old taken floor new) ∧
      ∀ o ∈ (byGap old taken floor new).taken,
        o ∈ Pairing.taken (new.map (·.2)) ∨ o ∉ taken := by
  induction new generalizing taken floor with
  | nil => exact ⟨⟨.nil, .nil⟩, by simp [byGap]⟩
  | cons x new ih =>
    obtain ⟨b, partner⟩ := x
    obtain ⟨hfits, hnodup⟩ := hp
    rw [List.map_cons, List.map_cons, List.forall₂_cons] at hfits
    cases partner with
    | some o =>
      rw [List.map_cons, taken_some, List.nodup_cons] at hnodup
      obtain ⟨hsound, hfrom⟩ := ih taken (o + 1)
        ⟨hfits.2, hnodup.2⟩ fun i hi => htaken i (by simp [hi])
      rw [byGap]
      refine ⟨hsound.cons_some hfits.1 fun hmem => ?_, ?_⟩
      · rcases hfrom o hmem with hmem | hmem
        · exact hnodup.1 hmem
        · exact hmem (htaken o (by simp))
      · intro i hi
        rcases List.mem_cons.1 hi with rfl | hi
        · exact .inl (by simp)
        · exact (hfrom i hi).imp_left fun hmem => by simp [hmem]
    | none =>
      rw [List.map_cons, taken_none] at hnodup
      rw [byGap]
      split
      · rename_i o hgap
        obtain ⟨hout, a, ha, hkind⟩ := gapPartner?_eq_some hgap
        have hold := mem_indexed.1 ((List.drop_sublist floor (indexed old)).subset ha)
        obtain ⟨hsound, hfrom⟩ := ih (o :: taken) (o + 1)
          ⟨hfits.2, hnodup⟩ fun i hi => List.mem_cons_of_mem o (htaken i hi)
        refine ⟨hsound.cons_some (fits_some_iff.2 ⟨a, hold, hkind⟩) fun hmem => ?_, ?_⟩
        · rcases hfrom o hmem with hmem | hmem
          · exact hout (htaken o hmem)
          · exact hmem (by simp)
        · intro i hi
          rcases List.mem_cons.1 hi with rfl | hi
          · exact .inr hout
          · exact (hfrom i hi).imp_right fun hin hmem => hin (List.mem_cons_of_mem o hmem)
      · obtain ⟨hsound, hfrom⟩ := ih taken floor ⟨hfits.2, hnodup⟩ htaken
        exact ⟨hsound.cons_none b, hfrom⟩

/-! ### All passes -/

theorem Sound.length_eq {old new : List Block} {p : Pairing} (hp : Sound old new p) :
    new.length = p.length :=
  hp.fits.length_eq

theorem sound_ofBlocks (old new : List Block) : Sound old new (ofBlocks old new) := by
  have hordered := sound_inOrder (sound_byName old [] new).1
  set p := (byName old [] new).inOrder old new with hp
  have hfst : (new.zip p).map (·.1) = new := List.map_fst_zip (Nat.le_of_eq hordered.length_eq)
  have hsnd : (new.zip p).map (·.2) = p := List.map_snd_zip (Nat.le_of_eq hordered.length_eq.symm)
  have hmatched := (sound_byContent (p.freeOld old) (new.zip p)
    (by rwa [hfst, hsnd]) (fun x hx => by rwa [hsnd, ← mem_freeOld])).1
  rw [hfst] at hmatched
  set q := byContent (p.freeOld old) (new.zip p) with hq
  have hfst' : (new.zip q).map (·.1) = new := List.map_fst_zip (Nat.le_of_eq hmatched.length_eq)
  have hsnd' : (new.zip q).map (·.2) = q := List.map_snd_zip (Nat.le_of_eq hmatched.length_eq.symm)
  have hplaced := (sound_byGap q.taken 0 (new.zip q)
    (by rwa [hfst', hsnd']) (fun o ho => by rwa [hsnd'] at ho)).1
  rwa [hfst'] at hplaced

/-! ### Blocks that are all the same -/

/-- The pairing of each block with the one at its own index. -/
def identity (n : Nat) : Pairing :=
  (List.range n).map some

theorem byName_of_disjoint {old new : List Block} (taken : List Nat)
    (h : ∀ a ∈ old, ∀ b ∈ new, a.id ≠ b.id) :
    byName old taken new = List.replicate new.length none := by
  induction new with
  | nil => rfl
  | cons b new ih =>
    have hnone : ((indexed old).reverse.find? fun x => x.2.id = b.id) = none := by
      rw [List.find?_eq_none]
      rintro ⟨o, a⟩ hmem
      have ha := List.mem_of_getElem? (mem_indexed.1 (List.mem_reverse.1 hmem))
      simpa using h a ha b (by simp)
    have hrest := ih fun a ha c hc => h a ha c (List.mem_cons_of_mem b hc)
    simp only [byName, hnone, Option.filter_none, hrest, List.length_cons,
      List.replicate_succ]

theorem freeOld_of_taken_nil {p : Pairing} (hp : p.taken = []) (old : List Block) :
    p.freeOld old = indexed old := by
  simp [freeOld, hp]

theorem freeNew_replicate (new : List Block) :
    freeNew (List.replicate new.length none) new = indexed new := by
  refine List.filter_eq_self.2 ?_
  rintro ⟨n, b⟩ -
  simp only [Option.isNone_iff_eq_none]
  cases h : (List.replicate new.length (none : Option Nat))[n]? with
  | none => rfl
  | some partner =>
    have := List.mem_of_getElem? h
    simp_all

/-- No partner is found by content where no free block equals a block that is still alone. -/
theorem byContent_eq_map_snd {free : List (Nat × Block)} {new : List (Block × Option Nat)}
    (h : ∀ b, (b, none) ∈ new → ∀ x ∈ free, same x.2 b = false) :
    byContent free new = new.map (·.2) := by
  induction new with
  | nil => rfl
  | cons x new ih =>
    obtain ⟨b, partner⟩ := x
    have hrest := ih fun c hc => h c (List.mem_cons_of_mem _ hc)
    cases partner with
    | some o => rw [byContent, hrest, List.map_cons]
    | none =>
      have hnone : (free.find? fun x => same x.2 b) = none :=
        List.find?_eq_none.2 fun x hx => by simp [h b List.mem_cons_self x hx]
      simp only [byContent, hnone, hrest, List.map_cons]

theorem byGap_of_all_some (old : List Block) (taken : List Nat) (floor : Nat)
    {new : List (Block × Option Nat)} (h : ∀ x ∈ new, x.2.isSome) :
    byGap old taken floor new = new.map (·.2) := by
  induction new generalizing floor with
  | nil => rfl
  | cons x new ih =>
    obtain ⟨b, partner⟩ := x
    obtain ⟨o, rfl⟩ := Option.isSome_iff_exists.1 (h (b, partner) (by simp))
    rw [byGap, ih (o + 1) fun y hy => h y (List.mem_cons_of_mem _ hy), List.map_cons]

/-- Blocks without partners get those at their own indexes, where these are added. -/
theorem add_diagonal (indexes : List Nat) (n : Nat) :
    add (indexes.map fun i => (i, i)) (List.replicate n none) =
      (List.range n).map fun i => if i ∈ indexes then some i else none := by
  refine List.ext_getElem? fun i => ?_
  have hfind : ((indexes.map fun i => (i, i)).find? fun x => x.2 = i).map (·.1) =
      if i ∈ indexes then some i else none := by
    rw [List.find?_map, Option.map_map]
    simp only [Function.comp_def]
    cases hpair : indexes.find? fun j => j = i with
    | none =>
      have hout : i ∉ indexes := fun hi => by simpa using List.find?_eq_none.1 hpair i hi
      rw [if_neg hout, Option.map_none]
    | some j =>
      obtain rfl : j = i := by simpa using List.find?_some hpair
      rw [if_pos (List.mem_of_find?_eq_some hpair), Option.map_some]
  rw [getElem?_add, hfind]
  by_cases hi : i < n <;> simp [hi]

theorem inOrder_of_same {old new : List Block}
    (h : old.map (fun b => (b.kind, b.content)) = new.map (fun b => (b.kind, b.content))) :
    inOrder old new (List.replicate new.length none) = identity new.length := by
  have hlength : old.length = new.length := by simpa using congrArg List.length h
  have htaken : taken (List.replicate new.length none) = [] := by simp [taken]
  have hsame : List.Forall₂ (fun x y : Nat × Block => same x.2 y.2 = true)
      (indexed old) (indexed new) := by
    rw [← map_snd_indexed old, ← map_snd_indexed new, List.map_map, List.map_map,
      ← List.forall₂_eq_eq_eq, List.forall₂_map_left_iff, List.forall₂_map_right_iff] at h
    exact h.imp fun x y hxy => same_iff.2 (by simpa using hxy)
  have hpairs : ((indexed old).zip (indexed new)).map (fun x => (x.1.1, x.2.1)) =
      (List.range new.length).map fun i => (i, i) := by
    rw [map_indexes_zip, map_fst_indexed, map_fst_indexed, hlength, List.zip, List.zipWith_self]
  rw [inOrder, Subsequence.common, freeOld_of_taken_nil htaken, freeNew_replicate,
    Subsequence.walk_of_forall₂ _ hsame]
  change add (((indexed old).zip (indexed new)).map fun x => (x.1.1, x.2.1)) _ = _
  rw [hpairs, add_diagonal, identity]
  exact List.map_congr_left fun i hi => if_pos hi

/-- Lists that differ in their names alone, and in all of them, are paired index by index. -/
theorem ofBlocks_of_same {old new : List Block}
    (hsame : old.map (fun b => (b.kind, b.content)) = new.map (fun b => (b.kind, b.content)))
    (hdisjoint : ∀ a ∈ old, ∀ b ∈ new, a.id ≠ b.id) :
    ofBlocks old new = identity new.length := by
  have hsome : ∀ x ∈ new.zip (identity new.length), x.2.isSome := by
    rintro ⟨b, partner⟩ hx
    obtain ⟨o, -, rfl⟩ := List.mem_map.1 (List.of_mem_zip hx).2
    rfl
  have hpaired : ∀ b, (b, none) ∈ new.zip (identity new.length) →
      ∀ x ∈ freeOld (identity new.length) old, same x.2 b = false :=
    fun b hb => by simpa using hsome _ hb
  have hsnd : (new.zip (identity new.length)).map (·.2) = identity new.length :=
    List.map_snd_zip (by simp [identity])
  simp only [ofBlocks, byName_of_disjoint [] hdisjoint, inOrder_of_same hsame,
    byContent_eq_map_snd hpaired, hsnd, byGap_of_all_some _ _ _ hsome]

end LiterateSync.Pairing
