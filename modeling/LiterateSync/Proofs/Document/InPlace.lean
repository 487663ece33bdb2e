import LiterateSync.Document.InPlace
import LiterateSync.Proofs.Document.Edits

namespace LiterateSync

namespace Block

variable {front back blocks : List Block} {b : Block}

theorem insertIdx_append (front back : List Block) (b : Block) :
    (front ++ back).insertIdx front.length b = front ++ b :: back := by
  induction front with
  | nil => simp
  | cons c front ih => simp [ih]

theorem eraseIdx_append (front back : List Block) (b : Block) :
    (front ++ b :: back).eraseIdx front.length = front ++ back := by
  rw [List.eraseIdx_append_of_length_le (Nat.le_refl _), Nat.sub_self, List.eraseIdx_cons_zero]

theorem modify_append (front back : List Block) (b : Block) (f : Block → Block) :
    (front ++ b :: back).modify front.length f = front ++ f b :: back := by
  induction front with
  | nil => simp
  | cons c front ih => simp [ih]

/-- A place has an index, or else the block that should stand before it is missing. -/
theorem placeIndex_cases (b : Block) (after : Option BlockId) (blocks : List Block) :
    (∃ i, placeIndex blocks after = .ok i ∧ b.place after blocks = some (blocks.insertIdx i b)) ∨
      ∃ anchor, after = some anchor ∧ placeIndex blocks after = .error (.unknownBlock anchor) ∧
        b.place after blocks = none := by
  cases after with
  | none => exact .inl ⟨0, rfl, by simp⟩
  | some anchor =>
    by_cases hmem : anchor ∈ blocks.map (·.id)
    · obtain ⟨front, c, back, rfl, rfl, hfront⟩ := exists_split hmem
      refine .inl ⟨front.length + 1, by simp only [placeIndex, findIdx?_append hfront], ?_⟩
      have hinsert := insertIdx_append (front ++ [c]) back b
      rw [List.append_assoc, List.length_append] at hinsert
      rw [place_append b hfront]
      exact congrArg some (by simpa using hinsert.symm)
    · exact .inr ⟨anchor, rfl, by simp only [placeIndex, findIdx?_eq_none hmem],
        place_eq_none hmem⟩

theorem run_get_bind (f : List Block → Editing Unit) (blocks : List Block) :
    (ExceptT.run (get >>= f)).run blocks = (f blocks).run.run blocks :=
  rfl

theorem run_set_bind (next : List Block) (f : PUnit → Editing Unit) (blocks : List Block) :
    (ExceptT.run (set next >>= f)).run blocks = (f ⟨⟩).run.run next :=
  rfl

end Block

namespace PatchOp

/-- A change made in place leaves what it makes of the blocks, or else the blocks as they were. -/
theorem run_applyInPlace (op : PatchOp) (blocks : List Block) :
    op.applyInPlace.run.run blocks =
      match op.apply blocks with
      | .ok result => (.ok (), result)
      | .error e => (.error e, blocks) := by
  cases op with
  | insert b after =>
    rw [applyInPlace, Block.run_get_bind]
    by_cases hmem : b.id ∈ blocks.map (·.id)
    · obtain ⟨front, c, back, rfl, hid, hfront⟩ := Block.exists_split hmem
      rw [← hid] at hmem hfront ⊢
      simp only [apply, ← hid, Block.isIn_iff.2 hmem, Block.findIdx?_append hfront]
      rfl
    · simp only [apply, Block.findIdx?_eq_none hmem, Block.isIn_eq_false_iff.2 hmem]
      obtain ⟨i, hindex, hplace⟩ | ⟨anchor, rfl, hindex, hplace⟩ :=
        Block.placeIndex_cases b after blocks
      · simp only [hindex, hplace]
        rfl
      · simp only [hindex, hplace]
        rfl
  | delete id =>
    rw [applyInPlace, Block.run_get_bind]
    by_cases hmem : id ∈ blocks.map (·.id)
    · obtain ⟨front, b, back, rfl, rfl, hfront⟩ := Block.exists_split hmem
      simp only [apply, Block.takeOut_append hfront, Block.findIdx?_append hfront]
      rw [← Block.eraseIdx_append front back b]
      rfl
    · simp only [apply, Block.takeOut_eq_none hmem, Block.findIdx?_eq_none hmem]
      rfl
  | replace id content =>
    rw [applyInPlace, Block.run_get_bind]
    by_cases hmem : id ∈ blocks.map (·.id)
    · obtain ⟨front, b, back, rfl, rfl, hfront⟩ := Block.exists_split hmem
      simp only [apply, Block.setContent_append content hfront, Block.findIdx?_append hfront]
      rw [← Block.modify_append front back b fun b => { b with content }]
      rfl
    · simp only [apply, Block.setContent_eq_none hmem, Block.findIdx?_eq_none hmem]
      rfl
  | move id after =>
    rw [applyInPlace, Block.run_get_bind]
    by_cases hmem : id ∈ blocks.map (·.id)
    · obtain ⟨front, b, back, rfl, rfl, hfront⟩ := Block.exists_split hmem
      simp only [apply, Block.takeOut_append hfront, Block.findIdx?_append hfront,
        Block.find?_append hfront]
      rw [Block.eraseIdx_append, Block.run_set_bind, Block.run_get_bind]
      obtain ⟨i, hindex, hplace⟩ | ⟨anchor, rfl, hindex, hplace⟩ :=
        Block.placeIndex_cases b after (front ++ back)
      · simp only [hindex, hplace]
        rfl
      · simp only [hindex, hplace]
        rw [← Block.insertIdx_append front back b]
        rfl
    · simp only [apply, Block.takeOut_eq_none hmem, Block.findIdx?_eq_none hmem]
      rfl

end PatchOp

end LiterateSync
