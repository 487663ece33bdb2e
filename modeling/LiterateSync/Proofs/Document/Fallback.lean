import LiterateSync.Proofs.Document.Framing
import LiterateSync.Proofs.Document.Upkeep

namespace LiterateSync

/-- Whether `place` is the name of the nearest block in front of the one named `a` for which `fits`
    holds, or is nothing because there is no such block. -/
def IsNearestBefore (blocks : List Block) (a : BlockId) (fits : BlockId → Prop) :
    Option BlockId → Prop
  | some p => ∃ front b mid c back, blocks = front ++ b :: (mid ++ c :: back) ∧ c.id = a ∧
      b.id = p ∧ fits p ∧ ∀ m ∈ mid, ¬ fits m.id
  | none => ∃ front c back, blocks = front ++ c :: back ∧ c.id = a ∧ ∀ m ∈ front, ¬ fits m.id

/-- Whether some blocks with `b` among them are the others with `b` behind the block that a place
    names, or in front of all of them. -/
def IsPlaced (b : Block) (others : List Block) : Option BlockId → List Block → Prop
  | some p, result => ∃ front c back, others = front ++ c :: back ∧ c.id = p ∧
      result = front ++ c :: b :: back
  | none, result => result = b :: others

section Nearest

variable {blocks : List Block} {a : BlockId} {fits fits' : BlockId → Prop} {place : Option BlockId}

theorem IsNearestBefore.congr (h : IsNearestBefore blocks a fits place)
    (hfits : ∀ b ∈ blocks, fits b.id ↔ fits' b.id) : IsNearestBefore blocks a fits' place := by
  cases place with
  | none =>
    obtain ⟨front, c, back, rfl, hc, hnone⟩ := h
    exact ⟨front, c, back, rfl, hc, fun m hm => mt (hfits m (by simp [hm])).2 (hnone m hm)⟩
  | some p =>
    obtain ⟨front, b, mid, c, back, rfl, hc, rfl, hb, hmid⟩ := h
    exact ⟨front, b, mid, c, back, rfl, hc, rfl, (hfits b (by simp)).1 hb,
      fun m hm => mt (hfits m (by simp [hm])).2 (hmid m hm)⟩

/-- The nearest block does not change when one that is not it no longer counts. -/
theorem IsNearestBefore.except (h : IsNearestBefore blocks a fits place) {x : BlockId}
    (hx : place ≠ some x) : IsNearestBefore blocks a (fun y => fits y ∧ y ≠ x) place := by
  cases place with
  | none =>
    obtain ⟨front, c, back, rfl, hc, hnone⟩ := h
    exact ⟨front, c, back, rfl, hc, fun m hm hfits => hnone m hm hfits.1⟩
  | some p =>
    obtain ⟨front, b, mid, c, back, rfl, hc, rfl, hb, hmid⟩ := h
    exact ⟨front, b, mid, c, back, rfl, hc, rfl, ⟨hb, fun heq => hx (heq ▸ rfl)⟩,
      fun m hm hfits => hmid m hm hfits.1⟩

end Nearest

theorem Block.filter_ne_eq_self {blocks : List Block} {x : BlockId} (h : x ∉ blocks.map (·.id)) :
    blocks.filter (·.id ≠ x) = blocks :=
  List.filter_eq_self.2 fun _ hb => decide_eq_true fun heq => h (heq ▸ List.mem_map_of_mem hb)

theorem Block.filter_ne_of_split {front back : List Block} {b : Block}
    (hnodup : ((front ++ b :: back).map (·.id)).Nodup) :
    (front ++ b :: back).filter (·.id ≠ b.id) = front ++ back := by
  rw [List.map_append, List.map_cons, List.nodup_middle, ← List.map_append, List.nodup_cons]
    at hnodup
  rw [List.filter_append, List.filter_cons_of_neg (by simp), ← List.filter_append,
    filter_ne_eq_self hnodup.1]

theorem Block.isPlaced_of_place {b : Block} {place : Option BlockId} {others result : List Block}
    (h : b.place place others = some result) : IsPlaced b others place result := by
  cases place with
  | none =>
    rw [place_none, Option.some.injEq] at h
    exact h.symm
  | some p =>
    by_cases hmem : p ∈ others.map (·.id)
    · obtain ⟨front, c, back, rfl, rfl, hfront⟩ := exists_split hmem
      rw [place_append b hfront, Option.some.injEq] at h
      exact ⟨front, c, back, rfl, rfl, h.symm⟩
    · rw [place_eq_none hmem] at h
      cases h

namespace PatchOp

variable {blocks result : List Block} {place : Option BlockId}

theorem isPlaced_of_apply_insert {b : Block} (h : (insert b place).apply blocks = .ok result) :
    IsPlaced b (blocks.filter (·.id ≠ b.id)) place result := by
  rw [Block.filter_ne_eq_self (perm_of_apply_insert h).1]
  simp only [apply] at h
  split at h
  · cases h
  · split at h
    · rename_i hplace
      cases h
      exact Block.isPlaced_of_place hplace
    · cases h

theorem isPlaced_of_apply_move {id : BlockId} (hnodup : (blocks.map (·.id)).Nodup)
    (h : (move id place).apply blocks = .ok result) :
    ∃ b ∈ blocks, b.id = id ∧ IsPlaced b (blocks.filter (·.id ≠ id)) place result := by
  obtain ⟨hmem, -⟩ := perm_of_apply_move h
  obtain ⟨front, b, back, rfl, rfl, hfront⟩ := Block.exists_split hmem
  rw [Block.filter_ne_of_split hnodup]
  simp only [apply, Block.takeOut_append hfront] at h
  split at h
  · rename_i hplace
    cases h
    exact ⟨b, by simp, rfl, Block.isPlaced_of_place hplace⟩
  · cases h

end PatchOp

namespace Rebase

variable {c : Setting} {s : State} {a : BlockId}

/-- The search for a predecessor finds the nearest block that is there. -/
theorem isNearestBefore_predecessor? (ha : a ∈ c.before.map (·.id)) :
    IsNearestBefore c.before a (· ∈ s.working.map (·.id)) (predecessor? c s a) := by
  obtain ⟨front, x, back, hbefore, rfl, hfront⟩ := Block.exists_split ha
  have hindex : c.before.findIdx? (·.id = x.id) = some front.length := by
    rw [hbefore, Block.findIdx?_append hfront]
  rw [predecessor?, hindex]
  simp only [hbefore, List.take_left]
  cases hfind : front.reverse.find? fun b => holds s b.id with
  | none =>
    refine ⟨front, x, back, rfl, rfl, fun m hm hthere => ?_⟩
    have := List.find?_eq_none.1 hfind m (List.mem_reverse.2 hm)
    exact this (Block.isIn_iff.2 hthere)
  | some b =>
    obtain ⟨hthere, mid, init, hsplit, hmid⟩ := List.find?_eq_some_iff_append.1 hfind
    have hparts : front = init.reverse ++ b :: mid.reverse := by
      rw [← List.reverse_reverse front, hsplit]
      simp
    refine ⟨init.reverse, b, mid.reverse, x, back, by simp [hparts], rfl, rfl,
      Block.isIn_iff.1 hthere, fun m hm hin => ?_⟩
    have := hmid m (List.mem_reverse.1 hm)
    rw [show holds s m.id = true from Block.isIn_iff.2 hin] at this
    cases this

theorem anchor_of_gone (hself : resolve s a = a) (hgone : a ∉ s.working.map (·.id)) :
    anchor c s (some a) = predecessor? c s a := by
  have hholds : holds s a = false := Block.isIn_eq_false_iff.2 hgone
  simp only [anchor, hself, hholds, Bool.false_eq_true, if_false]

theorem exists_emit {op : PatchOp} {working : List Block} (h : op.apply s.working = .ok working) :
    ∃ t, emit s op = .ok t ∧ t.working = working :=
  ⟨_, emit_of_apply h, rfl⟩

/-- A move of a block that is there is carried over as one that does not name the block itself. -/
theorem exists_carryMove (c : Setting) {id : BlockId} (place : Option BlockId)
    (hheld : id ∈ s.working.map (·.id)) :
    ∃ t, carryMove c s id place = .ok t ∧
      (PatchOp.move id ((anchor c s place).filter (· ≠ id))).apply s.working = .ok t.working := by
  have hplace : ∀ p ∈ (anchor c s place).filter (· ≠ id),
      p ∈ s.working.map (·.id) ∧ p ≠ id := by
    intro p hp
    obtain ⟨hp, hne⟩ := Option.mem_filter_iff.1 hp
    exact ⟨anchor_mem hp, by simpa using hne⟩
  obtain ⟨working, happly⟩ := PatchOp.exists_apply_move hheld hplace
  obtain ⟨t, hemit, rfl⟩ := exists_emit happly
  refine ⟨t, ?_, happly⟩
  rw [carryMove, show holds s id = true from Block.isIn_iff.2 hheld]
  exact hemit

/-- The block that an insertion brings when it is carried over: under the next name, if its own is
    in use. -/
def arriving (s : State) (block : Block) : Block :=
  if block.id ∈ s.working.map (·.id) then { block with id := s.ids.fresh.1 } else block

/-- The state in which a block is inserted: the name is given out that the block comes under. -/
def awaiting (s : State) (block : Block) : State :=
  if block.id ∈ s.working.map (·.id) then
    { s with ids := s.ids.fresh.2, renamed := (block.id, s.ids.fresh.1) :: s.renamed }
  else { s with ids := s.ids.observe block.id }

@[simp] theorem working_awaiting (s : State) (block : Block) :
    (awaiting s block).working = s.working := by
  unfold awaiting
  split <;> rfl

theorem carryInsert_eq (c : Setting) (s : State) (block : Block) (place : Option BlockId) :
    carryInsert c s block place =
      emit (awaiting s block) (.insert (arriving s block) (anchor c (awaiting s block) place)) := by
  by_cases hheld : block.id ∈ s.working.map (·.id)
  · have hholds : holds s block.id = true := Block.isIn_iff.2 hheld
    rw [carryInsert, if_pos hholds, awaiting, if_pos hheld, arriving, if_pos hheld]
  · have hholds : ¬ holds s block.id = true := mt Block.isIn_iff.1 hheld
    rw [carryInsert, if_neg hholds, awaiting, if_neg hheld, arriving, if_neg hheld]

/-- A new block takes no name from a block that is gone. -/
theorem resolve_awaiting (block : Block) (hself : resolve s a = a)
    (hgone : a ∉ s.working.map (·.id)) : resolve (awaiting s block) a = a := by
  rw [awaiting]
  split
  · rename_i hheld
    rw [resolve_of_renamed_cons rfl, if_neg fun heq : a = block.id => hgone (heq ▸ hheld), hself]
  · exact hself

theorem anchor_awaiting_of_gone (block : Block) (hself : resolve s a = a)
    (hgone : a ∉ s.working.map (·.id)) :
    anchor c (awaiting s block) (some a) = predecessor? c s a := by
  rw [anchor_of_gone (resolve_awaiting block hself hgone) (by rwa [working_awaiting])]
  simp only [predecessor?, holds, working_awaiting]

/-- Whether `b` is the block that a change puts at a place when it is carried over: an inserted
    block, under the next name if its own is in use, or a block that is moved. -/
def IsSubject (s : State) (b : Block) : PatchOp → Prop
  | .insert block _ =>
    b = if block.id ∈ s.working.map (·.id) then { block with id := s.ids.fresh.1 } else block
  | .move id _ => b ∈ s.working ∧ b.id = resolve s id
  | _ => False

namespace WellKept

variable {g : IdSource} {op : PatchOp}

/-- The name that an insertion brings its block under is free. -/
theorem arriving_not_mem (h : WellKept c g s) {block : Block} {place : Option BlockId}
    (hspent : isSpent s (.insert block place) = false) :
    (arriving s block).id ∉ s.working.map (·.id) := by
  rw [arriving]
  split
  · rename_i hheld
    have hholds : holds s block.id = true := Block.isIn_iff.2 hheld
    have hroom : s.ids.count < IdSource.maxNumber := by simpa [isSpent, hholds] using hspent
    exact h.covers.name_not_mem (Nat.lt_succ_self _) hroom
  · assumption

theorem exists_carryInsert (h : WellKept c g s) {block : Block} (place : Option BlockId)
    (hspent : isSpent s (.insert block place) = false) :
    ∃ t, Rebase.carryInsert c s block place = .ok t ∧
      (PatchOp.insert (arriving s block) (anchor c (awaiting s block) place)).apply s.working =
        .ok t.working := by
  have hplace : ∀ p ∈ anchor c (awaiting s block) place, p ∈ s.working.map (·.id) :=
    fun p hp => working_awaiting s block ▸ anchor_mem hp
  obtain ⟨working, happly⟩ := PatchOp.exists_apply_insert (h.arriving_not_mem hspent) hplace
  obtain ⟨t, hemit, rfl⟩ := exists_emit (s := awaiting s block) (by rwa [working_awaiting])
  exact ⟨t, (carryInsert_eq c s block place).trans hemit, happly⟩

end WellKept

end Rebase

namespace Patch

variable {before current : Document} {later earlier : Patch} {policy : ConflictPolicy}
  {done rest : List PatchOp} {op : PatchOp} {s : Rebase.State} {a : BlockId}

/-- Where the block that stood in front of a place is gone, the nearest block that stood in front of
    that one before and is there still takes its part, or none if there is no such block. A block
    that is moved does not take this part for itself; where it is the nearest one it goes to the
    front of all. -/
theorem placed_behind_nearest (hbefore : before.WellNamed)
    (hearlier : before.apply earlier = .ok current) (hops : later.ops = done ++ op :: rest)
    (hdone : carried done earlier before current policy = .ok s)
    (hlast : numbersLast (done ++ [op]) earlier before current policy = true)
    (ha : a ∈ before.blocks.map (·.id)) (hgone : a ∉ s.working.map (·.id))
    (hop : (∃ block, op = .insert block (some a)) ∨
      ∃ id, op = .move id (some a) ∧ Rebase.resolve s id ∈ s.working.map (·.id)) :
    ∃ t b place, carried (done ++ [op]) earlier before current policy = .ok t ∧
      (∃ ids, Document.applyOps t.ops current.blocks current.ids = .ok (t.working, ids)) ∧
      (∀ rebased, later.rebase earlier before current policy = .ok rebased →
        t.ops <+: rebased.patch.ops) ∧
      Rebase.IsSubject s b op ∧ IsPlaced b (s.working.filter (·.id ≠ b.id)) place t.working ∧
      (IsNearestBefore before.blocks a (fun x => x ∈ s.working.map (·.id) ∧ x ≠ b.id) place ∨
        place = none ∧ (∃ id, op = .move id (some a)) ∧
          IsNearestBefore before.blocks a (· ∈ s.working.map (·.id)) (some b.id)) := by
  set c : Rebase.Setting := ⟨before.blocks, earlier.ops, policy⟩ with hc
  have hgrounds := Rebase.grounds_of_apply hbefore hearlier policy
  have hold : current.ids.Covers before.blocks :=
    hbefore.advance (Document.wellNamed_of_apply hbefore hearlier).2
  obtain ⟨hdoneLast, hspent⟩ := Rebase.numbersLast_concat_of_ok hdone hlast
  have hkept := hgrounds.wellKept.carryAll hgrounds hold hdoneLast hdone
  have hnearest := Rebase.isNearestBefore_predecessor? (c := c) (s := s) ha
  have hlink : ∀ {t}, Rebase.carry c s op = .ok t →
      carried (done ++ [op]) earlier before current policy = .ok t ∧
      (∃ ids, Document.applyOps t.ops current.blocks current.ids = .ok (t.working, ids)) ∧
      ∀ rebased, later.rebase earlier before current policy = .ok rebased →
        t.ops <+: rebased.patch.ops := by
    intro t hcarry
    have hcarried : carried (done ++ [op]) earlier before current policy = .ok t := by
      rw [carried, Rebase.carryAll_append_of_ok _ hdone, Rebase.carryAll, hcarry]
      rfl
    refine ⟨hcarried, Rebase.replays_carryAll current.blocks current.ids ⟨_, rfl⟩ hcarried,
      fun rebased hrebase => ?_⟩
    obtain ⟨-, last, hall, rfl⟩ := rebase_eq_ok hrebase
    rw [hops, List.append_cons, Rebase.carryAll_append_of_ok _ hcarried] at hall
    obtain ⟨emitted, hemitted⟩ := Rebase.exists_emitted hall
    exact ⟨emitted, hemitted.symm⟩
  obtain ⟨block, rfl⟩ | ⟨id, rfl, hheld⟩ := hop
  · obtain ⟨t, hcarry, happly⟩ := hkept.exists_carryInsert (some a) hspent
    obtain ⟨hcarried, hreplays, hprefix⟩ := hlink hcarry
    rw [Rebase.anchor_awaiting_of_gone block (hkept.resolve_of_gone ha hgone) hgone] at happly
    have hnew := (PatchOp.perm_of_apply_insert happly).1
    refine ⟨t, Rebase.arriving s block, _, hcarried, hreplays, hprefix, rfl,
      PatchOp.isPlaced_of_apply_insert happly, .inl (hnearest.except fun heq => hnew ?_)⟩
    exact Rebase.predecessor?_mem heq
  · obtain ⟨t, hcarry, happly⟩ := Rebase.exists_carryMove c (some a) hheld
    rw [Rebase.anchor_of_gone (hkept.resolve_of_gone ha hgone) hgone] at happly
    obtain ⟨hcarried, hreplays, hprefix⟩ := hlink hcarry
    obtain ⟨b, hb, hid, hplaced⟩ := PatchOp.isPlaced_of_apply_move hkept.covers.nodup happly
    rw [← hid] at hplaced
    refine ⟨t, b, _, hcarried, hreplays, hprefix, ⟨hb, hid⟩, hplaced, ?_⟩
    by_cases hself : Rebase.predecessor? c s a = some b.id
    · exact .inr ⟨by rw [hself]; simp, ⟨id, rfl⟩, hself ▸ hnearest⟩
    · have hfilter : (Rebase.predecessor? c s a).filter (· ≠ b.id) = Rebase.predecessor? c s a := by
        cases hfound : Rebase.predecessor? c s a with
        | none => rfl
        | some p =>
          have hne : p ≠ b.id := fun heq => hself (heq ▸ hfound)
          simp [hne]
      rw [hfilter]
      exact .inl (hnearest.except hself)

/-- The block that a move should stand behind is deleted, and the nearest one in front of it is the
    moved block itself. That block goes to the front, although the one before it is still there. -/
theorem placed_behind_nearest_itself :
    let p : Profile := { id := "python", lineComments := ["#"] }
    let before := Document.build p .unseeded
      [⟨.doc, "# a\n", ⟨0, 4⟩⟩, ⟨.code, "x = 1\n", ⟨4, 10⟩⟩, ⟨.doc, "# b\n", ⟨10, 14⟩⟩]
    let earlier : Patch := ⟨0, [.delete ⟨"b3"⟩]⟩
    let op : PatchOp := .move ⟨"b2"⟩ (some ⟨"b3"⟩)
    ∃ current, before.apply earlier = .ok current ∧
      IsNearestBefore before.blocks ⟨"b3"⟩
        (fun x => x ∈ current.blocks.map (·.id) ∧ x ≠ ⟨"b2"⟩) (some ⟨"b1"⟩) ∧
      ∃ t b place, carried [op] earlier before current .laterWins = .ok t ∧ b.id = ⟨"b2"⟩ ∧
        IsPlaced b (current.blocks.filter (·.id ≠ b.id)) place t.working ∧
        t.working.map (·.id) = [⟨"b2"⟩, ⟨"b1"⟩] := by
  intro p before earlier op
  let a : Block := ⟨⟨"b1"⟩, .doc, "# a\n"⟩
  let x : Block := ⟨⟨"b2"⟩, .code, "x = 1\n"⟩
  let current : Document := ⟨[a, x], 1, p, ⟨none, 3⟩⟩
  have hearlier : before.apply earlier = .ok current := by decide
  have hnearest : IsNearestBefore before.blocks ⟨"b3"⟩
      (fun y => y ∈ current.blocks.map (·.id) ∧ y ≠ ⟨"b2"⟩) (some ⟨"b1"⟩) :=
    ⟨[], a, [x], ⟨⟨"b3"⟩, .doc, "# b\n"⟩, [], rfl, rfl, rfl, by decide, by decide⟩
  have hafter : carried [op] earlier before current .laterWins =
      .ok ⟨[x, a], ⟨none, 3⟩, [], [.move ⟨"b2"⟩ none], []⟩ := by rfl
  let later : Patch := ⟨0, [op]⟩
  have hops : later.ops = [] ++ op :: [] := rfl
  have hdone : carried [] earlier before current .laterWins =
      .ok ⟨[a, x], ⟨none, 3⟩, [], [], []⟩ := rfl
  obtain ⟨t, b, place, hcarried, -, -, ⟨-, hid⟩, hplaced, -⟩ :=
    placed_behind_nearest (Document.wellNamed_build p .unseeded _) hearlier hops hdone (by decide)
      (by decide) (by decide) (.inr ⟨⟨"b2"⟩, rfl, by decide⟩)
  obtain rfl := Except.ok.inj (hafter.symm.trans hcarried)
  exact ⟨current, hearlier, hnearest, _, b, place, hafter, hid, hplaced, rfl⟩

end Patch

end LiterateSync
