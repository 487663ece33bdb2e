import Mathlib.Data.List.Basic
import Mathlib.Data.List.Forall2
import LiterateSync.Document.Diff
import LiterateSync.Proofs.Document.Edits

namespace LiterateSync.Block

/-- The parts around an item are settled by the list, if the item is in neither of them. -/
theorem parts_unique {front back done tail : List Block} {c : Block}
    (hnodup : ((front ++ c :: back).map (·.id)).Nodup)
    (h : front ++ c :: back = done ++ c :: tail) : front = done ∧ back = tail := by
  rw [List.map_append, List.map_cons, List.nodup_middle, List.nodup_cons, List.mem_append,
    not_or] at hnodup
  obtain ⟨⟨hfront, hback⟩, -⟩ := hnodup
  obtain ⟨hx, -, hz⟩ := (List.append_cons_inj_of_notMem
    (fun hmem => hfront (List.mem_map_of_mem hmem))
    (fun hmem => hback (List.mem_map_of_mem hmem))).1 h
  exact ⟨hx, hz⟩

/-- A block of a filtered list, in its place in the whole list. -/
theorem exists_parts_of_filter {keep : Block → Bool} {blocks done tail : List Block} {c : Block}
    (hnodup : (blocks.map (·.id)).Nodup) (h : blocks.filter keep = done ++ c :: tail) :
    ∃ front back, blocks = front ++ c :: back ∧ c.id ∉ front.map (·.id) ∧
      front.filter keep = done ∧ back.filter keep = tail ∧ keep c = true := by
  have hmem : c ∈ blocks.filter keep := by simp [h]
  obtain ⟨hin, hkeep⟩ := List.mem_filter.1 hmem
  obtain ⟨front, back, rfl⟩ := List.append_of_mem hin
  have hparts : front.filter keep ++ c :: back.filter keep = done ++ c :: tail := by
    simpa [List.filter_append, List.filter_cons, hkeep] using h
  have hsub : ((front.filter keep ++ c :: back.filter keep).map (·.id)).Nodup := by
    have := (List.filter_sublist (p := keep) (l := front ++ c :: back)).map (·.id)
    rw [h, ← hparts] at this
    exact this.nodup hnodup
  obtain ⟨hfront, hback⟩ := parts_unique hsub hparts
  refine ⟨front, back, rfl, ?_, hfront, hback, hkeep⟩
  rw [List.map_append, List.map_cons, List.nodup_middle, List.nodup_cons, List.mem_append,
    not_or] at hnodup
  exact hnodup.1.1

/-- Put behind the last of the blocks that are laid out, a block comes behind all of them and
    before those that are to stay. -/
theorem exists_place_of_filter {keep : Block → Bool} {blocks done tail : List Block}
    {after : Option BlockId} (b : Block) (hnodup : (blocks.map (·.id)).Nodup)
    (h : blocks.filter keep = done ++ tail) (hafter : after = done.getLast?.map (·.id))
    (hb : keep b = true) :
    ∃ result, place b after blocks = some result ∧ result.filter keep = done ++ b :: tail := by
  rcases List.eq_nil_or_concat done with rfl | ⟨init, c, rfl⟩
  · refine ⟨b :: blocks, by simp [hafter], ?_⟩
    simpa [List.filter_cons, hb] using h
  · rw [List.concat_eq_append, List.append_assoc] at h
    obtain ⟨front, back, rfl, hout, hfront, hback, hc⟩ := exists_parts_of_filter hnodup h
    refine ⟨front ++ c :: b :: back, ?_, ?_⟩
    · rw [hafter, List.concat_eq_append, List.getLast?_append]
      simpa using place_append b hout
    · simp [List.filter_append, hb, hc, hfront, hback]

/-- Another content for a block changes that block alone. -/
theorem exists_setContent_of_filter {keep : Block → Bool} {blocks done tail : List Block}
    {a : Block} (content : String) (hnodup : (blocks.map (·.id)).Nodup)
    (h : blocks.filter keep = done ++ a :: tail)
    (hkeep : keep { a with content } = keep a) :
    ∃ result, setContent a.id content blocks = some result ∧
      result.filter keep = done ++ { a with content } :: tail ∧
      ∀ c ∈ blocks, c.id ≠ a.id → c ∈ result := by
  obtain ⟨front, back, rfl, hout, hfront, hback, ha⟩ := exists_parts_of_filter hnodup h
  refine ⟨front ++ { a with content } :: back, setContent_append content hout, ?_, ?_⟩
  · simp [List.filter_append, hkeep, ha, hfront, hback]
  · intro c hc hne
    rw [List.mem_append, List.mem_cons] at hc ⊢
    rcases hc with hc | rfl | hc
    · exact .inl hc
    · exact absurd rfl hne
    · exact .inr (.inr hc)

end LiterateSync.Block

namespace LiterateSync.Pairing

/-- A new block with its index and the index of its partner. -/
abbrev Row := Nat × Block × Option Nat

/-- The old block that becomes the new one of a row. -/
def kept? (old : List Block) (row : Row) : Option Block :=
  row.2.2.bind (old[·]?)

/-- The old blocks that are still to be moved. -/
def movers (old : List Block) (staying : List Nat) (rows : List Row) : List Block :=
  (rows.filter fun row => !staying.contains row.1).filterMap (kept? old)

/-- The old blocks that are still to be met and stay where they are. -/
def stayers (old : List Block) (staying : List Nat) (rows : List Row) : List Block :=
  (rows.filter fun row => staying.contains row.1).filterMap (kept? old)

/-- What becomes of a row: a block of the new one's kind and content, under the name of its
    partner, which had that kind before, or under one of the next `room` names. -/
structure Laid (old : List Block) (g : IdSource) (room : Nat) (row : Row) (c : Block) : Prop where
  kind_eq : c.kind = row.2.1.kind
  content_eq : c.content = row.2.1.content
  of_kept : ∀ a ∈ kept? old row, c.id = a.id ∧ c.kind = a.kind
  of_new : kept? old row = none → ∃ n, g.count < n ∧ n ≤ g.count + room ∧ c.id = g.name n

theorem Laid.of_fresh {old : List Block} {g : IdSource} {room : Nat} {row : Row} {c : Block}
    (h : Laid old g.fresh.2 room row c) : Laid old g (room + 1) row c := by
  refine ⟨h.kind_eq, h.content_eq, h.of_kept, fun hnone => ?_⟩
  obtain ⟨n, hlo, hhi, hid⟩ := h.of_new hnone
  refine ⟨n, ?_, ?_, hid⟩ <;> simp only [IdSource.fresh] at hlo hhi <;> omega

theorem Laid.mono {old : List Block} {g : IdSource} {room more : Nat} {row : Row} {c : Block}
    (h : Laid old g room row c) (hle : room ≤ more) : Laid old g more row c := by
  refine ⟨h.kind_eq, h.content_eq, h.of_kept, fun hnone => ?_⟩
  obtain ⟨n, hlo, hhi, hid⟩ := h.of_new hnone
  exact ⟨n, hlo, by omega, hid⟩

section Rows

variable {old : List Block} {staying : List Nat} {row : Row} {rows : List Row} {a : Block}

theorem movers_cons_of_none (h : kept? old row = none) :
    movers old staying (row :: rows) = movers old staying rows := by
  by_cases hstays : row.1 ∈ staying <;> simp [movers, hstays, h]

theorem stayers_cons_of_none (h : kept? old row = none) :
    stayers old staying (row :: rows) = stayers old staying rows := by
  by_cases hstays : row.1 ∈ staying <;> simp [stayers, hstays, h]

theorem movers_cons_of_some (staying : List Nat) (rows : List Row)
    (h : kept? old row = some a) : movers old staying (row :: rows) =
    if row.1 ∈ staying then movers old staying rows else a :: movers old staying rows := by
  by_cases hstays : row.1 ∈ staying <;> simp [movers, hstays, h]

theorem stayers_cons_of_some (staying : List Nat) (rows : List Row)
    (h : kept? old row = some a) : stayers old staying (row :: rows) =
    if row.1 ∈ staying then a :: stayers old staying rows else stayers old staying rows := by
  by_cases hstays : row.1 ∈ staying <;> simp [stayers, hstays, h]

theorem mem_kept_of_mem_movers (h : a ∈ movers old staying rows) :
    a ∈ rows.filterMap (kept? old) :=
  (List.filter_sublist.filterMap _).subset h

end Rows

/-- Whether a block is not one that is still to be moved. -/
def settled (old : List Block) (staying : List Nat) (rows : List Row) (b : Block) : Bool :=
  b.id ∉ (movers old staying rows).map (·.id)

theorem settled_cons_of_none {old : List Block} {staying : List Nat} {row : Row}
    {rows : List Row} (h : kept? old row = none) :
    settled old staying (row :: rows) = settled old staying rows :=
  funext fun b => by rw [settled, settled, movers_cons_of_none h]

/-- The state between two rows: the blocks that are laid out, and behind them those that stay
    where they are, with the blocks that are still to be moved anywhere among them. -/
structure Underway (old : List Block) (staying : List Nat) (rows : List Row) (g : IdSource)
    (blocks done : List Block) : Prop where
  covers : g.Covers blocks
  movers_mem : ∀ a ∈ movers old staying rows, a ∈ blocks
  layout : blocks.filter (settled old staying rows) = done ++ stayers old staying rows

section Steps

variable {old : List Block} {staying : List Nat} {row : Row} {rows : List Row} {g : IdSource}
  {blocks done : List Block} {after : Option BlockId} {a : Block}

/-- A row without a partner: its block is inserted behind what is laid out. -/
theorem Underway.insert (h : Underway old staying (row :: rows) g blocks done)
    (hnone : kept? old row = none) (hroom : g.count < IdSource.maxNumber)
    (hafter : after = done.getLast?.map (·.id)) :
    ∃ next, (PatchOp.insert ⟨g.fresh.1, row.2.1.kind, row.2.1.content⟩ after).apply blocks =
        .ok next ∧
      Underway old staying rows g.fresh.2 next
        (done ++ [⟨g.fresh.1, row.2.1.kind, row.2.1.content⟩]) := by
  have hnew : g.fresh.1 ∉ blocks.map (·.id) := h.covers.name_not_mem (Nat.lt_succ_self _) hroom
  have hlayout : blocks.filter (settled old staying rows) = done ++ stayers old staying rows := by
    have := h.layout
    rwa [stayers_cons_of_none hnone, settled_cons_of_none hnone] at this
  have hmovers : ∀ c ∈ movers old staying rows, c ∈ blocks := by
    have := h.movers_mem
    rwa [movers_cons_of_none hnone] at this
  have hkeep : settled old staying rows ⟨g.fresh.1, row.2.1.kind, row.2.1.content⟩ = true := by
    simp only [settled, List.mem_map, not_exists, not_and, decide_eq_true_eq]
    exact fun c hc heq => hnew (heq ▸ List.mem_map_of_mem (hmovers c hc))
  obtain ⟨next, hplace, hnext⟩ := Block.exists_place_of_filter
    ⟨g.fresh.1, row.2.1.kind, row.2.1.content⟩ h.covers.nodup hlayout hafter hkeep
  have happly : (PatchOp.insert ⟨g.fresh.1, row.2.1.kind, row.2.1.content⟩ after).apply blocks =
      .ok next := by
    simp only [PatchOp.apply, Block.isIn_eq_false_iff.2 hnew, hplace]
    rfl
  refine ⟨next, happly, ?_, fun c hc => ?_, by simpa using hnext⟩
  · have hcovers := PatchOp.covers_of_apply h.covers happly
    rwa [PatchOp.observe, IdSource.observe_fresh hroom] at hcovers
  · exact (Block.perm_of_place hplace).mem_iff.2 (List.mem_cons_of_mem _ (hmovers c hc))

/-- A row whose partner does not stay: the partner is moved behind what is laid out. -/
theorem Underway.move (h : Underway old staying (row :: rows) g blocks done)
    (hkept : kept? old row = some a) (hmoves : row.1 ∉ staying)
    (hout : a.id ∉ (rows.filterMap (kept? old)).map (·.id))
    (hafter : after = done.getLast?.map (·.id)) :
    ∃ next, (PatchOp.move a.id after).apply blocks = .ok next ∧
      next.filter (settled old staying rows) = done ++ a :: stayers old staying rows ∧
      ∀ c ∈ movers old staying rows, c ∈ next := by
  have hmovers := movers_cons_of_some staying rows hkept
  rw [if_neg hmoves] at hmovers
  obtain ⟨front, back, rfl⟩ := List.append_of_mem (h.movers_mem a (by simp [hmovers]))
  have hnodup := h.covers.nodup
  rw [List.map_append, List.map_cons, List.nodup_middle, ← List.map_append, List.nodup_cons]
    at hnodup
  obtain ⟨hrest, hnodup⟩ := hnodup
  have htake : Block.takeOut a.id (front ++ a :: back) = some (a, front ++ back) :=
    Block.takeOut_append fun hmem => hrest (by simp [hmem])
  have hlayout : (front ++ back).filter (settled old staying rows) =
      done ++ stayers old staying rows := by
    have hwhole := h.layout
    rw [stayers_cons_of_some staying rows hkept, if_neg hmoves] at hwhole
    rw [← hwhole]
    have hself : settled old staying (row :: rows) a = false := by simp [settled, hmovers]
    rw [List.filter_append, List.filter_append, List.filter_cons, hself]
    have hsame : ∀ b ∈ front ++ back,
        settled old staying rows b = settled old staying (row :: rows) b := by
      intro b hb
      have hne : b.id ≠ a.id := fun heq => hrest (heq ▸ List.mem_map_of_mem hb)
      simp [settled, hmovers, hne]
    have hfront := List.filter_congr fun b hb => hsame b (List.mem_append_left back hb)
    have hback := List.filter_congr fun b hb => hsame b (List.mem_append_right front hb)
    simp [hfront, hback]
  have hself : settled old staying rows a = true := by
    simp only [settled, decide_eq_true_eq]
    exact fun hmem => hout ((List.filter_sublist.filterMap _).map _ |>.subset hmem)
  obtain ⟨next, hplace, hnext⟩ :=
    Block.exists_place_of_filter a hnodup hlayout hafter hself
  refine ⟨next, by simp only [PatchOp.apply, htake, hplace], hnext, fun c hc => ?_⟩
  have hne : c ≠ a := by
    rintro rfl
    exact hout (List.mem_map_of_mem (mem_kept_of_mem_movers hc))
  have hin := h.movers_mem c (by simp [hmovers, hc])
  refine (Block.perm_of_place hplace).mem_iff.2 (List.mem_cons_of_mem _ ?_)
  simp only [List.mem_append, List.mem_cons, hne, false_or] at hin
  exact List.mem_append.2 hin

/-- A row with a partner: the partner is put behind what is laid out, unless it stays where
    it is, and gets the content of the new block. -/
theorem Underway.keep (h : Underway old staying (row :: rows) g blocks done)
    (hkept : kept? old row = some a) (hout : a.id ∉ (rows.filterMap (kept? old)).map (·.id))
    (hafter : after = done.getLast?.map (·.id)) :
    ∃ next, Document.applyOps (Pairing.keep (staying.contains row.1) after a row.2.1) blocks g =
        .ok (next, g) ∧
      Underway old staying rows g next (done ++ [{ a with content := row.2.1.content }]) := by
  have hmoved : ∃ middle,
      Document.applyOps (if staying.contains row.1 then [] else [.move a.id after]) blocks g =
        .ok (middle, g) ∧
      g.Covers middle ∧
      middle.filter (settled old staying rows) = done ++ a :: stayers old staying rows ∧
      ∀ c ∈ movers old staying rows, c ∈ middle := by
    by_cases hstays : row.1 ∈ staying
    · have hmovers := movers_cons_of_some staying rows hkept
      have hstayers := stayers_cons_of_some staying rows hkept
      rw [if_pos hstays] at hmovers hstayers
      have hlayout := h.layout
      rw [hstayers, show settled old staying (row :: rows) = settled old staying rows from
        funext fun b => by rw [settled, settled, hmovers]] at hlayout
      exact ⟨blocks, by simp [hstays], h.covers, hlayout, hmovers ▸ h.movers_mem⟩
    · obtain ⟨middle, happly, hlayout, hmem⟩ := h.move hkept hstays hout hafter
      refine ⟨middle, ?_, PatchOp.covers_of_apply h.covers happly, hlayout, hmem⟩
      simp [hstays, Document.applyOps_cons_of_ok g happly, PatchOp.observe]
  obtain ⟨middle, hmove, hcovers, hlayout, hmem⟩ := hmoved
  rw [Pairing.keep, Document.applyOps_append_of_ok _ hmove]
  by_cases hcontent : a.content = row.2.1.content
  · have hsame : { a with content := row.2.1.content } = a := by rw [← hcontent]
    exact ⟨middle, by simp [hcontent], hcovers, hmem, by simpa [hsame] using hlayout⟩
  · obtain ⟨next, hset, hnext, hothers⟩ := Block.exists_setContent_of_filter row.2.1.content
      hcovers.nodup hlayout rfl
    have happly : (PatchOp.replace a.id row.2.1.content).apply middle = .ok next := by
      simp only [PatchOp.apply, hset]
    refine ⟨next, ?_, PatchOp.covers_of_apply hcovers happly, fun c hc => ?_, by simpa using hnext⟩
    · simp [hcontent, Document.applyOps_cons_of_ok g happly, PatchOp.observe]
    · refine hothers c (hmem c hc) fun heq => hout ?_
      exact heq ▸ List.mem_map_of_mem (mem_kept_of_mem_movers hc)

end Steps

/-- The changes of the layout can all be made, and they leave one block for each row, in the
    order of the rows. -/
theorem Underway.applyOps_layOut {old : List Block} {staying : List Nat} {rows : List Row}
    {g : IdSource} {blocks done : List Block} {after : Option BlockId}
    (h : Underway old staying rows g blocks done)
    (hnodup : ((rows.filterMap (kept? old)).map (·.id)).Nodup)
    (hkinds : ∀ row ∈ rows, ∀ a ∈ kept? old row, a.kind = row.2.1.kind)
    (hroom : g.count + rows.length ≤ IdSource.maxNumber)
    (hafter : after = done.getLast?.map (·.id)) :
    ∃ placed last, Document.applyOps (layOut old staying g after rows) blocks g =
        .ok (done ++ placed, last) ∧
      List.Forall₂ (Laid old g rows.length) rows placed := by
  -- On the rows that are left; what is laid out already is carried along as `done`.
  induction rows generalizing g blocks done after with
  | nil =>
    refine ⟨[], g, ?_, .nil⟩
    have hall : settled old staying [] = fun _ => true := funext fun b => by
      simp [settled, movers]
    have hlayout := h.layout
    rw [hall, List.filter_true] at hlayout
    simpa [layOut, stayers] using hlayout
  | cons row rows ih =>
    obtain ⟨n, b, partner⟩ := row
    rw [List.length_cons] at hroom ⊢
    have hrest := fun r hr => hkinds r (List.mem_cons_of_mem _ hr)
    cases hkept : kept? old (n, b, partner) with
    | none =>
      rw [List.filterMap_cons_none hkept] at hnodup
      obtain ⟨next, happly, hnext⟩ := h.insert hkept (by omega) hafter
      have hlast : some g.fresh.1 =
          (done ++ [⟨g.fresh.1, b.kind, b.content⟩] : List Block).getLast?.map (·.id) := by simp
      obtain ⟨placed, last, happlied, hlaid⟩ := ih hnext hnodup hrest
        (by simp only [IdSource.fresh]; omega) hlast
      refine ⟨⟨g.fresh.1, b.kind, b.content⟩ :: placed, last, ?_, .cons ⟨rfl, rfl, ?_, ?_⟩ ?_⟩
      · rw [kept?] at hkept
        simp only [layOut, hkept]
        rw [Document.applyOps_cons_of_ok g happly, PatchOp.observe,
          IdSource.observe_fresh (by omega), happlied, List.append_assoc, List.singleton_append]
      · simp [hkept]
      · exact fun _ => ⟨g.count + 1, by omega, by omega, rfl⟩
      · exact hlaid.imp fun _ _ hc => hc.of_fresh
    | some a =>
      rw [List.filterMap_cons_some hkept, List.map_cons, List.nodup_cons] at hnodup
      obtain ⟨next, happly, hnext⟩ := h.keep hkept hnodup.1 hafter
      have hlast : some a.id =
          (done ++ [{ a with content := b.content }] : List Block).getLast?.map (·.id) := by simp
      obtain ⟨placed, last, happlied, hlaid⟩ := ih hnext hnodup.2 hrest (by omega) hlast
      refine ⟨{ a with content := b.content } :: placed, last, ?_, .cons ⟨?_, rfl, ?_, ?_⟩ ?_⟩
      · rw [kept?] at hkept
        simp only [layOut, hkept]
        rw [Document.applyOps_append_of_ok _ happly, happlied, List.append_assoc,
          List.singleton_append]
      · exact hkinds (n, b, partner) (by simp) a hkept
      · simp [hkept]
      · simp [hkept]
      · exact hlaid.imp fun _ _ hc => hc.mono (Nat.le_succ _)

end LiterateSync.Pairing
