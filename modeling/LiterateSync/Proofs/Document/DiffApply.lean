import Mathlib.Algebra.Group.Nat.Defs
import LiterateSync.Proofs.Document.Kept

namespace LiterateSync

theorem IdSource.maxNumber_eq : maxNumber = 2 ^ 64 - 1 :=
  rfl

namespace Document

/-- The patch between two documents can be applied, and leaves one block for each block of the
    new document, in its order. -/
theorem exists_apply_diff {old new : Document} (hold : old.WellNamed)
    (hroom : old.ids.count + new.blocks.length < 2 ^ 64) :
    ∃ next, old.apply (old.diff new) = .ok next ∧
      List.Forall₂ (Pairing.Laid old.blocks old.ids new.blocks.length)
        (Pairing.rows new.blocks (Pairing.ofBlocks old.blocks new.blocks)) next.blocks := by
  set p := Pairing.ofBlocks old.blocks new.blocks with hp
  have hsound : Pairing.Sound old.blocks new.blocks p := Pairing.sound_ofBlocks _ _
  have hlength := Pairing.length_rows hsound.length_eq
  have hdeleted := applyOps_deletions old.ids hold.nodup (Pairing.nodup_freeIds hold.nodup p)
    (p.freeIds_subset old.blocks)
  have hmax : old.ids.count + (Pairing.rows new.blocks p).length ≤ IdSource.maxNumber := by
    rw [hlength, IdSource.maxNumber_eq]
    omega
  have hstart : (none : Option BlockId) = ([] : List Block).getLast?.map (·.id) := rfl
  obtain ⟨placed, last, hlayout, hlaid⟩ :=
    (Pairing.underway_of_sound hold.nodup hsound hold).applyOps_layOut
      (Pairing.nodup_kept hold.nodup hsound) (Pairing.kinds_of_kept hsound) hmax
      hstart
  have hops : applyOps (old.diff new).ops old.blocks old.ids = .ok (placed, last) := by
    rw [diff, ← hp, Pairing.deletions_eq, applyOps_append_of_ok _ hdeleted]
    exact hlayout
  exact ⟨_, apply_eq_ok_iff.2 ⟨rfl, placed, last, hops, rfl⟩, hlength ▸ hlaid⟩

theorem outline_of_laid {old new : Document} {g : IdSource} {room : Nat} {p : Pairing}
    {next : Document} (hp : Pairing.Sound old.blocks new.blocks p)
    (h : List.Forall₂ (Pairing.Laid old.blocks g room) (Pairing.rows new.blocks p) next.blocks) :
    next.outline = new.outline := by
  have hrows : ((Pairing.rows new.blocks p).map fun row => (row.2.1.kind, row.2.1.content)) =
      next.blocks.map fun b => (b.kind, b.content) := by
    rw [← List.forall₂_eq_eq_eq, List.forall₂_map_left_iff, List.forall₂_map_right_iff]
    exact h.imp fun row c hc => by rw [hc.kind_eq, hc.content_eq]
  have hblocks := congrArg (List.map fun b : Block => (b.kind, b.content))
    (Pairing.map_block_rows hp.length_eq)
  rw [List.map_map] at hblocks
  exact hrows.symm.trans hblocks

/-- The text of a document is settled by the contents of its blocks. -/
theorem text_eq_of_outline_eq {d e : Document} (h : d.outline = e.outline) : d.text = e.text := by
  have hcontents := congrArg (List.map Prod.snd) h
  simp only [outline, List.map_map] at hcontents
  rw [text, text]
  exact congrArg String.join hcontents

/-- The patch between two documents leads from the old one to the outline of the new one. -/
theorem exists_apply_diff_outline {old new : Document} (hold : old.WellNamed)
    (hroom : old.ids.count + new.blocks.length < 2 ^ 64) :
    ∃ next, old.apply (old.diff new) = .ok next ∧ next.outline = new.outline := by
  obtain ⟨next, happly, hlaid⟩ := exists_apply_diff hold hroom
  exact ⟨next, happly, outline_of_laid (Pairing.sound_ofBlocks _ _) hlaid⟩

/-- Where no change is needed the outlines agree. -/
theorem outline_eq_of_diff_nil {old new : Document} (hold : old.WellNamed)
    (hroom : old.ids.count + new.blocks.length < 2 ^ 64) (h : (old.diff new).ops = []) :
    old.outline = new.outline := by
  obtain ⟨next, happly, houtline⟩ := exists_apply_diff_outline hold hroom
  obtain ⟨-, blocks, ids, hops, rfl⟩ := apply_eq_ok_iff.1 happly
  rw [h] at hops
  cases hops
  exact houtline

/-- Blocks that are paired index by index get their new contents, and nothing else is done. -/
theorem diff_of_identity {old new : Document}
    (hpairing : Pairing.ofBlocks old.blocks new.blocks = Pairing.identity new.blocks.length)
    (hlength : old.blocks.length = new.blocks.length) :
    old.diff new =
      ⟨old.revision,
        (old.blocks.zip new.blocks).flatMap fun x => Pairing.rewriting x.1 x.2⟩ := by
  have hfree : (Pairing.identity new.blocks.length).freeOld old.blocks = [] :=
    hlength ▸ Pairing.freeOld_identity old.blocks
  simp only [diff, hpairing, Pairing.deletions, hfree, List.map_nil, List.nil_append,
    Pairing.layOut_identity _ _ hlength]

/-- No change is needed for blocks that are all paired with an equal one at their own index. -/
theorem diff_ops_of_outline_eq {old new : Document} (h : old.outline = new.outline)
    (hdisjoint : ∀ a ∈ old.blocks, ∀ b ∈ new.blocks, a.id ≠ b.id) :
    (old.diff new).ops = [] := by
  have hlength : old.blocks.length = new.blocks.length := by
    simpa [outline] using congrArg List.length h
  have hcontents : List.Forall₂ (fun a b : Block => (a.kind, a.content) = (b.kind, b.content))
      old.blocks new.blocks := by
    rwa [outline, outline, ← List.forall₂_eq_eq_eq, List.forall₂_map_left_iff,
      List.forall₂_map_right_iff] at h
  rw [diff_of_identity (Pairing.ofBlocks_of_same h hdisjoint) hlength, List.flatMap_eq_nil_iff]
  rintro ⟨a, b⟩ hmem
  exact if_pos (Prod.mk.inj (List.forall₂_zip hcontents hmem)).2

/-- Each block that is laid out comes from a row. -/
theorem exists_row_of_laid {old : List Block} {g : IdSource} {room : Nat}
    {rows : List Pairing.Row} {placed : List Block}
    (h : List.Forall₂ (Pairing.Laid old g room) rows placed) {b : Block} (hb : b ∈ placed) :
    ∃ row ∈ rows, Pairing.Laid old g room row b := by
  induction h with
  | nil => cases hb
  | @cons row c rows placed hlaid _ ih =>
    rcases List.mem_cons.1 hb with rfl | hb
    · exact ⟨row, by simp, hlaid⟩
    · obtain ⟨other, hother, hlaid⟩ := ih hb
      exact ⟨other, List.mem_cons_of_mem row hother, hlaid⟩

/-- A name of the old document belongs to a block of the kind that it had there, and any other
    name is one of those that the source gives out next. -/
theorem name_of_laid {old : Document} (hold : old.WellNamed) {new : List Block} {p : Pairing}
    {room : Nat} (hroom : old.ids.count + room < 2 ^ 64) {row : Pairing.Row} {b : Block}
    (hrow : row ∈ Pairing.rows new p) (h : Pairing.Laid old.blocks old.ids room row b) :
    (∀ a ∈ old.blocks, a.id = b.id → a.kind = b.kind) ∧
      (b.id ∉ old.blocks.map (·.id) →
        ∃ n, old.ids.count < n ∧ n ≤ old.ids.count + room ∧ b.id = old.ids.name n) := by
  cases hkept : Pairing.kept? old.blocks row with
  | none =>
    obtain ⟨n, hlo, hhi, hid⟩ := h.of_new hkept
    have hfresh : b.id ∉ old.blocks.map (·.id) := by
      rw [hid]
      exact hold.name_not_mem hlo (by rw [IdSource.maxNumber_eq]; omega)
    exact ⟨fun a ha heq => absurd (heq ▸ List.mem_map_of_mem ha) hfresh,
      fun _ => ⟨n, hlo, hhi, hid⟩⟩
  | some c =>
    obtain ⟨hid, hkind⟩ := h.of_kept c hkept
    obtain ⟨o, -, ho⟩ := Pairing.exists_of_kept hrow hkept
    have hc : c ∈ old.blocks := List.mem_of_getElem? ho
    refine ⟨fun a ha heq => ?_, fun hout => absurd (hid ▸ List.mem_map_of_mem hc) hout⟩
    rw [hkind, List.inj_on_of_nodup_map hold.nodup ha hc (heq.trans hid)]

/-- Comparing two documents and applying the outcome to the old one gives the outline of the new
    one: names stay where their blocks can keep them, and every other name has not been given out
    before. The patch is empty only where the outlines agree, and then it is, unless the new
    document uses names of the old one for other blocks. -/
theorem apply_diff {old new : Document} (hold : old.WellNamed)
    (hroom : old.ids.count + new.blocks.length < 2 ^ 64) :
    (∃ next, old.apply (old.diff new) = .ok next ∧ next.outline = new.outline ∧
      (next.blocks.map (·.id)).Nodup ∧ next.revision = old.revision + 1 ∧
      (∀ b ∈ next.blocks, ∀ a ∈ old.blocks, a.id = b.id → a.kind = b.kind) ∧
      ∀ b ∈ next.blocks, b.id ∉ old.blocks.map (·.id) →
        ∃ n, old.ids.count < n ∧ n ≤ old.ids.count + new.blocks.length ∧
          b.id = old.ids.name n) ∧
    ((∀ a ∈ old.blocks, ∀ b ∈ new.blocks, a.id ≠ b.id) →
      ((old.diff new).ops = [] ↔ old.outline = new.outline)) := by
  obtain ⟨next, happly, hlaid⟩ := exists_apply_diff hold hroom
  have houtline := outline_of_laid (Pairing.sound_ofBlocks _ _) hlaid
  have hnames : ∀ b ∈ next.blocks, _ := fun b hb =>
    have ⟨_, hrow, hlaid⟩ := exists_row_of_laid hlaid hb
    name_of_laid hold hroom hrow hlaid
  obtain ⟨-, blocks, ids, hops, rfl⟩ := apply_eq_ok_iff.1 happly
  refine ⟨⟨_, happly, houtline, (wellNamed_of_apply hold happly).1.nodup, rfl,
    fun b hb => (hnames b hb).1, fun b hb => (hnames b hb).2⟩, fun hdisjoint => ?_⟩
  refine ⟨fun hempty => ?_, fun heq => diff_ops_of_outline_eq heq hdisjoint⟩
  rw [hempty] at hops
  cases hops
  exact houtline

/-- Two equal blocks cross a third one, and names of the old document are used twice in the new
    one and for a block of another kind. -/
theorem apply_diff_crossing :
    let p : Profile := { id := "sh", lineComments := ["#"], strings := [.spanning "\""] }
    let old := build p .unseeded
      [⟨.doc, "# a\n", ⟨0, 4⟩⟩, ⟨.code, "x\n", ⟨4, 6⟩⟩, ⟨.doc, "# a\n", ⟨6, 10⟩⟩]
    let new : Document :=
      { old with
        blocks :=
          [⟨⟨"b3"⟩, .doc, "# a\n"⟩, ⟨⟨"b1"⟩, .code, "y\n"⟩, ⟨⟨"b3"⟩, .doc, "# a\n"⟩,
            ⟨⟨"b2"⟩, .code, "x\n"⟩, ⟨⟨"b2"⟩, .doc, "# c\n"⟩] }
    old.WellNamed ∧ old.ids.count + new.blocks.length < 2 ^ 64 ∧
      ∃ next, old.apply (old.diff new) = .ok next ∧ next.outline = new.outline := by
  intro p old new
  have hold : old.WellNamed := wellNamed_build p .unseeded _
  have hroom : old.ids.count + new.blocks.length < 2 ^ 64 := by decide
  obtain ⟨⟨next, happly, houtline, -⟩, -⟩ := apply_diff hold hroom
  exact ⟨hold, hroom, next, happly, houtline⟩

end Document

end LiterateSync
