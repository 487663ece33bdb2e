import LiterateSync.Proofs.Document.View

namespace LiterateSync.Document

variable [RegexLibrary] {d next candidate : Document} {p : Profile} {text : String} {ids : IdSource}

/-- Whether the blocks of a document are those that its text is cut into. -/
def IsCut (d : Document) : Prop :=
  (segment d.profile d.text).map (fun segments => segments.map fun s => (s.kind, s.text)) =
    .ok d.outline

instance (d : Document) : Decidable d.IsCut :=
  inferInstanceAs (Decidable (_ = _))

/-- Whether a document has no name, and gives out none, that the blocks of its file's text could
    get. -/
def AvoidsFile (d : Document) : Prop :=
  d.ids.seed ≠ some "fs" ∧ ∀ b ∈ d.blocks, (IdSource.seeded "fs").numberOf? b.id = none

instance (d : Document) : Decidable d.AvoidsFile :=
  inferInstanceAs (Decidable (_ ∧ _))

theorem isCut_iff (ids : IdSource) :
    d.IsCut ↔ ∃ candidate, openWith d.profile ids d.text = .ok candidate ∧
      candidate.outline = d.outline := by
  rw [IsCut, openWith]
  cases segment d.profile d.text <;> simp [Except.map, outline_build]

/-- The text of a document that was opened is cut into the blocks that it has. -/
theorem isCut_of_outline_eq (h : openWith d.profile ids text = .ok candidate)
    (houtline : candidate.outline = d.outline) : d.IsCut := by
  have htext : d.text = text :=
    (text_eq_of_outline_eq houtline).symm.trans (text_of_openWith h)
  exact (isCut_iff ids).2 ⟨candidate, htext ▸ h, houtline⟩

theorem length_le_of_openWith (h : openWith p ids text = .ok d) :
    d.blocks.length ≤ text.length := by
  have hlength : ∀ blocks : List Block, (∀ b ∈ blocks, b.content.toList ≠ []) →
      blocks.length ≤ (blocks.map fun b => b.content.toList).flatten.length := by
    intro blocks hne
    induction blocks with
    | nil => exact Nat.zero_le _
    | cons b blocks ih =>
      obtain ⟨hb, hne⟩ := List.forall_mem_cons.1 hne
      have hpos := List.length_pos_iff.2 hb
      have hrest := ih hne
      simp only [List.map_cons, List.flatten_cons, List.length_append, List.length_cons]
      omega
  rw [← text_of_openWith h, ← String.length_toList, toList_text]
  exact hlength d.blocks (content_ne_nil h)

/-- The names of a text that is opened have the form of their source, while the numbers last. -/
theorem isSome_numberOf?_of_openWith (h : openWith p ids text = .ok d)
    (hroom : ids.count + d.blocks.length < 2 ^ 64) :
    ∀ b ∈ d.blocks, (ids.numberOf? b.id).isSome := by
  obtain ⟨segments, -, rfl⟩ := openWith_eq_ok_iff.1 h
  have hlength := congrArg List.length (id_nameSegments ids segments)
  simp only [List.length_map, List.length_range'] at hlength
  intro b hb
  have hid : b.id ∈ (nameSegments ids segments).1.map (·.id) := List.mem_map_of_mem hb
  rw [id_nameSegments] at hid
  obtain ⟨n, hn, hname⟩ := List.mem_map.1 hid
  obtain ⟨-, hlt⟩ := List.mem_range'_1.1 hn
  have hmax : n ≤ IdSource.maxNumber := by
    change ids.count + (nameSegments ids segments).1.length < 2 ^ 64 at hroom
    rw [IdSource.maxNumber_eq]
    omega
  rw [← hname, IdSource.numberOf?_name, if_pos hmax]
  rfl

theorem AvoidsFile.id_ne (h : d.AvoidsFile)
    (hcandidate : openWith p (.seeded "fs") text = .ok candidate)
    (hroom : candidate.blocks.length < 2 ^ 64) :
    ∀ a ∈ d.blocks, ∀ b ∈ candidate.blocks, a.id ≠ b.id := by
  intro a ha b hb heq
  have hsome := isSome_numberOf?_of_openWith hcandidate
    (by rwa [IdSource.seeded, Nat.zero_add]) b hb
  rw [← heq, h.2 a ha] at hsome
  cases hsome

/-- Cutting the text of a document again brings no change only if the document has the blocks that
    the text is cut into. -/
theorem diff_ops_eq_nil_iff (hnamed : d.WellNamed) (havoids : d.AvoidsFile)
    (hcandidate : openWith d.profile (.seeded "fs") d.text = .ok candidate)
    (hroom : d.ids.count + candidate.blocks.length < 2 ^ 64) :
    (d.diff candidate).ops = [] ↔ d.IsCut := by
  constructor
  · intro hnil
    exact isCut_of_outline_eq hcandidate (outline_eq_of_diff_nil hnamed hroom hnil).symm
  · intro hcut
    obtain ⟨other, hother, houtline⟩ := (isCut_iff (.seeded "fs")).1 hcut
    cases hcandidate.symm.trans hother
    exact diff_ops_of_outline_eq houtline.symm (havoids.id_ne hcandidate (by omega))

/-- The patch to a text leads to the blocks that the text is cut into. -/
theorem isCut_of_apply_diff (hnamed : d.WellNamed) (havoids : d.AvoidsFile)
    (hcandidate : openWith d.profile ids text = .ok candidate)
    (hroom : d.ids.count + candidate.blocks.length < 2 ^ 64)
    (happly : d.apply (d.diff candidate) = .ok next) : next.IsCut ∧ next.AvoidsFile := by
  obtain ⟨next', happly', hlaid⟩ := exists_apply_diff hnamed hroom
  cases happly.symm.trans happly'
  have houtline := outline_of_laid (Pairing.sound_ofBlocks _ _) hlaid
  have hadvances := (wellNamed_of_apply hnamed happly).2
  obtain ⟨-, blocks, last, -, hnext⟩ := apply_eq_ok_iff.1 happly
  have hprofile : next.profile = d.profile := by rw [hnext]
  refine ⟨isCut_of_outline_eq (hprofile ▸ hcandidate) houtline.symm,
    hadvances.seed_eq ▸ havoids.1, fun b hb => ?_⟩
  obtain ⟨row, hrow, hb⟩ := exists_row_of_laid hlaid hb
  obtain ⟨-, hname⟩ := name_of_laid hnamed hroom hrow hb
  by_cases hold : b.id ∈ d.blocks.map (·.id)
  · obtain ⟨a, ha, hid⟩ := List.mem_map.1 hold
    exact hid ▸ havoids.2 a ha
  · obtain ⟨n, -, -, hid⟩ := hname hold
    rw [hid]
    exact IdSource.numberOf?_name_of_seed_ne havoids.1 n

/-- A document that is opened has the blocks that its text is cut into, under names of its own. -/
theorem isCut_of_ofText (h : ofText p text = .ok d) : d.IsCut ∧ d.AvoidsFile := by
  obtain ⟨-, hprofile, -⟩ := exists_spans_of_openWith h
  have hopened : openWith d.profile .unseeded text = .ok d := hprofile ▸ h
  refine ⟨isCut_of_outline_eq hopened rfl, ?_, fun b hb => ?_⟩
  · obtain ⟨segments, -, rfl⟩ := openWith_eq_ok_iff.1 h
    rw [build, (advances_nameSegments .unseeded segments).seed_eq]
    simp [IdSource.unseeded]
  · obtain ⟨n, hid⟩ := exists_name_of_openWith h b hb
    rw [hid]
    exact IdSource.numberOf?_name_of_seed_ne (by simp [IdSource.unseeded, IdSource.seeded]) n

end LiterateSync.Document
