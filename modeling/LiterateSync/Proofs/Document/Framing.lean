import LiterateSync.Proofs.Document.InPlace
import LiterateSync.Proofs.Document.Restoring

namespace LiterateSync.Block

variable {keep : Block → Bool} {blocks result rest : List Block} {b : Block} {id : BlockId}

/-- A block that does not count can be put anywhere. -/
theorem filter_of_place {after : Option BlockId} (hb : keep b = false)
    (h : b.place after blocks = some result) : result.filter keep = blocks.filter keep := by
  cases after with
  | none =>
    rw [place_none, Option.some.injEq] at h
    rw [← h, List.filter_cons_of_neg (by simp [hb])]
  | some a =>
    by_cases hmem : a ∈ blocks.map (·.id)
    · obtain ⟨front, c, back, rfl, rfl, hfront⟩ := exists_split hmem
      rw [place_append b hfront, Option.some.injEq] at h
      subst h
      simp [List.filter_append, List.filter_cons, hb]
    · rw [place_eq_none hmem] at h
      cases h

theorem filter_of_takeOut (hid : ∀ c, c.id = id → keep c = false)
    (h : takeOut id blocks = some (b, rest)) :
    keep b = false ∧ rest.filter keep = blocks.filter keep := by
  by_cases hmem : id ∈ blocks.map (·.id)
  · obtain ⟨front, c, back, rfl, rfl, hfront⟩ := exists_split hmem
    rw [takeOut_append hfront, Option.some.injEq, Prod.mk.injEq] at h
    obtain ⟨rfl, rfl⟩ := h
    have hc := hid c rfl
    exact ⟨hc, by simp [List.filter_append, hc]⟩
  · rw [takeOut_eq_none hmem] at h
    cases h

theorem filter_of_setContent {content : String} (hid : ∀ c, c.id = id → keep c = false)
    (h : setContent id content blocks = some result) :
    result.filter keep = blocks.filter keep := by
  by_cases hmem : id ∈ blocks.map (·.id)
  · obtain ⟨front, c, back, rfl, rfl, hfront⟩ := exists_split hmem
    rw [setContent_append content hfront, Option.some.injEq] at h
    subst h
    simp [List.filter_append, hid c rfl, hid { c with content } rfl]
  · rw [setContent_eq_none hmem] at h
    cases h

theorem kinds_of_setContent {content : String} (h : setContent id content blocks = some result) :
    result.map (fun b => (b.id, b.kind)) = blocks.map fun b => (b.id, b.kind) := by
  by_cases hmem : id ∈ blocks.map (·.id)
  · obtain ⟨front, c, back, rfl, rfl, hfront⟩ := exists_split hmem
    rw [setContent_append content hfront, Option.some.injEq] at h
    subst h
    simp
  · rw [setContent_eq_none hmem] at h
    cases h

end LiterateSync.Block

namespace LiterateSync.PatchOp

variable {op : PatchOp} {blocks result : List Block} {b c : Block}

/-- A change leaves all blocks but its own as they are, and in their order. -/
theorem filter_of_apply {keep : Block → Bool} (hkeep : ∀ c, c.id = op.target → keep c = false)
    (h : op.apply blocks = .ok result) : result.filter keep = blocks.filter keep := by
  cases op with
  | insert b after =>
    simp only [apply] at h
    split at h
    · cases h
    · split at h
      · rename_i hplace
        cases h
        exact Block.filter_of_place (hkeep b rfl) hplace
      · cases h
  | delete id =>
    simp only [apply] at h
    split at h
    · rename_i htake
      cases h
      exact (Block.filter_of_takeOut hkeep htake).2
    · cases h
  | replace id content =>
    simp only [apply] at h
    split at h
    · rename_i hset
      cases h
      exact Block.filter_of_setContent hkeep hset
    · cases h
  | move id after =>
    simp only [apply] at h
    split at h
    · cases h
    · rename_i htake
      obtain ⟨hb, hrest⟩ := Block.filter_of_takeOut hkeep htake
      split at h
      · rename_i hplace
        cases h
        exact (Block.filter_of_place hb hplace).trans hrest
      · cases h

/-- No change gives a block that was there another kind. -/
theorem kind_of_apply (hnodup : (blocks.map (·.id)).Nodup) (h : op.apply blocks = .ok result)
    (hb : b ∈ blocks) (hc : c ∈ result) (hid : c.id = b.id) : c.kind = b.kind := by
  have hsame : c ∈ blocks → c.kind = b.kind := fun hmem =>
    congrArg Block.kind (List.inj_on_of_nodup_map hnodup hmem hb hid)
  cases op with
  | insert new after =>
    obtain ⟨hnew, hperm⟩ := perm_of_apply_insert h
    rcases List.mem_cons.1 (hperm.mem_iff.1 hc) with rfl | hmem
    · exact absurd (hid ▸ List.mem_map_of_mem hb) hnew
    · exact hsame hmem
  | delete id =>
    obtain ⟨_, -, hperm⟩ := perm_of_apply_delete h
    exact hsame (hperm.mem_iff.2 (List.mem_cons_of_mem _ hc))
  | replace id content =>
    simp only [apply] at h
    split at h
    · rename_i hset
      cases h
      have hpair : (c.id, c.kind) ∈ blocks.map fun b => (b.id, b.kind) :=
        Block.kinds_of_setContent hset ▸ List.mem_map_of_mem hc
      obtain ⟨a, ha, heq⟩ := List.mem_map.1 hpair
      obtain ⟨haid, hakind⟩ := Prod.mk.inj heq
      rw [← hakind, List.inj_on_of_nodup_map hnodup ha hb (haid.trans hid)]
    · cases h
  | move id after => exact hsame ((perm_of_apply_move h).2.mem_iff.1 hc)

end LiterateSync.PatchOp

namespace LiterateSync.Document

variable {ops : List PatchOp} {blocks result : List Block} {g h : IdSource}

theorem filter_of_applyOps {keep : Block → Bool}
    (hkeep : ∀ op ∈ ops, ∀ c : Block, c.id = op.target → keep c = false)
    (happly : applyOps ops blocks g = .ok (result, h)) :
    result.filter keep = blocks.filter keep := by
  induction ops generalizing blocks g with
  | nil =>
    cases happly
    rfl
  | cons op ops ih =>
    obtain ⟨next, hop, hrest⟩ := applyOps_cons_eq_ok_iff.1 happly
    have hnext := PatchOp.filter_of_apply (hkeep op List.mem_cons_self) hop
    exact (ih (fun op hop => hkeep op (List.mem_cons_of_mem _ hop)) hrest).trans hnext

theorem kind_of_applyOps {b c : Block} (hnodup : (blocks.map (·.id)).Nodup)
    (happly : applyOps ops blocks g = .ok (result, h)) (hb : b ∈ blocks)
    (hstays : .delete b.id ∉ ops) (hc : c ∈ result) (hid : c.id = b.id) : c.kind = b.kind := by
  induction ops generalizing blocks g b with
  | nil =>
    cases happly
    exact congrArg Block.kind (List.inj_on_of_nodup_map hnodup hc hb hid)
  | cons op ops ih =>
    obtain ⟨next, hop, hrest⟩ := applyOps_cons_eq_ok_iff.1 happly
    rw [List.mem_cons, not_or] at hstays
    -- The block is still there after the first change, and has its kind there.
    have hpresent : b.id ∈ next.map (·.id) := by
      rw [PatchOp.mem_ids_of_apply hnodup hop]
      have hmem : b.id ∈ blocks.map (·.id) := List.mem_map_of_mem hb
      cases op with
      | insert new after => exact .inr hmem
      | delete id => exact ⟨hmem, fun heq => hstays.1 (heq ▸ rfl)⟩
      | replace id content => exact hmem
      | move id after => exact hmem
    obtain ⟨a, ha, haid⟩ := List.mem_map.1 hpresent
    have hkind := PatchOp.kind_of_apply hnodup hop hb ha haid
    rw [← hkind]
    exact ih (PatchOp.nodup_of_apply hnodup hop) hrest ha (haid ▸ hstays.2) (hid.trans haid.symm)

theorem advances_of_applyOps (happly : applyOps ops blocks g = .ok (result, h)) :
    g.Advances h := by
  induction ops generalizing blocks g with
  | nil =>
    cases happly
    exact .refl _
  | cons op ops ih =>
    obtain ⟨next, -, hrest⟩ := applyOps_cons_eq_ok_iff.1 happly
    exact (op.advances_observe g).trans (ih hrest)

/-- The error of some changes is that of the first one that cannot be made. -/
theorem exists_of_applyOps_eq_error {e : PatchError} (happly : applyOps ops blocks g = .error e) :
    ∃ done op rest mid ids, ops = done ++ op :: rest ∧
      applyOps done blocks g = .ok (mid, ids) ∧ op.apply mid = .error e := by
  induction ops generalizing blocks g with
  | nil => cases happly
  | cons op ops ih =>
    rw [applyOps] at happly
    split at happly
    · rename_i herror
      cases happly
      exact ⟨[], op, ops, blocks, g, rfl, rfl, herror⟩
    · rename_i next hop
      obtain ⟨done, failing, rest, mid, ids, rfl, hdone, hfails⟩ := ih happly
      exact ⟨op :: done, failing, rest, mid, ids, rfl,
        (applyOps_cons_of_ok g hop).trans hdone, hfails⟩

/-- What some changes to a document keep of it. -/
structure Framed (d : Document) (ops : List PatchOp) (next : Document) : Prop where
  nodup : (next.blocks.map (·.id)).Nodup
  /-- The blocks that are no change's own are the same ones, in the same order. -/
  others : (next.blocks.filter fun b => b.id ∉ ops.map (·.target)) =
    d.blocks.filter fun b => b.id ∉ ops.map (·.target)
  kind : ∀ b ∈ d.blocks, .delete b.id ∉ ops → ∀ c ∈ next.blocks, c.id = b.id → c.kind = b.kind
  count_le : d.ids.count ≤ next.ids.count
  /-- A source that is past all names stays so. -/
  number_le : (∀ b ∈ d.blocks, ∀ n, d.ids.numberOf? b.id = some n → n ≤ d.ids.count) →
    ∀ b ∈ next.blocks, ∀ n, next.ids.numberOf? b.id = some n → n ≤ next.ids.count
  seed : next.ids.seed = d.ids.seed
  profile : next.profile = d.profile
  revision : next.revision = d.revision + 1

theorem framed_of_apply {d next : Document} {patch : Patch} (hnodup : (d.blocks.map (·.id)).Nodup)
    (h : d.apply patch = .ok next) : d.Framed patch.ops next := by
  obtain ⟨-, blocks, ids, hops, rfl⟩ := apply_eq_ok_iff.1 h
  have hadv := advances_of_applyOps hops
  refine ⟨nodup_of_applyOps hnodup hops, ?_, ?_, hadv.count_le, ?_, hadv.seed_eq, rfl, rfl⟩
  · refine filter_of_applyOps (fun op hop c hid => ?_) hops
    exact decide_eq_false fun hout => hout (hid ▸ List.mem_map_of_mem hop)
  · exact fun b hb hstays c hc hid => kind_of_applyOps hnodup hops hb hstays hc hid
  · exact fun hnumbers => (covers_of_applyOps ⟨hnodup, hnumbers⟩ hops).1.number_le

/-- A patch frames what it is not about: all other blocks stay as they are, no block that stays
    gets another kind, and names stay distinct and known to their source. A patch that cannot be
    applied is refused for the first change that cannot be made, and that change leaves the blocks
    that it came to as they were. -/
theorem apply_frames {d : Document} (patch : Patch) (hnodup : (d.blocks.map (·.id)).Nodup) :
    (∀ next, d.apply patch = .ok next → d.Framed patch.ops next) ∧
      ∀ e, d.apply patch = .error e →
        (patch.base ≠ d.revision ∧ e = .revisionMismatch d.revision patch.base) ∨
          ∃ done op rest mid ids, patch.ops = done ++ op :: rest ∧
            applyOps done d.blocks d.ids = .ok (mid, ids) ∧ op.apply mid = .error e ∧
            op.applyInPlace.run.run mid = (.error e, mid) := by
  refine ⟨fun next h => framed_of_apply hnodup h, fun e h => ?_⟩
  rw [apply] at h
  split at h
  · rename_i hbase
    exact .inl ⟨hbase, (Except.error.inj h).symm⟩
  · split at h
    · rename_i hops
      cases h
      obtain ⟨done, op, rest, mid, ids, heq, hdone, hfails⟩ := exists_of_applyOps_eq_error hops
      exact .inr ⟨done, op, rest, mid, ids, heq, hdone, hfails,
        by rw [PatchOp.run_applyInPlace, hfails]⟩
    · cases h

/-- A block is deleted and comes back under its name as one of another kind, and one of the others
    is moved over it. A move behind the block itself is refused. -/
theorem apply_frames_deleted_and_back :
    let p : Profile := { id := "sh", lineComments := ["#"], strings := [.spanning "\""] }
    let d := build p .unseeded
      [⟨.doc, "# a\n", ⟨0, 4⟩⟩, ⟨.code, "x\n", ⟨4, 6⟩⟩, ⟨.doc, "# c\n", ⟨6, 10⟩⟩,
        ⟨.code, "y\n", ⟨10, 12⟩⟩]
    let patch : Patch :=
      ⟨0, [.delete ⟨"b1"⟩, .insert ⟨⟨"b1"⟩, .code, "z\n"⟩ (some ⟨"b4"⟩), .move ⟨"b3"⟩ none]⟩
    let next : Document :=
      ⟨[⟨⟨"b3"⟩, .doc, "# c\n"⟩, ⟨⟨"b2"⟩, .code, "x\n"⟩, ⟨⟨"b4"⟩, .code, "y\n"⟩,
        ⟨⟨"b1"⟩, .code, "z\n"⟩], 1, p, ⟨none, 4⟩⟩
    (d.blocks.map (·.id)).Nodup ∧ d.apply patch = .ok next ∧ d.Framed patch.ops next ∧
      ∃ done op rest mid ids,
        [.move ⟨"b4"⟩ (some ⟨"b4"⟩)] = done ++ op :: rest ∧
          applyOps done d.blocks d.ids = .ok (mid, ids) ∧
          op.applyInPlace.run.run mid = (.error (.unknownBlock ⟨"b4"⟩), mid) := by
  intro p d patch next
  have hnodup : (d.blocks.map (·.id)).Nodup := by decide
  have happly : d.apply patch = .ok next := by decide
  refine ⟨hnodup, happly, (apply_frames patch hnodup).1 next happly, ?_⟩
  have hrefused : d.apply ⟨0, [.move ⟨"b4"⟩ (some ⟨"b4"⟩)]⟩ = .error (.unknownBlock ⟨"b4"⟩) := by
    decide
  obtain ⟨hbase, -⟩ | ⟨done, op, rest, mid, ids, heq, hdone, -, hkept⟩ :=
    (apply_frames ⟨0, [.move ⟨"b4"⟩ (some ⟨"b4"⟩)]⟩ hnodup).2 _ hrefused
  · exact absurd rfl hbase
  · exact ⟨done, op, rest, mid, ids, heq, hdone, hkept⟩

end LiterateSync.Document
