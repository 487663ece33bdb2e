import LiterateSync.Proofs.Document.Restoring
import LiterateSync.Proofs.Document.Survivors

namespace LiterateSync

/-- Whether some changes take a block away that has a content, or take the content from it, before
    they insert a block under its name. -/
def takes (x : BlockId) (content : String) : List PatchOp → Bool
  | [] => false
  | .insert b _ :: ops => decide (b.id ≠ x) && takes x content ops
  | .delete id :: ops => decide (id = x) || takes x content ops
  | .replace id new :: ops => decide (id = x ∧ new ≠ content) || takes x content ops
  | .move .. :: ops => takes x content ops

section

variable {x id : BlockId} {content : String} {ops : List PatchOp}

theorem takes_insert_iff {b : Block} {place : Option BlockId} :
    takes x content (.insert b place :: ops) = true ↔ b.id ≠ x ∧ takes x content ops = true := by
  simp [takes]

theorem takes_delete_iff :
    takes x content (.delete id :: ops) = true ↔ id = x ∨ takes x content ops = true := by
  simp [takes]

theorem takes_replace_iff {new : String} :
    takes x content (.replace id new :: ops) = true ↔
      (id = x ∧ new ≠ content) ∨ takes x content ops = true := by
  simp [takes]

end

namespace Document

variable {ops : List PatchOp} {op : PatchOp} {blocks next result : List Block} {g h : IdSource}
  {b : Block} {x : BlockId} {content : String}

/-- A replacement changes the block that it is about, and no other. -/
theorem mem_of_apply_replace {id : BlockId}
    (happly : (PatchOp.replace id content).apply blocks = .ok next) (hne : b.id ≠ id) :
    b ∈ next ↔ b ∈ blocks := by
  obtain ⟨front, c, back, rfl, rfl, hfront⟩ :=
    Block.exists_split (PatchOp.ids_of_apply_replace happly).1
  rw [PatchOp.apply, Block.setContent_append content hfront] at happly
  cases happly
  have hother : b ≠ c ∧ b ≠ { c with content } :=
    ⟨fun heq => hne (by rw [heq]), fun heq => hne (by rw [heq])⟩
  simp [hother]

/-- Changes that do not take a block leave it as it is. -/
theorem mem_of_takes (hnodup : (blocks.map (·.id)).Nodup)
    (happly : applyOps ops blocks g = .ok (result, h)) (hb : b ∈ blocks)
    (htakes : takes b.id b.content ops = false) : b ∈ result := by
  induction ops generalizing blocks g with
  | nil =>
    cases happly
    exact hb
  | cons op ops ih =>
    obtain ⟨next, hop, hrest⟩ := applyOps_cons_eq_ok_iff.1 happly
    have hnext := PatchOp.nodup_of_apply hnodup hop
    cases op with
    | insert c place =>
      obtain ⟨hnew, hperm⟩ := PatchOp.perm_of_apply_insert hop
      have hne : c.id ≠ b.id := fun heq => hnew (heq ▸ List.mem_map_of_mem hb)
      simp only [takes, Bool.and_eq_false_imp, decide_eq_true_eq] at htakes
      exact ih hnext hrest (hperm.mem_iff.2 (List.mem_cons_of_mem c hb)) (htakes hne)
    | delete id =>
      obtain ⟨c, rfl, hperm⟩ := PatchOp.perm_of_apply_delete hop
      simp only [takes, Bool.or_eq_false_iff, decide_eq_false_iff_not] at htakes
      have hleft := (List.mem_cons.1 (hperm.mem_iff.1 hb)).resolve_left
        fun heq => htakes.1 (by rw [heq])
      exact ih hnext hrest hleft htakes.2
    | replace id new =>
      simp only [takes, Bool.or_eq_false_iff, decide_eq_false_iff_not, not_and, not_not] at htakes
      refine ih hnext hrest ?_ htakes.2
      by_cases hid : b.id = id
      · obtain ⟨front, back, rfl⟩ := List.append_of_mem hb
        have hfront : b.id ∉ front.map (·.id) := by
          rw [List.map_append, List.map_cons, List.nodup_middle, List.nodup_cons] at hnodup
          exact fun hmem => hnodup.1 (List.mem_append_left _ hmem)
        rw [← hid, htakes.1 hid.symm, PatchOp.apply, Block.setContent_append _ hfront] at hop
        cases hop
        simp
      · exact (mem_of_apply_replace hop hid).2 hb
    | move id place =>
      exact ih hnext hrest ((PatchOp.perm_of_apply_move hop).2.mem_iff.2 hb) htakes

/-- Changes cannot take a block that is not there. -/
theorem takes_of_not_mem (content : String) (hnodup : (blocks.map (·.id)).Nodup)
    (happly : applyOps ops blocks g = .ok (result, h)) (hx : x ∉ blocks.map (·.id)) :
    takes x content ops = false := by
  induction ops generalizing blocks g with
  | nil => rfl
  | cons op ops ih =>
    obtain ⟨next, hop, hrest⟩ := applyOps_cons_eq_ok_iff.1 happly
    have hmem := PatchOp.mem_ids_of_apply hnodup hop x
    have hnext : x ∉ next.map (·.id) → takes x content ops = false :=
      ih (PatchOp.nodup_of_apply hnodup hop) hrest
    cases op with
    | insert c place =>
      rw [takes]
      by_cases hc : c.id = x
      · simp [hc]
      · simp [hnext fun hin => (hmem.1 hin).elim (fun heq => hc heq.symm) hx]
    | delete id =>
      have hne : id ≠ x := by
        rintro rfl
        obtain ⟨c, rfl, hperm⟩ := PatchOp.perm_of_apply_delete hop
        exact hx (List.mem_map_of_mem (hperm.mem_iff.2 List.mem_cons_self))
      simp [takes, hne, hnext fun hin => hx (hmem.1 hin).1]
    | replace id new =>
      have hne : id ≠ x := by
        rintro rfl
        exact hx (PatchOp.ids_of_apply_replace hop).1
      simp [takes, hne, hnext fun hin => hx (hmem.1 hin)]
    | move id place => exact hnext fun hin => hx (hmem.1 hin)

/-- A block that no change has written was there before. -/
theorem mem_of_not_writes (happly : applyOps ops blocks g = .ok (result, h)) (hb : b ∈ result)
    (hwrites : ∀ op ∈ ops, op.writes b.id = false) : b ∈ blocks := by
  induction ops generalizing blocks g with
  | nil =>
    cases happly
    exact hb
  | cons op ops ih =>
    obtain ⟨next, hop, hrest⟩ := applyOps_cons_eq_ok_iff.1 happly
    have hnext : b ∈ next := ih hrest fun e he => hwrites e (List.mem_cons_of_mem op he)
    have hnot := hwrites op List.mem_cons_self
    cases op with
    | insert c place =>
      have hmem := (PatchOp.perm_of_apply_insert hop).2.mem_iff.1 hnext
      refine (List.mem_cons.1 hmem).resolve_left ?_
      rintro rfl
      simp [PatchOp.writes] at hnot
    | delete id =>
      obtain ⟨c, -, hperm⟩ := PatchOp.perm_of_apply_delete hop
      exact hperm.mem_iff.2 (List.mem_cons_of_mem c hnext)
    | replace id new =>
      have hne : id ≠ b.id := by simpa [PatchOp.writes] using hnot
      exact (mem_of_apply_replace hop hne.symm).1 hnext
    | move id place => exact (PatchOp.perm_of_apply_move hop).2.mem_iff.1 hnext

end Document

namespace Rebase

variable {ops : List PatchOp} {blocks result : List Block} {g h : IdSource} {x : BlockId}
  {content : String}

theorem takes_of_touched_none (content : String) (htouched : touched ops x = none) :
    takes x content ops = false := by
  induction ops with
  | nil => rfl
  | cons op ops ih =>
    rw [touched_cons, Option.or_eq_none_iff] at htouched
    have hrest := ih htouched.1
    cases op with
    | insert b place => simp [takes, hrest]
    | delete id =>
      have hne : id ≠ x := by simpa [touchBy] using htouched.2
      simp [takes, hne, hrest]
    | replace id new =>
      have hne : id ≠ x := by simpa [touchBy] using htouched.2
      simp [takes, hne, hrest]
    | move id place => exact hrest

/-- A block whose content was replaced at last has the content that it got then. -/
theorem content_of_touched {b : Block} (hnodup : (blocks.map (·.id)).Nodup)
    (happly : Document.applyOps ops blocks g = .ok (result, h)) (hb : b ∈ result)
    (htouched : touched ops b.id = some (.replaced content)) : b.content = content := by
  induction ops generalizing blocks g with
  | nil => cases htouched
  | cons op ops ih =>
    obtain ⟨next, hop, hrest⟩ := Document.applyOps_cons_eq_ok_iff.1 happly
    have hnext := PatchOp.nodup_of_apply hnodup hop
    rw [touched_cons, Option.or_eq_some_iff] at htouched
    obtain hlater | ⟨hnone, hby⟩ := htouched
    · exact ih hnext hrest hlater
    · cases op with
      | insert c place => cases hby
      | delete id => simp [touchBy] at hby
      | replace id new =>
        obtain ⟨rfl, rfl⟩ : id = b.id ∧ new = content := by simpa [touchBy] using hby
        obtain ⟨front, c, back, rfl, hid, hfront⟩ :=
          Block.exists_split (PatchOp.ids_of_apply_replace hop).1
        rw [← hid] at hfront
        rw [← hid, PatchOp.apply, Block.setContent_append new hfront] at hop
        cases hop
        have hleft : { c with content := new } ∈ result := Document.mem_of_takes hnext hrest
          (by simp) (takes_of_touched_none new (hid ▸ hnone))
        have hsame := List.inj_on_of_nodup_map (Document.nodup_of_applyOps hnext hrest) hb hleft
          hid.symm
        rw [hsame]
      | move id place => cases hby

/-- Changes that never touch a block that is there never write it. -/
theorem writes_of_touched_none (hnodup : (blocks.map (·.id)).Nodup)
    (happly : Document.applyOps ops blocks g = .ok (result, h))
    (htouched : touched ops x = none) (hx : x ∈ blocks.map (·.id)) :
    ∀ op ∈ ops, op.writes x = false := by
  induction ops generalizing blocks g with
  | nil => exact nofun
  | cons op ops ih =>
    obtain ⟨next, hop, hrest⟩ := Document.applyOps_cons_eq_ok_iff.1 happly
    rw [touched_cons, Option.or_eq_none_iff] at htouched
    have hnext : x ∈ next.map (·.id) := by
      refine (PatchOp.mem_or_deletes_of_apply hnodup hop hx).resolve_right ?_
      rintro rfl
      simp [touchBy] at htouched
    have hfirst : op.writes x = false := by
      cases op with
      | insert b place =>
        have hne : b.id ≠ x := fun heq => (PatchOp.perm_of_apply_insert hop).1 (heq ▸ hx)
        simpa [PatchOp.writes] using hne
      | delete id => rfl
      | replace id new =>
        have hne : id ≠ x := by simpa [touchBy] using htouched.2
        simpa [PatchOp.writes] using hne
      | move id place => rfl
    intro e he
    rcases List.mem_cons.1 he with rfl | he
    · exact hfirst
    · exact ih (PatchOp.nodup_of_apply hnodup hop) hrest htouched.1 hnext e he

variable {c : Setting} {s t : State}

theorem ops_eq_append_cons {mid : State} {e : PatchOp} {emitted : List PatchOp}
    (hmid : mid.ops = s.ops ++ [e]) (hops : t.ops = mid.ops ++ emitted) :
    t.ops = s.ops ++ e :: emitted := by
  rw [hops, hmid, List.append_assoc, List.singleton_append]

/-- A later patch that wins over a replacement is in conflict with it, if it takes the block that
    has got its content by it. -/
theorem conflict_of_carryAll (hpolicy : c.policy = .laterWins)
    (htouch : touch? c x = some (.replaced content)) (hcarry : carryAll c s ops = .ok t) :
    s.conflicts ⊆ t.conflicts ∧
      ∃ emitted, t.ops = s.ops ++ emitted ∧ (takes x content emitted = true → x ∈ t.conflicts) := by
  induction ops generalizing s with
  | nil =>
    cases hcarry
    exact ⟨List.Subset.refl _, [], (List.append_nil _).symm, by simp [takes]⟩
  | cons op ops ih =>
    obtain ⟨mid, hfirst, hmore⟩ := carryAll_cons_eq_ok_iff.1 hcarry
    obtain ⟨hsub, emitted, hops, htakes⟩ := ih hmore
    cases op with
    | insert b place =>
      obtain ⟨name, a, -, hmid, hconflicts, -⟩ := carryInsert_spec hfirst
      refine ⟨hconflicts ▸ hsub, _, ops_eq_append_cons hmid hops, fun h => ?_⟩
      exact htakes (takes_insert_iff.1 h).2
    | delete id =>
      obtain ⟨rfl, -⟩ | ⟨-, hmid, -, hsub', hclash⟩ := carryDelete_spec hpolicy hfirst
      · exact ⟨hsub, emitted, hops, htakes⟩
      · refine ⟨fun y hy => hsub (hsub' hy), _, ops_eq_append_cons hmid hops, fun h => ?_⟩
        obtain rfl | h := takes_delete_iff.1 h
        · exact hsub (hclash content htouch)
        · exact htakes h
    | replace id new =>
      obtain ⟨-, hsub', ⟨-, hmid, hclash⟩ | ⟨kind, a, -, -, hmid⟩⟩ :=
        carryReplace_spec hpolicy hfirst
      · refine ⟨fun y hy => hsub (hsub' hy), _, ops_eq_append_cons hmid hops, fun h => ?_⟩
        obtain ⟨rfl, hne⟩ | h := takes_replace_iff.1 h
        · exact hsub (hclash content htouch hne.symm)
        · exact htakes h
      · refine ⟨fun y hy => hsub (hsub' hy), _, ops_eq_append_cons hmid hops, fun h => ?_⟩
        exact htakes (takes_insert_iff.1 h).2
    | move id place =>
      obtain ⟨rfl, -⟩ | ⟨a, -, hmid, -, hconflicts⟩ := carryMove_spec hfirst
      · exact ⟨hsub, emitted, hops, htakes⟩
      · exact ⟨hconflicts ▸ hsub, _, ops_eq_append_cons hmid hops, fun h => htakes h⟩

theorem exists_emitted (hcarry : carryAll c s ops = .ok t) :
    ∃ emitted, t.ops = s.ops ++ emitted := by
  induction ops generalizing s with
  | nil =>
    cases hcarry
    exact ⟨[], (List.append_nil _).symm⟩
  | cons op ops ih =>
    obtain ⟨mid, hfirst, hmore⟩ := carryAll_cons_eq_ok_iff.1 hcarry
    obtain ⟨emitted, hops⟩ := ih hmore
    obtain ⟨hsame, -⟩ | ⟨e, hmid, -⟩ := apply_of_carry hfirst
    · exact ⟨emitted, hsame ▸ hops⟩
    · exact ⟨_, ops_eq_append_cons hmid hops⟩

/-- Where a block is there, and no other block has got its name. -/
structure Guards (x : BlockId) (s : State) : Prop where
  nodup : (s.working.map (·.id)).Nodup
  mem : x ∈ s.working.map (·.id)
  renamed : ∀ r ∈ s.renamed, r.2 ≠ x

/-- The changes that are carried from here on take a block only if they did so before they were
    carried, and are then looked for under its own name. -/
def TakesBack (x : BlockId) (content : String) (s : State) (ops : List PatchOp) (t : State) :
    Prop :=
  ∃ emitted, t.ops = s.ops ++ emitted ∧
    (takes x content emitted = true → takes x content ops = true ∧ resolve s x = x)

namespace Guards

variable {mid : State}

/-- Only a change to the block itself is looked for under its name. -/
theorem eq_of_resolve_eq (h : Guards x s) {id : BlockId} (hid : resolve s id = x) : id = x := by
  obtain ⟨hself, -⟩ | ⟨r, hr, -, heq⟩ := resolve_cases s id
  · exact hself.symm.trans hid
  · exact absurd (heq.symm.trans hid) (h.renamed r hr)

theorem apply (h : Guards x s) {e : PatchOp} (happly : e.apply s.working = .ok mid.working)
    (hne : e ≠ .delete x) (hrenamed : ∀ r ∈ mid.renamed, r.2 ≠ x) : Guards x mid :=
  ⟨PatchOp.nodup_of_apply h.nodup happly,
    (PatchOp.mem_or_deletes_of_apply h.nodup happly h.mem).resolve_right hne, hrenamed⟩

/-- A block that is inserted under the name of the block gets another one, and the changes behind
    it are looked for under that one. -/
theorem carryInsert (h : Guards x s) {b : Block} {place : Option BlockId}
    (hcarry : carryInsert c s b place = .ok mid)
    (hrest : Guards x mid → TakesBack x content mid ops t) :
    TakesBack x content s (.insert b place :: ops) t := by
  obtain ⟨name, a, happly, hmid, -, hname⟩ := carryInsert_spec hcarry
  have hne : name ≠ x := by
    rintro rfl
    exact (PatchOp.perm_of_apply_insert happly).1 h.mem
  have hrenamed : ∀ r ∈ mid.renamed, r.2 ≠ x := by
    obtain ⟨-, hsame⟩ | ⟨-, hcons⟩ := hname
    · exact hsame ▸ h.renamed
    · rw [hcons]
      exact List.forall_mem_cons.2 ⟨hne, h.renamed⟩
  obtain ⟨emitted, hops, htakes⟩ := hrest (h.apply happly (by simp) hrenamed)
  refine ⟨_, ops_eq_append_cons hmid hops, fun htaken => ?_⟩
  obtain ⟨hlater, hself⟩ := htakes (takes_insert_iff.1 htaken).2
  obtain ⟨rfl, hsame⟩ | ⟨-, hcons⟩ := hname
  · rw [resolve_congr hsame] at hself
    exact ⟨takes_insert_iff.2 ⟨hne, hlater⟩, hself⟩
  · rw [resolve_of_renamed_cons hcons] at hself
    by_cases hb : x = b.id
    · rw [if_pos hb] at hself
      exact absurd hself hne
    · rw [if_neg hb] at hself
      exact ⟨takes_insert_iff.2 ⟨Ne.symm hb, hlater⟩, hself⟩

theorem carryDelete (h : Guards x s) (hpolicy : c.policy = .laterWins) {id : BlockId}
    (hcarry : carryDelete c s (resolve s id) = .ok mid)
    (hmore : ∃ emitted, t.ops = mid.ops ++ emitted)
    (hrest : Guards x mid → TakesBack x content mid ops t) :
    TakesBack x content s (.delete id :: ops) t := by
  obtain ⟨rfl, -⟩ | ⟨happly, hmid, hsame, -⟩ := carryDelete_spec hpolicy hcarry
  · obtain ⟨emitted, hops, htakes⟩ := hrest h
    refine ⟨emitted, hops, fun htaken => ?_⟩
    obtain ⟨hlater, hself⟩ := htakes htaken
    exact ⟨takes_delete_iff.2 (.inr hlater), hself⟩
  · by_cases hid : resolve s id = x
    · obtain rfl := h.eq_of_resolve_eq hid
      obtain ⟨emitted, hops⟩ := hmore
      exact ⟨_, ops_eq_append_cons hmid hops, fun _ => ⟨takes_delete_iff.2 (.inl rfl), hid⟩⟩
    · obtain ⟨emitted, hops, htakes⟩ :=
        hrest (h.apply happly (by simpa using hid) (hsame ▸ h.renamed))
      rw [resolve_congr hsame] at htakes
      refine ⟨_, ops_eq_append_cons hmid hops, fun htaken => ?_⟩
      obtain ⟨hlater, hself⟩ := htakes ((takes_delete_iff.1 htaken).resolve_left hid)
      exact ⟨takes_delete_iff.2 (.inr hlater), hself⟩

theorem carryReplace (h : Guards x s) (hpolicy : c.policy = .laterWins) {id : BlockId}
    {new : String} (hcarry : carryReplace c s (resolve s id) new = .ok mid)
    (hrest : Guards x mid → TakesBack x content mid ops t) :
    TakesBack x content s (.replace id new :: ops) t := by
  obtain ⟨hsame, -, ⟨happly, hmid, -⟩ | ⟨kind, a, -, happly, hmid⟩⟩ :=
    carryReplace_spec hpolicy hcarry
  · obtain ⟨emitted, hops, htakes⟩ := hrest (h.apply happly (by simp) (hsame ▸ h.renamed))
    rw [resolve_congr hsame] at htakes
    refine ⟨_, ops_eq_append_cons hmid hops, fun htaken => ?_⟩
    obtain ⟨hid, hnew⟩ | htaken := takes_replace_iff.1 htaken
    · obtain rfl := h.eq_of_resolve_eq hid
      exact ⟨takes_replace_iff.2 (.inl ⟨rfl, hnew⟩), hid⟩
    · obtain ⟨hlater, hself⟩ := htakes htaken
      exact ⟨takes_replace_iff.2 (.inr hlater), hself⟩
  · obtain ⟨emitted, hops, htakes⟩ := hrest (h.apply happly (by simp) (hsame ▸ h.renamed))
    rw [resolve_congr hsame] at htakes
    refine ⟨_, ops_eq_append_cons hmid hops, fun htaken => ?_⟩
    obtain ⟨hlater, hself⟩ := htakes (takes_insert_iff.1 htaken).2
    exact ⟨takes_replace_iff.2 (.inr hlater), hself⟩

theorem carryMove (h : Guards x s) {id : BlockId} {place : Option BlockId}
    (hcarry : carryMove c s (resolve s id) place = .ok mid)
    (hrest : Guards x mid → TakesBack x content mid ops t) :
    TakesBack x content s (.move id place :: ops) t := by
  obtain ⟨rfl, -⟩ | ⟨a, happly, hmid, hsame, -⟩ := carryMove_spec hcarry
  · exact hrest h
  · obtain ⟨emitted, hops, htakes⟩ := hrest (h.apply happly (by simp) (hsame ▸ h.renamed))
    rw [resolve_congr hsame] at htakes
    exact ⟨_, ops_eq_append_cons hmid hops, fun htaken => htakes htaken⟩

/-- A block that is there when the later patch is carried over is taken by the carried patch only
    if the patch itself takes it. -/
theorem takesBack (h : Guards x s) (content : String) (hpolicy : c.policy = .laterWins)
    (hcarry : carryAll c s ops = .ok t) : TakesBack x content s ops t := by
  induction ops generalizing s with
  | nil =>
    cases hcarry
    exact ⟨[], (List.append_nil _).symm, by simp [takes]⟩
  | cons op ops ih =>
    obtain ⟨mid, hfirst, hmore⟩ := carryAll_cons_eq_ok_iff.1 hcarry
    have hrest : Guards x mid → TakesBack x content mid ops t := fun hmid => ih hmid hmore
    cases op with
    | insert b place => exact h.carryInsert hfirst hrest
    | delete id => exact h.carryDelete hpolicy hfirst (exists_emitted hmore) hrest
    | replace id new => exact h.carryReplace hpolicy hfirst hrest
    | move id place => exact h.carryMove hfirst hrest

end Guards

end Rebase

namespace Patch

variable {later earlier : Patch} {before current : Document} {rebased : Rebased} {x : BlockId}

theorem takes_of_rebase (content : String) (hnodup : (current.blocks.map (·.id)).Nodup)
    (hx : x ∈ current.blocks.map (·.id))
    (hrebase : later.rebase earlier before current .laterWins = .ok rebased)
    (htakes : takes x content rebased.patch.ops = true) : takes x content later.ops = true := by
  obtain ⟨-, s, hcarry, rfl⟩ := rebase_eq_ok hrebase
  have hguards : Rebase.Guards x ⟨current.blocks, current.ids, [], [], []⟩ :=
    ⟨hnodup, hx, by simp⟩
  obtain ⟨emitted, hops, hback⟩ := hguards.takesBack content rfl hcarry
  rw [List.nil_append] at hops
  exact (hback (hops ▸ htakes)).1

theorem mem_conflicts_of_takes {content : String}
    (htouched : Rebase.touched earlier.ops x = some (.replaced content))
    (hrebase : later.rebase earlier before current .laterWins = .ok rebased)
    (htakes : takes x content rebased.patch.ops = true) : x ∈ rebased.conflicts := by
  obtain ⟨-, s, hcarry, rfl⟩ := rebase_eq_ok hrebase
  have htouch : Rebase.touch? ⟨before.blocks, earlier.ops, .laterWins⟩ x =
      some (.replaced content) := htouched
  obtain ⟨-, emitted, hops, hclash⟩ := Rebase.conflict_of_carryAll rfl htouch hcarry
  rw [List.nil_append] at hops
  exact hclash (hops ▸ htakes)

end Patch

end LiterateSync
