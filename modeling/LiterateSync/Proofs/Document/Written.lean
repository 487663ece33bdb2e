import LiterateSync.Document.Diff
import LiterateSync.Proofs.Document.Rebase

namespace LiterateSync

namespace PatchOp

/-- Whether a change gives a block its content. -/
def writes (id : BlockId) : PatchOp → Bool
  | .insert block _ => block.id = id
  | .replace target _ => target = id
  | _ => false

/-- Whether a change deletes a block that an earlier change has given its content. -/
def undoes (later earlier : PatchOp) : Bool :=
  match later with
  | .delete id => earlier.writes id
  | _ => false

variable {op : PatchOp} {blocks result : List Block} {x : BlockId}

theorem mem_or_writes_of_apply (hnodup : (blocks.map (·.id)).Nodup)
    (h : op.apply blocks = .ok result) (hx : x ∈ result.map (·.id)) :
    x ∈ blocks.map (·.id) ∨ op.writes x = true := by
  have hmem := (mem_ids_of_apply hnodup h x).1 hx
  cases op with
  | insert b after =>
    obtain rfl | hold := hmem
    · exact .inr (by simp [writes])
    · exact .inl hold
  | delete id => exact .inl hmem.1
  | replace id content => exact .inl hmem
  | move id after => exact .inl hmem

theorem mem_or_deletes_of_apply (hnodup : (blocks.map (·.id)).Nodup)
    (h : op.apply blocks = .ok result) (hx : x ∈ blocks.map (·.id)) :
    x ∈ result.map (·.id) ∨ op = .delete x := by
  have hmem := mem_ids_of_apply hnodup h x
  cases op with
  | insert b after => exact .inl (hmem.2 (.inr hx))
  | delete id =>
    by_cases hid : x = id
    · exact .inr (by rw [hid])
    · exact .inl (hmem.2 ⟨hx, hid⟩)
  | replace id content => exact .inl (hmem.2 hx)
  | move id after => exact .inl (hmem.2 hx)

theorem mem_of_writes (hnodup : (blocks.map (·.id)).Nodup) (h : op.apply blocks = .ok result)
    (hwrites : op.writes x = true) : x ∈ result.map (·.id) := by
  have hmem := mem_ids_of_apply hnodup h x
  cases op with
  | insert b after => exact hmem.2 (.inl (by simpa [writes, eq_comm] using hwrites))
  | delete id => cases hwrites
  | replace id content =>
    have hid : id = x := by simpa [writes] using hwrites
    exact hmem.2 (hid ▸ (ids_of_apply_replace h).1)
  | move id after => cases hwrites

end PatchOp

/-- Whether no change deletes what one before it has written. -/
def KeepsWritten (ops : List PatchOp) : Prop :=
  ops.Pairwise fun earlier later => later.undoes earlier = false

instance (ops : List PatchOp) : Decidable (KeepsWritten ops) :=
  inferInstanceAs (Decidable (ops.Pairwise _))

namespace Rebase

variable {c : Setting} {s t : State} {op : PatchOp}

theorem emit_eq_ok (h : emit s op = .ok t) : t.ops = s.ops ++ [op] ∧ t.renamed = s.renamed := by
  rw [emit] at h
  split at h
  · cases h
  · cases h
    exact ⟨rfl, rfl⟩

theorem carryInsert_eq_ok {b : Block} {place : Option BlockId}
    (h : carryInsert c s b place = .ok t) :
    ∃ name a, t.ops = s.ops ++ [.insert { b with id := name } a] ∧
      (name = b.id ∧ t.renamed = s.renamed ∨ t.renamed = (b.id, name) :: s.renamed) := by
  cases hholds : holds s b.id with
  | true =>
    obtain ⟨a, -, heq⟩ := carryInsert_of_holds c place hholds
    obtain ⟨hops, hrenamed⟩ := emit_eq_ok (heq ▸ h)
    exact ⟨_, a, hops, .inr hrenamed⟩
  | false =>
    obtain ⟨a, -, heq⟩ := carryInsert_of_free c place hholds
    obtain ⟨hops, hrenamed⟩ := emit_eq_ok (heq ▸ h)
    exact ⟨b.id, a, hops, .inl ⟨rfl, hrenamed⟩⟩

theorem carryDelete_eq_ok {id : BlockId} (h : carryDelete c s id = .ok t) :
    (t.ops = s.ops ∨ t.ops = s.ops ++ [.delete id]) ∧ t.renamed = s.renamed := by
  rw [carryDelete] at h
  split at h
  · dsimp only at h
    split at h
    · exact (emit_eq_ok h).imp_left .inr
    · cases h
      exact ⟨.inl rfl, rfl⟩
  · exact (emit_eq_ok h).imp_left .inr
  · cases h
    exact ⟨.inl rfl, rfl⟩
  · cases h

theorem restore_eq_ok {id : BlockId} {content : String} (h : restore c s id content = .ok op) :
    ∃ b a, op = .insert b a ∧ b.id = id := by
  rw [restore] at h
  split at h
  · cases h
  · cases h
    exact ⟨_, _, rfl, rfl⟩

/-- A replacement is carried over as a change that writes the same block. -/
theorem carryReplace_eq_ok {id : BlockId} {content : String}
    (h : carryReplace c s id content = .ok t) :
    (t.ops = s.ops ∨ ∃ e, t.ops = s.ops ++ [e] ∧ (∀ x, e ≠ .delete x) ∧
      ∀ x, e.writes x = true → x = id) ∧ t.renamed = s.renamed := by
  have hreplace : ∀ s' : State, emit s' (.replace id content) = .ok t →
      s'.ops = s.ops → s'.renamed = s.renamed →
      (t.ops = s.ops ∨ ∃ e, t.ops = s.ops ++ [e] ∧ (∀ x, e ≠ .delete x) ∧
        ∀ x, e.writes x = true → x = id) ∧ t.renamed = s.renamed := by
    intro s' hemit hops hrenamed
    obtain ⟨hops', hrenamed'⟩ := emit_eq_ok hemit
    refine ⟨.inr ⟨_, hops ▸ hops', fun x => by simp, fun x hx => ?_⟩, hrenamed'.trans hrenamed⟩
    exact (by simpa [PatchOp.writes] using hx : id = x).symm
  rw [carryReplace] at h
  split at h
  · split at h
    · exact hreplace _ h rfl rfl
    · dsimp only at h
      split at h
      · exact hreplace _ h rfl rfl
      · cases h
        exact ⟨.inl rfl, rfl⟩
  · exact hreplace _ h rfl rfl
  · dsimp only at h
    split at h
    · split at h
      · cases h
      · rename_i hrestore
        obtain ⟨b, a, rfl, rfl⟩ := restore_eq_ok hrestore
        obtain ⟨hops, hrenamed⟩ := emit_eq_ok h
        refine ⟨.inr ⟨_, hops, fun x => by simp, fun x hx => ?_⟩, hrenamed⟩
        exact (by simpa [PatchOp.writes] using hx : b.id = x).symm
    · cases h
      exact ⟨.inl rfl, rfl⟩
  · cases h

theorem carryMove_eq_ok {id : BlockId} {place : Option BlockId}
    (h : carryMove c s id place = .ok t) :
    (t.ops = s.ops ∨ ∃ a, t.ops = s.ops ++ [.move id a]) ∧ t.renamed = s.renamed := by
  rw [carryMove] at h
  split at h
  · exact (emit_eq_ok h).imp_left fun hops => .inr ⟨_, hops⟩
  · cases h
    exact ⟨.inl rfl, rfl⟩
  · cases h

/-- A change is dropped, or stands for one that writes or deletes the same block under the name
    that the block has now. -/
theorem carry_eq_ok (h : carry c s op = .ok t) :
    (t.ops = s.ops ∨ ∃ e, t.ops = s.ops ++ [e] ∧
      (∀ x, e.writes x = true → op.writes x = true ∨ ∃ r ∈ t.renamed, x = r.2) ∧
      ∀ x, e = .delete x → ∃ y, op = .delete y ∧ x = resolve s y) ∧
    (t.renamed = s.renamed ∨ ∃ name, op.writes op.target = true ∧
      t.renamed = (op.target, name) :: s.renamed) := by
  cases op with
  | insert b place =>
    obtain ⟨name, a, hops, hrenamed⟩ := carryInsert_eq_ok h
    refine ⟨.inr ⟨_, hops, fun x hx => ?_, fun x hx => by cases hx⟩, ?_⟩
    · have hname : name = x := by simpa [PatchOp.writes] using hx
      obtain ⟨hself, -⟩ | hrenamed := hrenamed
      · exact .inl (by simp [PatchOp.writes, ← hname, hself])
      · exact .inr ⟨(b.id, name), by simp [hrenamed], hname.symm⟩
    · obtain ⟨-, hsame⟩ | hrenamed := hrenamed
      · exact .inl hsame
      · exact .inr ⟨name, by simp [PatchOp.writes, PatchOp.target], hrenamed⟩
  | delete id =>
    obtain ⟨hops | hops, hrenamed⟩ := carryDelete_eq_ok h
    · exact ⟨.inl hops, .inl hrenamed⟩
    · refine ⟨.inr ⟨_, hops, fun x hx => (by cases hx), fun x hx => ?_⟩, .inl hrenamed⟩
      cases hx
      exact ⟨id, rfl, rfl⟩
  | replace id content =>
    obtain ⟨hops | ⟨e, hops, hdelete, hwrites⟩, hrenamed⟩ := carryReplace_eq_ok h
    · exact ⟨.inl hops, .inl hrenamed⟩
    · refine ⟨.inr ⟨e, hops, fun x hx => ?_, fun x hx => absurd hx (hdelete x)⟩, .inl hrenamed⟩
      rw [hwrites x hx]
      obtain ⟨hself, -⟩ | ⟨r, hr, -, heq⟩ := resolve_cases s id
      · exact .inl (by simp [PatchOp.writes, hself])
      · exact .inr ⟨r, hrenamed ▸ hr, heq⟩
  | move id place =>
    obtain ⟨hops | ⟨a, hops⟩, hrenamed⟩ := carryMove_eq_ok h
    · exact ⟨.inl hops, .inl hrenamed⟩
    · exact ⟨.inr ⟨_, hops, fun x hx => (by cases hx), fun x hx => (by cases hx)⟩, .inl hrenamed⟩

/-- What holds while a patch that keeps what it has written is carried over, after the changes
    `done`: the blocks in view and the carried changes are about names that the patch has written,
    names from before, and fresh ones. -/
structure Unspoilt (c : Setting) (g : IdSource) (done : List PatchOp) (view : List Block)
    (s : State) : Prop where
  seen : ∀ x ∈ view.map (·.id), (∃ d ∈ done, d.writes x = true) ∨ x ∈ c.before.map (·.id)
  /-- A block with a new name is still in view. -/
  keys : ∀ e ∈ s.renamed, e.1 ∈ view.map (·.id) ∧ ∃ d ∈ done, d.writes e.1 = true
  written : ∀ e ∈ s.ops, ∀ x, e.writes x = true → (∃ d ∈ done, d.writes x = true) ∨
    ∃ n, g.count < n ∧ n ≤ IdSource.maxNumber ∧ x = g.name n
  keeps : KeepsWritten s.ops

variable {g : IdSource} {done : List PatchOp} {view next after : List Block}

theorem unspoilt_start (c : Setting) (g : IdSource) (working : List Block) :
    Unspoilt c g [] c.before ⟨working, g, [], [], []⟩ :=
  ⟨fun _ hx => .inr hx, by simp, by simp, .nil⟩

/-- A deletion by a patch that keeps what it has written is about a block from before, which
    has its old name, and which no carried change has written. -/
theorem Unspoilt.of_delete (h : Unspoilt c g done view s) (hbefore : g.Covers c.before)
    {y : BlockId} (hy : y ∈ view.map (·.id)) (hkeeps : ∀ d ∈ done, d.writes y = false) :
    resolve s y = y ∧ ∀ e ∈ s.ops, e.writes y = false := by
  have hnot : ¬ ∃ d ∈ done, d.writes y = true := by
    rintro ⟨d, hd, hwrites⟩
    rw [hkeeps d hd] at hwrites
    cases hwrites
  constructor
  · obtain ⟨hself, -⟩ | ⟨e, he, hid, -⟩ := resolve_cases s y
    · exact hself
    · exact absurd (hid ▸ (h.keys e he).2) hnot
  · intro e he
    rw [← Bool.not_eq_true]
    intro hwrites
    obtain hdone | ⟨n, hlt, hmax, rfl⟩ := h.written e he y hwrites
    · exact hnot hdone
    · exact hbefore.name_not_mem hlt hmax ((h.seen _ hy).resolve_left hnot)

/-- A change that undoes none of the changes before it leaves what they have written in view. -/
theorem Unspoilt.keys_carry (h : Unspoilt c g done view s) (hview : (view.map (·.id)).Nodup)
    (hop : op.apply view = .ok next) (hcarry : carry c s op = .ok t)
    (hkeeps : ∀ d ∈ done, op.undoes d = false) : ∀ e ∈ t.renamed,
      e.1 ∈ next.map (·.id) ∧ ∃ d ∈ done ++ [op], d.writes e.1 = true := by
  intro e he
  have hold : e ∈ s.renamed →
      e.1 ∈ next.map (·.id) ∧ ∃ d ∈ done ++ [op], d.writes e.1 = true := by
    intro he
    obtain ⟨hin, d, hd, hwrites⟩ := h.keys e he
    refine ⟨?_, d, List.mem_append_left _ hd, hwrites⟩
    obtain hin | rfl := PatchOp.mem_or_deletes_of_apply hview hop hin
    · exact hin
    · exact absurd (hkeeps d hd) (by simp [PatchOp.undoes, hwrites])
  obtain hsame | ⟨name, hwrites, hcons⟩ := (carry_eq_ok hcarry).2
  · exact hold (hsame ▸ he)
  · rw [hcons] at he
    rcases List.mem_cons.1 he with rfl | he
    · exact ⟨PatchOp.mem_of_writes hview hop hwrites, op, by simp, hwrites⟩
    · exact hold he

/-- A carried deletion comes from a deletion, and undoes none of the carried changes before it. -/
theorem Unspoilt.keeps_carry (h : Unspoilt c g done view s) (hbefore : g.Covers c.before)
    (hop : op.apply view = .ok next) (hcarry : carry c s op = .ok t)
    (hkeeps : ∀ d ∈ done, op.undoes d = false) : KeepsWritten t.ops := by
  obtain hsame | ⟨e', hcons, -, hdelete⟩ := (carry_eq_ok hcarry).1
  · exact hsame ▸ h.keeps
  · rw [hcons]
    refine List.pairwise_append.2 ⟨h.keeps, List.pairwise_singleton _ _, fun e he e'' he'' => ?_⟩
    rw [List.mem_singleton] at he''
    subst he''
    cases e'' with
    | delete x =>
      obtain ⟨y, rfl, rfl⟩ := hdelete x rfl
      obtain ⟨b, rfl, hperm⟩ := PatchOp.perm_of_apply_delete hop
      have hin : b.id ∈ view.map (·.id) := List.mem_map_of_mem (hperm.mem_iff.2 (by simp))
      obtain ⟨hself, hnever⟩ := h.of_delete hbefore hin hkeeps
      rw [hself]
      exact hnever e he
    | insert b place => rfl
    | replace id content => rfl
    | move id place => rfl

theorem Unspoilt.carry (h : Unspoilt c g done view s) (hbefore : g.Covers c.before)
    (hview : (view.map (·.id)).Nodup) (hop : op.apply view = .ok next)
    (hcarry : carry c s op = .ok t)
    (hfresh : ∀ e ∈ t.renamed, ∃ n, g.count < n ∧ n ≤ IdSource.maxNumber ∧ e.2 = g.name n)
    (hkeeps : ∀ d ∈ done, op.undoes d = false) : Unspoilt c g (done ++ [op]) next t := by
  have hmore : ∀ x, (∃ d ∈ done, d.writes x = true) → ∃ d ∈ done ++ [op], d.writes x = true :=
    fun x ⟨d, hd, hx⟩ => ⟨d, List.mem_append_left _ hd, hx⟩
  have hthis : ∀ x, op.writes x = true → ∃ d ∈ done ++ [op], d.writes x = true :=
    fun x hx => ⟨op, by simp, hx⟩
  refine ⟨fun x hx => ?_, h.keys_carry hview hop hcarry hkeeps, fun e he x hx => ?_,
    h.keeps_carry hbefore hop hcarry hkeeps⟩
  · obtain hold | hwrites := PatchOp.mem_or_writes_of_apply hview hop hx
    · exact (h.seen x hold).imp_left (hmore x)
    · exact .inl (hthis x hwrites)
  · have hold : e ∈ s.ops → (∃ d ∈ done ++ [op], d.writes x = true) ∨
        ∃ n, g.count < n ∧ n ≤ IdSource.maxNumber ∧ x = g.name n :=
      fun he => (h.written e he x hx).imp_left (hmore x)
    obtain hsame | ⟨e', hcons, hwrites, -⟩ := (carry_eq_ok hcarry).1
    · exact hold (hsame ▸ he)
    · rw [hcons, List.mem_append, List.mem_singleton] at he
      rcases he with he | rfl
      · exact hold he
      · obtain hwritten | ⟨r, hr, rfl⟩ := hwrites x hx
        · exact .inl (hthis x hwritten)
        · exact .inr (hfresh r hr)

/-- A patch that keeps what it has written never reuses a name. -/
theorem Unspoilt.reuses_eq_false (h : Unspoilt c g done view s) (hop : op.apply view = .ok next) :
    reuses s op = false := by
  cases op with
  | insert b place =>
    have hnew := (PatchOp.perm_of_apply_insert hop).1
    have hnone : s.renamed.any (·.1 = b.id) = false := by
      simp only [List.any_eq_false, decide_eq_true_eq]
      exact fun e he hid => hnew (hid ▸ (h.keys e he).1)
    simp [reuses, hnone]
  | delete id => rfl
  | replace id content => rfl
  | move id place => rfl

theorem isMisled_nil (op : PatchOp) : isMisled [] op = false := by
  cases op <;> rfl

/-- A patch that keeps what it has written is carried over without a change that is misled, and
    what it is carried over to keeps what it has written too. -/
theorem course_of_keepsWritten (hgrounds : Grounds c after g) (hbefore : g.Covers c.before)
    {k : IdSource} {ops : List PatchOp} {result : List Block × IdSource}
    (htracks : Tracks c after g view s []) (hunspoilt : Unspoilt c g done view s)
    (hview : k.Covers view) (happly : Document.applyOps ops view k = .ok result)
    (hkeeps : KeepsWritten (done ++ ops)) :
    course c s [] ops = .spent ∨
      course c s [] ops = .clear ∧ ∀ t, carryAll c s ops = .ok t → KeepsWritten t.ops := by
  induction ops generalizing view k s done with
  | nil =>
    refine .inr ⟨rfl, fun t ht => ?_⟩
    cases ht
    exact hunspoilt.keeps
  | cons op ops ih =>
    obtain ⟨next, hop, hrest⟩ := Document.applyOps_cons_eq_ok_iff.1 happly
    cases hspent : isSpent s op with
    | true => exact .inl (course_cons_of_spent hspent)
    | false =>
      obtain ⟨t, hcarry, ht⟩ :=
        htracks.exists_carry hgrounds hview.nodup hop hspent (isMisled_nil op)
      have hreuses := hunspoilt.reuses_eq_false hop
      rw [hreuses, if_neg (by decide)] at ht
      have hearlier : ∀ d ∈ done, op.undoes d = false := fun d hd =>
        (List.pairwise_append.1 hkeeps).2.2 d hd op (by simp)
      have hnext := hunspoilt.carry hbefore hview.nodup hop hcarry ht.fresh hearlier
      rw [course_cons_of_carry hspent (isMisled_nil op) hcarry, hreuses, if_neg (by decide),
        carryAll, hcarry]
      exact ih ht hnext (PatchOp.covers_of_apply hview hop) hrest (by simpa using hkeeps)

end Rebase

namespace Patch

/-- A patch that keeps what it has written is carried over an earlier one as such a patch,
    unless the numbers run out. -/
theorem course_of_keepsWritten {later earlier : Patch} {before current target : Document}
    (policy : ConflictPolicy) (hbefore : before.WellNamed)
    (hearlier : before.apply earlier = .ok current) (hlater : before.apply later = .ok target)
    (hkeeps : KeepsWritten later.ops) :
    later.course earlier before current policy = .spent ∨
      later.course earlier before current policy = .clear ∧
        ∀ rebased, later.rebase earlier before current policy = .ok rebased →
          KeepsWritten rebased.patch.ops := by
  have hgrounds := Rebase.grounds_of_apply hbefore hearlier policy
  have hadvances := (Document.wellNamed_of_apply hbefore hearlier).2
  obtain ⟨-, blocks, ids, hops, -⟩ := Document.apply_eq_ok_iff.1 hlater
  obtain hspent | ⟨hclear, hcarried⟩ := Rebase.course_of_keepsWritten hgrounds
    (hbefore.advance hadvances) hgrounds.tracks (Rebase.unspoilt_start _ _ _) hbefore hops hkeeps
  · exact .inl hspent
  · refine .inr ⟨hclear, fun rebased hrebased => ?_⟩
    rw [rebase_eq hearlier hlater] at hrebased
    split at hrebased
    · cases hrebased
    · rename_i t ht
      cases hrebased
      exact hcarried t ht

end Patch

theorem Pairing.ne_delete_of_mem_layOut {old : List Block} {staying : List Nat} {ids : IdSource}
    {after : Option BlockId} {rows : List (Nat × Block × Option Nat)} {op : PatchOp}
    (h : op ∈ layOut old staying ids after rows) (id : BlockId) : op ≠ .delete id := by
  induction rows generalizing ids after with
  | nil => cases h
  | cons row rows ih =>
    obtain ⟨n, b, partner⟩ := row
    rw [layOut] at h
    split at h
    · rcases List.mem_append.1 h with h | h
      · rw [keep] at h
        rintro rfl
        split at h <;> split at h <;> simp at h
      · exact ih h
    · rcases List.mem_cons.1 h with rfl | h
      · simp
      · exact ih h

/-- The patch between two documents deletes first and writes afterwards. -/
theorem Document.keepsWritten_diff (old new : Document) : KeepsWritten (old.diff new).ops := by
  have hlater : ∀ {earlier later : PatchOp}, (∀ id, later ≠ .delete id) →
      later.undoes earlier = false := by
    intro earlier later hne
    cases later with
    | delete id => exact absurd rfl (hne id)
    | insert b after => rfl
    | replace id content => rfl
    | move id after => rfl
  refine List.pairwise_append.2 ⟨?_, ?_, fun _ _ _ hmem => ?_⟩
  · exact List.pairwise_map.2 (List.pairwise_of_forall fun _ _ => rfl)
  · exact List.Pairwise.imp_of_mem
      (fun _ hmem _ => hlater (Pairing.ne_delete_of_mem_layOut hmem))
      (List.pairwise_of_forall fun _ _ => trivial)
  · exact hlater (Pairing.ne_delete_of_mem_layOut hmem)

end LiterateSync
