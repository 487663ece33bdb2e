import LiterateSync.Proofs.Document.Unknown
import LiterateSync.Proofs.Session.Rebasing

namespace LiterateSync.Session

variable {s : Session} {last : Document} {history : List Applied} {a : Applied} {sub : Submission}

/-- The history from the base of one of its patches on begins with this patch. -/
theorem historyFrom_of_mem (hreplays : Replays history last) (ha : a ∈ history) :
    ∃ later, historyFrom a.before.revision history = a :: later := by
  obtain ⟨front, later, rfl⟩ := List.append_of_mem ha
  have hpairwise := (List.pairwise_append.1 hreplays.pairwise_revision).2.2
  refine ⟨later, ?_⟩
  rw [historyFrom, List.dropWhile_append_of_pos, List.dropWhile_cons_of_neg (by simp)]
  intro e he
  exact decide_eq_true (Nat.ne_of_lt (hpairwise e he a List.mem_cons_self))

/-- A submission that cannot be carried over the patch that was applied to its base is rejected, and
    the document stays. -/
theorem process_of_rebase_error [RegexLibrary] (h : s.Reachable) (hdoc : s.document = some last)
    (ha : a ∈ s.history) {current : Document} (happly : a.before.apply a.patch = .ok current)
    (hbase : sub.patch.base = a.before.revision) {e : PatchError}
    (herror : sub.patch.rebase a.patch a.before current s.config.conflictPolicy = .error e) :
    s.process sub = s.reject sub.origin e.reason ∧ (s.process sub).document = some last := by
  have hreplays := h.recorded_and_wellNamed.1.replays last hdoc
  obtain ⟨later, hsince⟩ := historyFrom_of_mem hreplays ha
  have hlater : Replays (a :: later) last := hsince ▸ hreplays.historyFrom a.before.revision
  obtain rfl : documentAfter later last = current := Except.ok.inj (hlater.1.symm.trans happly)
  have hstale : sub.patch.base < last.revision := hbase ▸ hreplays.revision_lt ha
  have hcarry : s.carryToCurrent last sub.origin sub.patch = .error e := by
    rw [carryToCurrent, if_pos hstale, hbase, hsince]
    exact carryOver_cons_of_error herror
  have hreconcile : s.reconcile last sub.origin sub.patch = .error e := by
    rw [reconcile, hcarry]
  have hprocess := process_of_error hdoc hreconcile
  refine ⟨hprocess, ?_⟩
  rw [hprocess, reject_eq]
  exact hdoc

/-- What becomes of a stale patch with a change to a block `x` that nothing is known of, when some
    other changes come first: it is refused for this change, or for one of the first ones, also in
    each session that has the earlier patch in its history. A fresh patch is refused as well. -/
structure RefusedFor [RegexLibrary] (x : BlockId) (op : PatchOp) (done : List PatchOp)
    (later earlier : Patch) (before current : Document) (policy : ConflictPolicy) : Prop where
  fresh : current.apply ⟨current.revision, [op]⟩ = .error (.unknownBlock x)
  stale : ∃ e, later.rebase earlier before current policy = .error e ∧
    (Patch.carried done earlier before current policy = .error e ∨ e = .unknownBlock x) ∧
    (before.WellNamed → Patch.numbersLast done earlier before current policy = true →
      ∃ id, e = .unknownBlock id) ∧
    ∀ (s : Session) last origin (sub : Submission), s.Reachable → s.document = some last →
      s.config.conflictPolicy = policy → ⟨origin, before, earlier⟩ ∈ s.history → sub.patch = later →
      s.process sub = s.reject sub.origin e.reason ∧ (s.process sub).document = some last

/-- Whether a change that is refused in a fresh patch is carried over in a stale one, as a change that
    puts its block in front of all. -/
def TakenToFront (op : PatchOp) (earlier : Patch) (before current : Document)
    (policy : ConflictPolicy) (s : Rebase.State) : Prop :=
  (∃ e, current.apply ⟨current.revision, [op]⟩ = .error e) ∧
    Rebase.carry ⟨before.blocks, earlier.ops, policy⟩ s op =
      Rebase.carry ⟨before.blocks, earlier.ops, policy⟩ s op.toFront

theorem refusedFor_of_isUnknown [RegexLibrary] {before current : Document} {later earlier : Patch}
    {policy : ConflictPolicy} {done rest : List PatchOp} {op : PatchOp} {x : BlockId}
    (hearlier : before.apply earlier = .ok current) (hbase : later.base = before.revision)
    (hops : later.ops = done ++ op :: rest)
    (hx : Patch.IsUnknown x done earlier before current policy)
    (hop : ∀ b place, op ≠ .insert b place) (htarget : op.target = x) :
    RefusedFor x op done later earlier before current policy := by
  obtain ⟨e, hrebase, hcause⟩ := hx.rebase_eq hearlier hbase hops hop htarget
  constructor
  case fresh =>
    rw [← htarget]
    refine Document.apply_singleton_of_error (PatchOp.apply_of_unknown_target hop ?_)
    exact htarget ▸ hx.not_current
  case stale =>
    refine ⟨e, hrebase, hcause, fun hbefore hlast => ?_,
      fun s last origin sub hs hdoc hpolicy hmem hsub => ?_⟩
    · obtain hdone | rfl := hcause
      · have hold := hbefore.advance (Document.wellNamed_of_apply hbefore hearlier).2
        have hgrounds := Rebase.grounds_of_apply hbefore hearlier policy
        exact hgrounds.wellKept.unknownBlock_of_carryAll hgrounds hold hlast hdone
      · exact ⟨x, rfl⟩
    · subst hsub hpolicy
      exact process_of_rebase_error hs hdoc hmem hearlier hbase hrebase

/-- A stale patch with a change to a block that nothing is known of is refused, as a fresh one is,
    and the document of a session stays. The places in a patch are not checked in this way: where a
    fresh patch is refused because the block is unknown behind which another one is to be put, or
    because that is the block itself, a stale patch puts it in front of all. -/
theorem refuses_unknown_targets [RegexLibrary] {before current : Document} {later earlier : Patch}
    {policy : ConflictPolicy} {done rest : List PatchOp} {op : PatchOp}
    (hearlier : before.apply earlier = .ok current) (hbase : later.base = before.revision)
    (hops : later.ops = done ++ op :: rest) :
    (∀ x, Patch.IsUnknown x done earlier before current policy →
      (∀ b place, op ≠ .insert b place) → op.target = x →
      RefusedFor x op done later earlier before current policy) ∧
    (∀ x s, Patch.IsUnknown x done earlier before current policy →
      Patch.carried done earlier before current policy = .ok s → op.place? = some x →
      TakenToFront op earlier before current policy s) ∧
    ∀ id s, (before.blocks.map (·.id)).Nodup → op = .move id (some id) →
      TakenToFront op earlier before current policy s := by
  refine ⟨fun x hx hop htarget => refusedFor_of_isUnknown hearlier hbase hops hx hop htarget,
    fun x s hx hdone hplace => ⟨?_, hx.carry_place hdone hplace⟩, ?_⟩
  · obtain ⟨e, herror⟩ := PatchOp.exists_error_of_unknown_place hplace hx.not_current
    exact ⟨e, Document.apply_singleton_of_error herror⟩
  · rintro id s hnodup rfl
    obtain ⟨-, blocks, ids, happly, rfl⟩ := Document.apply_eq_ok_iff.1 hearlier
    obtain ⟨e, herror⟩ := PatchOp.exists_error_of_move_behind_itself
      (Document.nodup_of_applyOps hnodup happly) id
    exact ⟨⟨e, Document.apply_singleton_of_error herror⟩, Rebase.carry_move_behind_itself _ s id⟩

/-- Nothing is known of a block behind which one patch inserts another one, and which another patch
    deletes after a change to a block that is there. -/
theorem refuses_unknown_targets_of_nowhere :
    let p : Profile := { id := "python", lineComments := ["#"] }
    let before := Document.build p .unseeded
      [⟨.doc, "# a\n", ⟨0, 4⟩⟩, ⟨.code, "x = 1\n", ⟨4, 10⟩⟩]
    let earlier : Patch := ⟨0, [.replace ⟨"b1"⟩ "# b\n"]⟩
    let start : Rebase.State := ⟨[⟨⟨"b1"⟩, .doc, "# b\n"⟩, ⟨⟨"b2"⟩, .code, "x = 1\n"⟩], ⟨none, 2⟩,
      [], [], []⟩
    ∃ current, before.apply earlier = .ok current ∧
      RefusedFor ⟨"b9"⟩ (.delete ⟨"b9"⟩) [.replace ⟨"b2"⟩ "x = 2\n"]
        ⟨0, [.replace ⟨"b2"⟩ "x = 2\n", .delete ⟨"b9"⟩]⟩ earlier before current .laterWins ∧
      TakenToFront (.insert ⟨⟨"n1"⟩, .code, "y = 1\n"⟩ (some ⟨"b9"⟩)) earlier before current
        .laterWins start ∧
      TakenToFront (.move ⟨"b2"⟩ (some ⟨"b2"⟩)) earlier before current .laterWins start := by
  intro p before earlier start
  let current : Document :=
    ⟨[⟨⟨"b1"⟩, .doc, "# b\n"⟩, ⟨⟨"b2"⟩, .code, "x = 1\n"⟩], 1, p, ⟨none, 2⟩⟩
  let deleting : Patch := ⟨0, [.replace ⟨"b2"⟩ "x = 2\n", .delete ⟨"b9"⟩]⟩
  let inserting : Patch := ⟨0, [.insert ⟨⟨"n1"⟩, .code, "y = 1\n"⟩ (some ⟨"b9"⟩)]⟩
  let moving : Patch := ⟨0, [.move ⟨"b2"⟩ (some ⟨"b2"⟩)]⟩
  have hearlier : before.apply earlier = .ok current := by decide
  have hunknown : ∀ done s, Patch.carried done earlier before current .laterWins = .ok s →
      s.renamed = [] → ⟨"b9"⟩ ∉ insertedIds done →
      Patch.IsUnknown ⟨"b9"⟩ done earlier before current .laterWins := by
    intro done s hdone hnone hinserted
    refine ⟨by decide, by decide, by decide, hinserted, fun t ht r hr => ?_⟩
    obtain rfl := Except.ok.inj (hdone.symm.trans ht)
    rw [hnone] at hr
    cases hr
  have hbase : deleting.base = before.revision := rfl
  have hops : deleting.ops = [.replace ⟨"b2"⟩ "x = 2\n"] ++ .delete ⟨"b9"⟩ :: [] := rfl
  have hbase' : inserting.base = before.revision := rfl
  have hops' : inserting.ops = [] ++ .insert ⟨⟨"n1"⟩, .code, "y = 1\n"⟩ (some ⟨"b9"⟩) :: [] := rfl
  have hbase'' : moving.base = before.revision := rfl
  have hops'' : moving.ops = [] ++ .move ⟨"b2"⟩ (some ⟨"b2"⟩) :: [] := rfl
  refine ⟨current, hearlier, ?_, ?_, ?_⟩
  · refine (refuses_unknown_targets hearlier hbase hops).1 _ (hunknown _ _ rfl rfl ?_) ?_ rfl
    · decide
    · simp
  · exact (refuses_unknown_targets hearlier hbase' hops').2.1 _ start
      (hunknown [] start rfl rfl (by decide)) rfl rfl
  · exact (refuses_unknown_targets hearlier hbase'' hops'').2.2 ⟨"b2"⟩ start (by decide) rfl

end LiterateSync.Session
