import LiterateSync.Proofs.Session.Log
import LiterateSync.Text.Pattern.Library

namespace LiterateSync.Session

/-- The number for a peer after one more mark, where `next` is the number after a refusal. -/
def Mark.count (next : Nat → Nat) (peer : PeerId) (n : Nat) : Mark → Nat
  | .refused origin _ => if origin = peer then next n else n
  | .accepted origin | .left origin => if origin = peer then 0 else n
  | .closed => 0

/-- After the refusal that is one too many the count starts afresh. So it does after one that no
    number of 32 bits counts. -/
def nextCount (maxRetries n : Nat) : Nat :=
  if n < maxRetries then n + 1 else 0

/-- How many patches of a peer have been refused since one was refused too many, one was accepted
    or the peer went away. -/
def tally (maxRetries : Nat) (peer : PeerId) (marks : List Mark) : Nat :=
  marks.foldl (Mark.count (nextCount maxRetries) peer) 0

/-- How many patches of a peer have been refused since one was accepted or the peer went away. -/
def refusals (peer : PeerId) (marks : List Mark) : Nat :=
  marks.foldl (Mark.count (· + 1) peer) 0

variable {s t : Session}

section Count

variable {x : Entry} {v : PeerId}

/-- The number after one more refusal exceeds the bound, unless it wraps. -/
theorem lt_add_one_iff {bound n : UInt32} :
    bound < n + 1 ↔ bound.toNat ≤ n.toNat ∧ n.toNat + 1 < UInt32.size := by
  have hbound := bound.toNat_lt
  have hn := n.toNat_lt
  rw [UInt32.lt_iff_toNat_lt, UInt32.toNat_add, UInt32.toNat_one, UInt32.size]
  omega

theorem toNat_add_one_of_lt {bound n : UInt32} (h : n.toNat < bound.toNat) :
    (n + 1).toNat = n.toNat + 1 := by
  have hbound := bound.toNat_lt
  rw [UInt32.toNat_add, UInt32.toNat_one]
  omega

/-- A number that reaches the bound and is not beyond it after one more wraps. -/
theorem add_one_eq_zero {bound n : UInt32} (h : bound.toNat ≤ n.toNat) (hle : ¬ bound < n + 1) :
    n + 1 = 0 := by
  have hn := n.toNat_lt
  rw [lt_add_one_iff, UInt32.size] at hle
  rw [← UInt32.toNat_inj, UInt32.toNat_add, UInt32.toNat_one, UInt32.toNat_zero]
  omega

theorem count_reject (s : Session) (origin v : PeerId) (reason : SupersedeReason) :
    ((s.reject origin reason).rejections.count v).toNat =
      (Mark.refused origin reason).count (nextCount s.config.maxRetries.toNat) v
        (s.rejections.count v).toNat := by
  rw [reject_eq, Mark.count, nextCount]
  by_cases heq : origin = v
  · subst heq
    rw [if_pos rfl]
    by_cases hfew : (s.rejections.count origin).toNat < s.config.maxRetries.toNat
    · have hle : ¬ s.config.maxRetries < s.rejections.count origin + 1 := by
        rw [lt_add_one_iff]
        omega
      rw [if_neg hle, Rejections.count_set, if_pos rfl, if_pos hfew, toNat_add_one_of_lt hfew]
    · rw [if_neg hfew]
      by_cases hmany : s.config.maxRetries < s.rejections.count origin + 1
      · rw [if_pos hmany, Rejections.count_clear, if_pos rfl, UInt32.toNat_zero]
      · rw [if_neg hmany, Rejections.count_set, if_pos rfl,
          add_one_eq_zero (Nat.le_of_not_lt hfew) hmany, UInt32.toNat_zero]
  · rw [if_neg heq]
    dsimp only
    split
    · rw [Rejections.count_clear, if_neg heq]
    · rw [Rejections.count_set, if_neg heq]

theorem toNat_count_clear (r : Rejections) (peer v : PeerId) :
    ((r.clear peer).count v).toNat = if peer = v then 0 else (r.count v).toNat := by
  rw [Rejections.count_clear]
  split <;> rfl

/-- What a session knows about a peer follows its entries. -/
theorem Entry.Sound.count [RegexLibrary] (h : x.Sound) (v : PeerId) :
    (x.after.rejections.count v).toNat =
      x.mark.count (nextCount x.before.config.maxRetries.toNat) v
        (x.before.rejections.count v).toNat := by
  cases h with
  | accepted hdoc hreconcile =>
    rw [process_of_ok hdoc hreconcile]
    exact toNat_count_clear _ _ _
  | refusedPatch hdoc hreconcile =>
    rw [process_of_error hdoc hreconcile]
    exact count_reject _ _ _ _
  | refusedView hopen hunknown =>
    obtain ⟨d, -, hafter⟩ := (Sound.refusedView hopen hunknown).reject rfl
    rw [hafter]
    exact count_reject _ _ _ _
  | left s peer => exact toNat_count_clear _ _ _
  | closed s => rfl

/-- The number that a session keeps for a peer is what its entries come to. -/
theorem Leads.count [RegexLibrary] {xs : List Entry} (h : Leads s xs t) (hsound : ∀ x ∈ xs, x.Sound)
    (v : PeerId) :
    (t.rejections.count v).toNat =
      (xs.map (·.mark)).foldl (Mark.count (nextCount s.config.maxRetries.toNat) v)
        (s.rejections.count v).toNat := by
  induction h with
  | nil h => rw [h.rejections_eq, List.map_nil, List.foldl_nil]
  | cons h _ ih =>
    obtain ⟨hx, hrest⟩ := List.forall_mem_cons.1 hsound
    rw [ih hrest, hx.count, hx.id_config.2, h.config_eq, h.rejections_eq, List.map_cons,
      List.foldl_cons]

theorem nextCount_mod (maxRetries n : Nat) :
    nextCount maxRetries (n % (maxRetries + 1)) = (n + 1) % (maxRetries + 1) := by
  have hlt : n % (maxRetries + 1) < maxRetries + 1 := Nat.mod_lt n (Nat.succ_pos maxRetries)
  rw [nextCount, ← Nat.mod_add_mod n (maxRetries + 1) 1]
  split
  · exact (Nat.mod_eq_of_lt (by omega)).symm
  · have hlast : n % (maxRetries + 1) + 1 = maxRetries + 1 := by omega
    rw [hlast, Nat.mod_self]

/-- Every refusal that is one too many starts the count afresh. -/
theorem tally_eq_mod (maxRetries : Nat) (v : PeerId) (marks : List Mark) :
    tally maxRetries v marks = refusals v marks % (maxRetries + 1) := by
  have hmod : ∀ n, marks.foldl (Mark.count (nextCount maxRetries) v) (n % (maxRetries + 1)) =
      marks.foldl (Mark.count (· + 1) v) n % (maxRetries + 1) := by
    induction marks with
    | nil => exact fun n => rfl
    | cons mark marks ih =>
      intro n
      rw [List.foldl_cons, List.foldl_cons, ← ih]
      congr 1
      cases mark with
      | closed => exact (Nat.zero_mod _).symm
      | _ =>
        simp only [Mark.count, nextCount_mod]
        split <;> simp
  have hzero := hmod 0
  rwa [Nat.zero_mod] at hzero

theorem tally_le (maxRetries : Nat) (v : PeerId) (marks : List Mark) :
    tally maxRetries v marks ≤ maxRetries := by
  rw [tally_eq_mod]
  exact Nat.le_of_lt_succ (Nat.mod_lt _ (Nat.succ_pos maxRetries))

end Count

theorem rejectEvents_eq {d : Document} (hdoc : s.document = some d) (origin : PeerId)
    (reason : SupersedeReason) :
    s.rejectEvents origin reason =
      s.addressed origin
        (if s.config.maxRetries.toNat ≤ (s.rejections.count origin).toNat ∧
            (s.rejections.count origin).toNat + 1 < UInt32.size then
          .fullDocument (some d.snapshot)
        else .superseded d.revision reason) := by
  rw [rejectEvents]
  by_cases hmany : s.config.maxRetries < s.rejections.count origin + 1
  · rw [if_pos hmany, if_pos (lt_add_one_iff.1 hmany), snapshotFor, hdoc]
  · rw [if_neg hmany, if_neg (mt lt_add_one_iff.2 hmany), revision?, hdoc]
    rfl

section Denial

/-- A state in which a patch of a peer is refused, and will be when it comes again. -/
structure Denies (d : Document) (v : PeerId) (patch : Patch) (e : PatchError) (s : Session) :
    Prop where
  consistent : s.Consistent
  phase_eq : s.phase = .synced
  document_eq : s.document = some d
  reconcile_eq : s.reconcile d v patch = .error e

variable {d : Document} {v : PeerId} {patch : Patch} {e : PatchError}

theorem Denies.process_eq (h : s.Denies d v patch e) :
    s.process ⟨v, patch, false⟩ = s.reject v e.reason :=
  process_of_error h.document_eq h.reconcile_eq

variable [RegexLibrary]

theorem Denies.step_eq (h : s.Denies d v patch e) :
    (s.step (.submit v patch)).1 = s.reject v e.reason := by
  have hpending := h.consistent.pending_eq_none h.phase_eq
  have hdrain := drain_of_queue_nil (h.consistent.queue_nil hpending) hpending
    (by rw [h.document_eq, Option.isSome_some]) ⟨v, patch, false⟩
  have hphase : { s.reject v e.reason with phase := .synced } = s.reject v e.reason := by
    rw [reject_eq, ← h.phase_eq]
  rw [h.process_eq, hphase] at hdrain
  have hsubmit : s.submit v patch = .ok (s.reject v e.reason) := by
    rw [submit, enqueue, h.consistent.openDocument h.document_eq, ← hdrain]
    simp [hpending, bind, Except.bind]
  rw [step, hsubmit]
  rfl

/-- What the patch enters. -/
theorem Denies.entries_eq (h : s.Denies d v patch e) :
    s.entries (.submit v patch) = [⟨s, .refused v e.reason, s.reject v e.reason⟩] := by
  have hpending := h.consistent.pending_eq_none h.phase_eq
  have hqueue := h.consistent.queue_nil hpending
  have hphase : (s.step (.submit v patch)).1.phase = .synced := by
    rw [h.step_eq, reject_eq]
    exact h.phase_eq
  have hreleased : s.released (.submit v patch) = s := by
    change { s with queue := [], pending := none } = s
    rw [← hqueue, ← hpending]
  have hsettling : s.settling (.submit v patch) = [⟨v, patch, false⟩] := by
    rw [settling_of_synced (by rw [h.document_eq, Option.isSome_some]) (by simp) hphase, hqueue]
    rfl
  rw [entries, hreleased, hsettling, settlements, h.process_eq,
    verdict_of_error h.document_eq h.reconcile_eq]
  rfl

/-- A refusal leaves all that it depends on as it was. -/
theorem Denies.reject (h : s.Denies d v patch e) :
    (s.reject v e.reason).Denies d v patch e := by
  refine ⟨h.step_eq ▸ h.consistent.step (.submit v patch), ?_, ?_, ?_⟩
  all_goals rw [reject_eq]
  · exact h.phase_eq
  · exact h.document_eq
  · exact h.reconcile_eq

/-- With the largest possible bound a patch that is refused however often it comes never brings
    its origin the document. -/
theorem Denies.superseded (h : s.Denies d v patch e)
    (hbound : s.config.maxRetries.toNat + 1 = UInt32.size) (hin : v ∈ s.subscribers) (n : Nat) :
    let log := s.log (List.replicate n (.submit v patch))
    log.map (·.mark) = List.replicate n (.refused v e.reason) ∧
      ∀ x ∈ log, x.after.events =
        x.before.events ++ [.send v ⟨s.id, .superseded d.revision e.reason⟩] := by
  induction n generalizing s with
  | zero => exact ⟨rfl, fun x hx => absurd hx List.not_mem_nil⟩
  | succ n ih =>
    have hfew : ¬ (s.config.maxRetries.toNat ≤ (s.rejections.count v).toNat ∧
        (s.rejections.count v).toNat + 1 < UInt32.size) := by
      omega
    have hevents : s.rejectEvents v e.reason =
        [.send v ⟨s.id, .superseded d.revision e.reason⟩] := by
      rw [rejectEvents_eq h.document_eq, if_neg hfew, addressed, if_pos (by simpa using hin)]
    obtain ⟨hmarks, hrest⟩ := ih h.reject (by rwa [reject_eq]) (by rwa [reject_eq])
    rw [reject_eq] at hrest
    rw [List.replicate_succ, log, h.entries_eq, h.step_eq, List.singleton_append]
    refine ⟨?_, List.forall_mem_cons.2 ⟨?_, ?_⟩⟩
    · rw [List.map_cons, hmarks, List.replicate_succ]
    · rw [reject_eq, hevents]
    · rw [reject_eq]
      exact hrest

end Denial

/-- In every run the session comes to its state by the patches that it settles and the views that
    it refuses, and it counts for each peer how many were refused in a row. A refusal changes
    nothing but that count and has nothing written. A peer that subscribes is sent one message: the
    current revision as long as the count is in bounds, and the document when it is not, after
    which the count starts afresh. Only with the largest possible bound the count starts afresh
    without the document. -/
theorem refusals_escalate [RegexLibrary] (id : SessionId) (config : SyncConfig)
    (commands : List Command) :
    let s := (new id config).run commands
    let log := (new id config).log commands
    let maxRetries := config.maxRetries.toNat
    Leads (new id config) log s ∧ (∀ x ∈ log, x.Sound) ∧
    (∀ v, (s.rejections.count v).toNat = tally maxRetries v (log.map (·.mark))) ∧
    ∀ earlier x later origin reason, log = earlier ++ x :: later → x.mark = .refused origin reason →
      let n := tally maxRetries origin (earlier.map (·.mark))
      n ≤ maxRetries ∧
      n = refusals origin (earlier.map (·.mark)) % (maxRetries + 1) ∧
      (∀ v, (x.before.rejections.count v).toNat = tally maxRetries v (earlier.map (·.mark))) ∧
      (x.after.rejections.count origin).toNat = (if n < maxRetries then n + 1 else 0) ∧
      ∃ d more, x.before.document = some d ∧
        x.after = { x.before with
          rejections := x.after.rejections, events := x.before.events ++ more } ∧
        (∀ revision text, .writeFile revision text ∉ more) ∧
        (origin ∉ x.before.subscribers → more = []) ∧
        (origin ∈ x.before.subscribers → more = [.send origin ⟨id,
          if n = maxRetries ∧ maxRetries + 1 < UInt32.size then .fullDocument (some d.snapshot)
          else .superseded d.revision reason⟩]) := by
  intro s log maxRetries
  have hc := consistent_new id config
  have hleads : Leads (new id config) log s := leads_run hc commands
  have hsound : ∀ x ∈ log, x.Sound := fun x hx => sound_log hc hx
  refine ⟨hleads, hsound, hleads.count hsound, ?_⟩
  intro earlier x later origin reason hlog hmark n
  have hbefore : Leads (new id config) earlier x.before := (hlog ▸ hleads).split.1
  have hearlier : ∀ y ∈ earlier, y.Sound := fun y hy =>
    hsound y (hlog ▸ List.mem_append_left _ hy)
  have hx : x.Sound := hsound x (hlog ▸ List.mem_append_right _ List.mem_cons_self)
  obtain ⟨hid, hconfig⟩ := hbefore.id_config hearlier
  have hcount : ∀ v, (x.before.rejections.count v).toNat = tally maxRetries v
      (earlier.map (·.mark)) := hbefore.count hearlier
  have hle : n ≤ maxRetries := tally_le _ _ _
  obtain ⟨d, hdoc, hafter⟩ := hx.reject hmark
  refine ⟨hle, tally_eq_mod _ _ _, hcount, ?_, d, x.before.rejectEvents origin reason, hdoc, ?_, ?_,
    ?_, ?_⟩
  · rw [hx.count, hmark, Mark.count, if_pos rfl, hcount, hconfig]
    rfl
  · rw [hafter, reject_eq]
  · rw [rejectEvents_eq hdoc]
    intro revision text hwrite
    cases mem_addressed hwrite
  · intro hout
    rw [rejectEvents_eq hdoc, addressed, if_neg (by simpa using hout)]
  · intro hin
    have hmany : maxRetries ≤ n ∧ n + 1 < UInt32.size ↔
        n = maxRetries ∧ maxRetries + 1 < UInt32.size := by
      omega
    rw [rejectEvents_eq hdoc, addressed, if_pos (by simpa using hin), hcount, hid, hconfig]
    exact congrArg (fun body => [Event.send origin ⟨id, body⟩]) (if_congr hmany rfl rfl)

/-- A peer's second refusal is one too many, although commits of others lie between the two and its
    own view is refused while a patch of it waits. Its third one is the first of a new count. -/
theorem refusals_escalate_between_commits :
    let v : PeerId := ⟨"v"⟩
    let w : PeerId := ⟨"w"⟩
    let d : Document := ⟨[⟨⟨"b1"⟩, .code, "x = 1\n"⟩], 0, { id := "sh" }, ⟨none, 1⟩⟩
    let config : SyncConfig := { maxRetries := 1 }
    let commands : List Command := [.beginOpen, .finishOpen (.ok d), .subscribe v, .subscribe w,
      .submit v ⟨0, [.delete ⟨"b9"⟩]⟩, .localEdit 0 ⟨0, [.replace ⟨"b1"⟩ "x = 2\n"]⟩,
      .submit w ⟨1, [.replace ⟨"b1"⟩ "x = 3\n"]⟩, .submit v ⟨1, [.delete ⟨"b9"⟩]⟩, .viewEdit v 7 [],
      .ack .fileSystem 1]
    let log := (new ⟨"s1"⟩ config).log commands
    log.map (·.mark) = [.refused v .unknownBlock, .accepted .local, .refused v .revisionMismatch,
      .accepted w, .refused v .unknownBlock] ∧
    ∃ earlier x later, log = earlier ++ x :: later ∧ x.mark = .refused v .revisionMismatch ∧
      tally config.maxRetries.toNat v (earlier.map (·.mark)) = 1 ∧ v ∈ x.before.subscribers ∧
      (x.after.rejections.count v).toNat = 0 ∧
      ∃ d more, x.before.document = some d ∧
        x.after = { x.before with
          rejections := x.after.rejections, events := x.before.events ++ more } ∧
        more = [.send v ⟨⟨"s1"⟩, .fullDocument (some d.snapshot)⟩] := by
  intro v w d config commands log
  have hmarks : log.map (·.mark) = [.refused v .unknownBlock, .accepted .local,
      .refused v .revisionMismatch, .accepted w, .refused v .unknownBlock] := by decide +kernel
  obtain ⟨earlier, x, later, hlog, hmark, htally, hin⟩ : ∃ earlier x later,
      log = earlier ++ x :: later ∧ x.mark = .refused v .revisionMismatch ∧
        tally config.maxRetries.toNat v (earlier.map (·.mark)) = 1 ∧ v ∈ x.before.subscribers := by
    refine ⟨log.take 2, log.get ⟨2, by decide +kernel⟩, log.drop 3, ?_, by decide +kernel,
      by decide +kernel, by decide +kernel⟩
    rw [List.get_eq_getElem, List.getElem_cons_drop, List.take_append_drop]
  obtain ⟨-, -, -, hcount, d', more, hdoc, hafter, -, -, hmore⟩ :=
    (refusals_escalate ⟨"s1"⟩ config commands).2.2.2 earlier x later v _ hlog hmark
  refine ⟨hmarks, earlier, x, later, hlog, hmark, htally, hin, ?_, d', more, hdoc, hafter, ?_⟩
  · rw [hcount, htally]
    rfl
  · rw [hmore hin, htally]
    rfl

/-- With the largest possible bound the refusal that is one too many is answered like the others
    before it: the number of refusals has wrapped. -/
theorem refusals_escalate_not_with_largest_bound :
    let v : PeerId := ⟨"v"⟩
    let d : Document := ⟨[⟨⟨"b1"⟩, .code, "x = 1\n"⟩], 0, { id := "sh" }, ⟨none, 1⟩⟩
    let config : SyncConfig := { maxRetries := 4294967295 }
    let refused := config.maxRetries.toNat + 1
    let commands : List Command := [.beginOpen, .finishOpen (.ok d), .subscribe v] ++
      List.replicate refused (.submit v ⟨0, [.delete ⟨"b9"⟩]⟩)
    let log := (new ⟨"s1"⟩ config).log commands
    log.map (·.mark) = List.replicate refused (.refused v .unknownBlock) ∧
      ∀ x ∈ log, x.after.events =
        x.before.events ++ [.send v ⟨⟨"s1"⟩, .superseded 0 .unknownBlock⟩] := by
  intro v d config refused commands log
  let opening : List Command := [.beginOpen, .finishOpen (.ok d), .subscribe v]
  let s := (new ⟨"s1"⟩ config).run opening
  have hdenies : s.Denies d v ⟨0, [.delete ⟨"b9"⟩]⟩ (.unknownBlock ⟨"b9"⟩) :=
    ⟨(consistent_new _ _).run opening, by decide +kernel, by decide +kernel, by decide +kernel⟩
  have hopening : (new ⟨"s1"⟩ config).log opening = [] := by decide +kernel
  have hlog : log = s.log (List.replicate refused (.submit v ⟨0, [.delete ⟨"b9"⟩]⟩)) := by
    change (new ⟨"s1"⟩ config).log (opening ++ _) = _
    rw [log_append, hopening, List.nil_append]
  rw [hlog]
  exact hdenies.superseded (by decide) (by decide +kernel) refused

end LiterateSync.Session
