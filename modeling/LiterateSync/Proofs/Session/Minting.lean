import Mathlib.Data.List.Pairwise
import LiterateSync.Proofs.Document.Minting
import LiterateSync.Proofs.Session.Copies
import LiterateSync.Proofs.Session.Moves
import LiterateSync.Text.Pattern.Library

namespace LiterateSync

/-- Whether a name is one of those that a source has still to give out. -/
def IdSource.Ahead (g : IdSource) (x : BlockId) : Prop :=
  ∃ n, g.count < n ∧ x = g.name n

/-- A name that is still to be given out has a number that a name can carry, or is beyond the last
    one. -/
theorem IdSource.Ahead.isSome_numberOf? {g : IdSource} {x : BlockId} (hx : g.Ahead x) :
    (g.numberOf? x).isSome ∨ ∃ n, maxNumber < n ∧ x = g.name n := by
  obtain ⟨n, -, rfl⟩ := hx
  rw [numberOf?_name]
  split
  · exact .inl rfl
  · exact .inr ⟨n, Nat.lt_of_not_le ‹_›, rfl⟩

theorem IdSource.Ahead.of_advances {g h : IdSource} {x : BlockId} (hadv : g.Advances h)
    (hx : h.Ahead x) : g.Ahead x := by
  obtain ⟨n, hlt, rfl⟩ := hx
  exact ⟨n, Nat.lt_of_le_of_lt hadv.count_le hlt, hadv.name_eq n⟩

/-- A block of a document does not have a name that is still to be given out, if its number is one
    that a name can carry. -/
theorem Document.WellNamed.not_mem {d : Document} (hd : d.WellNamed) {x : BlockId}
    (hx : d.ids.Ahead x) (hfits : (d.ids.numberOf? x).isSome) : x ∉ d.blocks.map (·.id) := by
  obtain ⟨n, hlt, rfl⟩ := hx
  rw [IdSource.numberOf?_name] at hfits
  split at hfits
  · exact hd.name_not_mem hlt ‹_›
  · cases hfits

/-- One document comes before another in the course of a session: its revision is an earlier one,
    and the names of the later one are given out behind its own. -/
structure Document.Precedes (d e : Document) : Prop where
  revision_lt : d.revision < e.revision
  advances : d.ids.Advances e.ids

theorem Document.precedes_of_apply {d e : Document} {patch : Patch} (hd : d.WellNamed)
    (h : d.apply patch = .ok e) : d.Precedes e :=
  ⟨by rw [(Session.revision_of_apply h).2]; exact Nat.lt_succ_self _, (wellNamed_of_apply hd h).2⟩

namespace Session

/-- The document that an act leads to, if it leads to another one. -/
def Act.document? : Act → Option Document
  | .opened d => some d
  | .committed _ _ next => some next
  | .edited _ next => some next
  | _ => none

/-- The documents of a session in the order of their revisions. -/
def documentsIn (acts : List Act) : List Document :=
  acts.filterMap Act.document?

/-- Documents whose names are in order, and that come one after another. -/
structure Ordered (docs : List Document) : Prop where
  wellNamed : ∀ d ∈ docs, d.WellNamed
  precedes : docs.Pairwise Document.Precedes

theorem Ordered.suffix {docs all : List Document} (h : Ordered all) (hsuffix : docs <:+ all) :
    Ordered docs :=
  ⟨fun d hd => h.wellNamed d (hsuffix.subset hd), h.precedes.sublist hsuffix.sublist⟩

theorem Ordered.tail {d : Document} {docs : List Document} (h : Ordered (d :: docs)) :
    Ordered docs :=
  h.suffix (List.suffix_cons d docs)

theorem Ordered.eq_or_precedes {docs : List Document} (h : Ordered docs) {d e : Document}
    (hd : d ∈ docs) (he : e ∈ docs) : d = e ∨ d.Precedes e ∨ e.Precedes d := by
  let Apart (d e : Document) : Prop := d.Precedes e ∨ e.Precedes d
  have hsymm : Std.Symm Apart := ⟨fun _ _ => Or.symm⟩
  have hapart : docs.Pairwise Apart := h.precedes.imp .inl
  by_cases hsame : d = e
  · exact .inl hsame
  · exact .inr (hapart.forall hd he hsame)

/-- The names of each document have the same form. -/
theorem Ordered.numberOf?_eq {docs : List Document} (h : Ordered docs) {d e : Document}
    (hd : d ∈ docs) (he : e ∈ docs) (x : BlockId) : d.ids.numberOf? x = e.ids.numberOf? x := by
  obtain rfl | hde | hed := h.eq_or_precedes hd he
  · rfl
  · exact (hde.advances.numberOf?_eq x).symm
  · exact hed.advances.numberOf?_eq x

theorem Ordered.eq_of_revision_eq {docs : List Document} (h : Ordered docs) {d e : Document}
    (hd : d ∈ docs) (he : e ∈ docs) (hrevision : d.revision = e.revision) : d = e := by
  obtain rfl | hde | hed := h.eq_or_precedes hd he
  · rfl
  · exact absurd hrevision (Nat.ne_of_lt hde.revision_lt)
  · exact absurd hrevision.symm (Nat.ne_of_lt hed.revision_lt)

/-- What holds of a session and all the documents that it has had. -/
structure Past (docs : List Document) (s : Session) : Prop extends Ordered docs where
  recorded : s.Recorded
  /-- The history holds the last of them, and the current one stands behind it. -/
  recent : ∀ d ∈ s.document, s.history.map (·.before) ++ [d] <:+ docs
  nil_of_unopened : s.document = none → s.phase ≠ .closed → docs = []

section Past

variable {docs : List Document} {s t : Session} {act : Act} {acts : List Act}

theorem past_new (id : SessionId) (config : SyncConfig) : Past [] (new id config) :=
  ⟨⟨nofun, .nil⟩, (consistent_new id config).recorded, nofun, fun _ _ => rfl⟩

theorem Past.congr (h : Past docs s) (hdocument : t.document = s.document)
    (hhistory : t.history = s.history) (hconfig : t.config = s.config)
    (hclosed : t.phase = .closed ↔ s.phase = .closed) : Past (docs ++ []) t := by
  rw [List.append_nil]
  refine ⟨h.toOrdered, h.recorded.congr hdocument hhistory hconfig, ?_,
    fun hnone hphase => h.nil_of_unopened (hdocument ▸ hnone) (hphase ∘ hclosed.2)⟩
  rw [hdocument, hhistory]
  exact h.recent

theorem Past.current_mem (h : Past docs s) {current : Document} (hdoc : s.document = some current) :
    current ∈ docs :=
  (h.recent current hdoc).subset (List.mem_append_right _ (List.mem_singleton_self current))

/-- All the documents are those up to the current one. -/
theorem Past.eq_current_or_precedes (h : Past docs s) {current : Document}
    (hdoc : s.document = some current) {d : Document} (hd : d ∈ docs) :
    d = current ∨ d.Precedes current := by
  obtain ⟨older, holder⟩ := h.recent current hdoc
  have hprecedes := h.precedes
  rw [← holder, ← List.append_assoc] at hd hprecedes
  rcases List.mem_append.1 hd with hd | hd
  · exact .inr ((List.pairwise_append.1 hprecedes).2.2 d hd current (List.mem_singleton_self _))
  · exact .inl (List.mem_singleton.1 hd)

/-- A patch to the current document adds one document to them. -/
theorem Past.record (h : Past docs s) {current next : Document} {origin : PeerId} {patch : Patch}
    (hdoc : s.document = some current) (happly : current.apply patch = .ok next)
    (hnext : t.document = some next)
    (hhistory : t.history =
      keepLast s.config.historyDepth (s.history ++ [⟨origin, current, patch⟩]))
    (hconfig : t.config = s.config) : Past (docs ++ [next]) t := by
  have hcurrent := h.wellNamed current (h.current_mem hdoc)
  have hlast := Document.precedes_of_apply hcurrent happly
  constructor
  case toOrdered =>
    constructor
    · intro d hd
      rcases List.mem_append.1 hd with hd | hd
      · exact h.wellNamed d hd
      · exact List.mem_singleton.1 hd ▸ (Document.wellNamed_of_apply hcurrent happly).1
    · refine List.pairwise_append.2 ⟨h.precedes, List.pairwise_singleton _ _, fun d hd e he => ?_⟩
      rw [List.mem_singleton.1 he]
      obtain rfl | hd := h.eq_current_or_precedes hdoc hd
      · exact hlast
      · exact ⟨hd.revision_lt.trans hlast.revision_lt, hd.advances.trans hlast.advances⟩
  case recorded => exact h.recorded.record hdoc happly origin hnext hhistory hconfig
  case recent =>
    intro d hd
    obtain rfl : next = d := Option.some.inj (hnext ▸ hd)
    have hkept : keepLast s.config.historyDepth (s.history ++ [⟨origin, current, patch⟩]) <:+
        s.history ++ [⟨origin, current, patch⟩] := List.drop_suffix _ _
    have hbefore := hkept.map (·.before)
    rw [List.map_append] at hbefore
    obtain ⟨older, holder⟩ := hbefore.trans (h.recent current hdoc)
    exact ⟨older, by rw [hhistory, ← List.append_assoc, holder]⟩
  case nil_of_unopened => exact fun hnone => by simp [hnext] at hnone

/-- What an act leads to is added to the documents. -/
theorem Past.move (h : Past docs s) (hmove : s.Move act t)
    (hopened : ∀ d, act = .opened d → d.WellNamed) : Past (docs ++ act.document?.toList) t := by
  cases hmove with
  | opened d hnone hphase hwork =>
    rw [h.nil_of_unopened hnone hphase]
    have hnil := h.recorded.nil_of_none hnone
    have hhistory : t.history = [] := hwork.history_eq.trans hnil
    refine ⟨⟨by simpa [Act.document?] using hopened d rfl, List.pairwise_singleton _ _⟩, ?_, ?_, ?_⟩
    · exact ⟨fun _ _ => by rw [hhistory]; trivial, by simp [hhistory], fun _ => hhistory⟩
    · rw [hwork.document_eq, hhistory]
      exact fun e he => Option.some.inj he ▸ List.suffix_refl [d]
    · exact fun hnone => by simp [hwork.document_eq] at hnone
  | committed sub rest current carried next _ _ hdoc hreconcile =>
    have heq := process_of_ok (s := { s with queue := rest }) hdoc hreconcile
    rw [heq]
    exact h.record hdoc (apply_of_reconcile hreconcile) rfl rfl rfl
  | rejected sub rest current e _ _ hdoc hreconcile =>
    have heq := process_of_error (s := { s with queue := rest }) hdoc hreconcile
    rw [heq, reject_eq]
    exact h.congr rfl rfl rfl .rfl
  | edited now patch current next _ _ _ hdoc happly =>
    rw [commit_eq hdoc]
    exact h.record hdoc happly rfl rfl rfl
  | released p _ => exact h.congr rfl rfl rfl .rfl
  | queued sub _ _ hwork =>
    exact h.congr hwork.document_eq hwork.history_eq hwork.config_eq hwork.closed_iff
  | closed =>
    change Past (docs ++ []) s.close
    rw [List.append_nil]
    exact ⟨h.toOrdered, ⟨nofun, Nat.zero_le _, fun _ => rfl⟩, nofun,
      fun _ hphase => absurd rfl hphase⟩
  | aside hwork =>
    exact h.congr hwork.document_eq hwork.history_eq hwork.config_eq hwork.closed_iff

theorem Past.path (h : Past docs s) (hpath : s.Path acts t)
    (hopened : ∀ d, .opened d ∈ acts → d.WellNamed) : Past (docs ++ documentsIn acts) t := by
  induction hpath generalizing docs with
  | nil s => exact (List.append_nil docs).symm ▸ h
  | @cons s t u act acts hmove _ ih =>
    obtain ⟨hfirst, hothers⟩ : (∀ d, act = .opened d → d.WellNamed) ∧
        ∀ d, .opened d ∈ acts → d.WellNamed :=
      ⟨fun d hd => hopened d (hd ▸ List.mem_cons_self), fun d hd =>
        hopened d (List.mem_cons_of_mem act hd)⟩
    have hrest := ih (h.move hmove hfirst) hothers
    rw [List.append_assoc] at hrest
    cases hdocument : act.document? <;> simpa [documentsIn, hdocument] using hrest

end Past

section Way

variable {policy : ConflictPolicy} {origin : PeerId} {current : Document} {patch : Patch}
  {losers : List PeerId} {carried : Carried} {since : List Applied} {x : BlockId}

/-- The documents that a patch is carried past: that of its base, and all up to the current one. -/
def stages (since : List Applied) (current : Document) : List Document :=
  since.map (·.before) ++ [current]

/-- The names that are made up on the way. -/
def mintedOver (policy : ConflictPolicy) (current : Document) : Patch → List Applied → List BlockId
  | _, [] => []
  | patch, applied :: later =>
    let after := documentAfter later current
    patch.minted applied.patch applied.before after policy ++
      match patch.rebase applied.patch applied.before after policy with
      | .error _ => []
      | .ok rebased => mintedOver policy current rebased.patch later

theorem exists_stages_eq (since : List Applied) (current : Document) :
    ∃ docs, stages since current = documentAfter since current :: docs :=
  documents_eq_cons since current

theorem documentAfter_mem_stages (since : List Applied) (current : Document) :
    documentAfter since current ∈ stages since current := by
  obtain ⟨docs, hdocs⟩ := exists_stages_eq since current
  exact hdocs ▸ List.mem_cons_self

/-- A patch that has nothing to do with a block which was there once stays so. -/
theorem target_ne_of_carryOver_of_forall (hpatch : ∀ op ∈ patch.ops, op.target ≠ x)
    (hpast : ∀ d ∈ stages since current, ¬ d.ids.Ahead x)
    (h : carryOver policy origin current ⟨patch, losers⟩ since = .ok carried) :
    ∀ e ∈ carried.patch.ops, e.target ≠ x := by
  induction since generalizing patch losers with
  | nil =>
    cases h
    exact hpatch
  | cons a since ih =>
    have hlater : ∀ d ∈ stages since current, ¬ d.ids.Ahead x :=
      fun d hd => hpast d (List.mem_cons_of_mem _ hd)
    obtain ⟨rebased, hrebase, hrest⟩ := carryOver_cons_eq_ok h
    refine ih (fun e he heq => ?_) hlater hrest
    obtain ⟨op, hop, htarget⟩ | hminted := Patch.target_of_rebase hrebase he
    · exact hpatch op hop (htarget ▸ heq)
    · exact hlater _ (documentAfter_mem_stages since current)
        (Patch.exists_name_of_mem_minted (heq ▸ hminted))

/-- If a document on the way has a block under a name that the patch gives to a block of its own,
    the patch has given it up in the end. -/
theorem target_ne_of_carryOver (hcourse : Ordered (stages since current))
    (hfirst : BringsFirst x patch.ops)
    (hmem : ∃ d ∈ (stages since current).tail, x ∈ d.blocks.map (·.id))
    (hfits : ∀ d ∈ stages since current, (d.ids.numberOf? x).isSome)
    (h : carryOver policy origin current ⟨patch, losers⟩ since = .ok carried) :
    ∀ e ∈ carried.patch.ops, e.target ≠ x := by
  induction since generalizing patch losers with
  | nil => simp [stages] at hmem
  | cons a since ih =>
    have hlater : ∀ d ∈ stages since current, (d.ids.numberOf? x).isSome :=
      fun d hd => hfits d (List.mem_cons_of_mem _ hd)
    have hrest : Ordered (stages since current) := hcourse.tail
    obtain ⟨rebased, hrebase, hcarry⟩ := carryOver_cons_eq_ok h
    obtain ⟨next, hnext⟩ := Patch.exists_apply_of_rebase hrebase
    obtain ⟨docs, hdocs⟩ := exists_stages_eq since current
    have hafter := documentAfter_mem_stages since current
    by_cases hx : x ∈ (documentAfter since current).blocks.map (·.id)
    · refine target_ne_of_carryOver_of_forall
        (Patch.target_ne_of_rebase (hrest.wellNamed _ hafter) hx hfirst hrebase)
        (fun d hd hahead => ?_) hcarry
      have hstart : (documentAfter since current).ids.Ahead x := by
        rw [hdocs] at hd
        rcases List.mem_cons.1 hd with rfl | hd
        · exact hahead
        · exact hahead.of_advances
            ((List.pairwise_cons.1 (hdocs ▸ hrest.precedes)).1 d hd).advances
      exact (hrest.wellNamed _ hafter).not_mem hstart (hlater _ hafter) hx
    · refine ih hrest ?_ ?_ hlater hcarry
      · obtain ⟨-, blocks, ids, hops, -⟩ := Document.apply_eq_ok_iff.1 hnext
        exact bringsFirst_of_applyOps (hrest.wellNamed _ hafter).nodup hx hops
      · obtain ⟨d, hd, hmem⟩ := hmem
        change d ∈ stages since current at hd
        rw [hdocs] at hd ⊢
        rcases List.mem_cons.1 hd with rfl | hd
        · exact absurd hmem hx
        · exact ⟨d, hd, hmem⟩

/-- A name that the base has still to give out, and under which a patch inserts a block in the end,
    is new to all documents on the way. -/
theorem not_mem_stages (hcourse : Ordered (stages since current))
    (hahead : (documentAfter since current).ids.Ahead x) (hfirst : BringsFirst x patch.ops)
    (hfits : ∀ d ∈ stages since current, (d.ids.numberOf? x).isSome)
    (h : carryOver policy origin current ⟨patch, losers⟩ since = .ok carried)
    (hx : x ∈ insertedIds carried.patch.ops) :
    ∀ d ∈ stages since current, x ∉ d.blocks.map (·.id) := by
  intro d hd hmem
  obtain ⟨docs, hdocs⟩ := exists_stages_eq since current
  have hbase := documentAfter_mem_stages since current
  obtain ⟨e, he, htarget⟩ := exists_target_of_mem_insertedIds hx
  refine target_ne_of_carryOver hcourse hfirst ⟨d, ?_, hmem⟩ hfits h e he htarget
  rw [hdocs] at hd ⊢
  rcases List.mem_cons.1 hd with rfl | hd
  · exact absurd hmem ((hcourse.wellNamed _ hbase).not_mem hahead (hfits _ hbase))
  · exact hd

theorem ahead_of_mem_mintedOver (hordered : Ordered (stages since current))
    (hminted : x ∈ mintedOver policy current patch since) :
    (documentAfter since current).ids.Ahead x := by
  induction since generalizing patch with
  | nil => cases hminted
  | cons a since ih =>
    have hafter := documentAfter_mem_stages since current
    have hahead : (documentAfter since current).ids.Ahead x := by
      rw [mintedOver, List.mem_append] at hminted
      obtain hminted | hminted := hminted
      · exact Patch.exists_name_of_mem_minted hminted
      · split at hminted
        · cases hminted
        · exact ih hordered.tail hminted
    exact hahead.of_advances ((List.pairwise_cons.1 hordered.precedes).1 _ hafter).advances

/-- A name that is made up on the way is new to all documents on the way, if a block is inserted
    under it in the end. -/
theorem not_mem_stages_of_mem_mintedOver (hordered : Ordered (stages since current))
    (hminted : x ∈ mintedOver policy current patch since)
    (hfits : ∀ d ∈ stages since current, (d.ids.numberOf? x).isSome)
    (h : carryOver policy origin current ⟨patch, losers⟩ since = .ok carried)
    (hx : x ∈ insertedIds carried.patch.ops) :
    ∀ d ∈ stages since current, x ∉ d.blocks.map (·.id) := by
  induction since generalizing patch losers with
  | nil => cases hminted
  | cons a since ih =>
    have hbase := ahead_of_mem_mintedOver hordered hminted
    have hlater : ∀ d ∈ stages since current, (d.ids.numberOf? x).isSome :=
      fun d hd => hfits d (List.mem_cons_of_mem _ hd)
    have hrest : Ordered (stages since current) := hordered.tail
    obtain ⟨rebased, hrebase, hcarry⟩ := carryOver_cons_eq_ok h
    refine List.forall_mem_cons.2
      ⟨(hordered.wellNamed _ List.mem_cons_self).not_mem hbase (hfits _ List.mem_cons_self), ?_⟩
    simp only [mintedOver, hrebase, List.mem_append] at hminted
    obtain hminted | hminted := hminted
    · have hafter := documentAfter_mem_stages since current
      have hahead := Patch.exists_name_of_mem_minted hminted
      have hnew := (hrest.wellNamed _ hafter).not_mem hahead (hlater _ hafter)
      obtain ⟨next, hnext⟩ := Patch.exists_apply_of_rebase hrebase
      obtain ⟨-, blocks, ids, hops, -⟩ := Document.apply_eq_ok_iff.1 hnext
      have hfirst := bringsFirst_of_applyOps (hrest.wellNamed _ hafter).nodup hnew hops
      exact not_mem_stages hrest hahead hfirst hlater hcarry hx
    · exact ih hrest hminted hlater hcarry

end Way

section Commit

variable {docs : List Document} {s : Session} {current next base : Document} {origin : PeerId}
  {patch : Patch} {carried : Carried} {x : BlockId}

/-- The part of the history that a patch is carried over. -/
def since (s : Session) (current : Document) (patch : Patch) : List Applied :=
  if patch.base < current.revision then historyFrom patch.base s.history else []

theorem since_suffix (s : Session) (current : Document) (patch : Patch) :
    s.since current patch <:+ s.history := by
  rw [since]
  split
  · exact List.dropWhile_suffix _
  · exact List.nil_suffix

theorem carryOver_since (h : s.reconcile current origin patch = .ok (carried, next)) :
    carryOver s.config.conflictPolicy origin current ⟨patch, []⟩ (s.since current patch) =
      .ok carried := by
  have hcarried := carryToCurrent_of_reconcile h
  rw [carryToCurrent] at hcarried
  rw [since]
  split at hcarried
  · rename_i hstale
    rw [if_pos hstale]
    split at hcarried
    · cases hcarried
    · exact hcarried
  · rename_i hcurrent
    rw [if_neg hcurrent]
    exact hcarried

theorem revision_of_historyFrom {base : Nat} {history later : List Applied} {a : Applied}
    (h : historyFrom base history = a :: later) : a.before.revision = base := by
  have hfirst := List.head?_dropWhile_not
    (fun applied : Applied => decide (applied.before.revision ≠ base)) history
  rw [historyFrom] at h
  rw [h] at hfirst
  simpa using hfirst

/-- The names that are made up when a patch is made over for the current document. -/
def mintedFor (s : Session) (current : Document) (patch : Patch) : List BlockId :=
  mintedOver s.config.conflictPolicy current patch (s.since current patch)

theorem Past.stages_suffix (h : Past docs s) (hdoc : s.document = some current) (patch : Patch) :
    stages (s.since current patch) current <:+ docs := by
  refine List.IsSuffix.trans ?_ (h.recent current hdoc)
  obtain ⟨front, hfront⟩ := (since_suffix s current patch).map (·.before)
  exact ⟨front, by rw [← hfront, stages, List.append_assoc]⟩

/-- A patch that was made from one of the documents is carried on from there. -/
theorem Past.documentAfter_since (h : Past docs s) (hdoc : s.document = some current)
    (hmem : base ∈ docs) (hbase : patch.base = base.revision)
    (hreconcile : s.reconcile current origin patch = .ok (carried, next)) :
    documentAfter (s.since current patch) current = base := by
  have hafter := (h.stages_suffix hdoc patch).subset (documentAfter_mem_stages _ _)
  refine h.eq_of_revision_eq hafter hmem ?_
  by_cases hstale : patch.base < current.revision
  · have hcarried := carryToCurrent_of_reconcile hreconcile
    rw [carryToCurrent, if_pos hstale] at hcarried
    rw [since, if_pos hstale]
    split at hcarried
    · cases hcarried
    · rename_i hne
      obtain ⟨a, later, hsince⟩ := List.exists_cons_of_ne_nil hne
      rw [hsince, documentAfter_cons, revision_of_historyFrom hsince, hbase]
  · rw [since, if_neg hstale, documentAfter_nil]
    obtain rfl | hbefore := h.eq_current_or_precedes hdoc hmem
    · rfl
    · exact absurd (hbase ▸ hbefore.revision_lt) hstale

/-- Whether a name was made up for a patch: when it was made from one of some documents, or on the
    way to the current one. -/
def IsMinted (docs : List Document) (s : Session) (current : Document) (patch : Patch)
    (x : BlockId) : Prop :=
  x ∈ s.mintedFor current patch ∨
    ∃ base ∈ docs, ∃ candidate, patch = base.diff candidate ∧ x ∈ insertedIds patch.ops

theorem Past.ahead_of_isMinted (h : Past docs s) (hdoc : s.document = some current)
    (hreconcile : s.reconcile current origin patch = .ok (carried, next))
    (hminted : IsMinted docs s current patch x) :
    (documentAfter (s.since current patch) current).ids.Ahead x := by
  obtain hminted | ⟨base, hbase, candidate, rfl, hinserted⟩ := hminted
  · exact ahead_of_mem_mintedOver (h.suffix (h.stages_suffix hdoc patch)) hminted
  · rw [h.documentAfter_since hdoc hbase rfl hreconcile]
    exact Document.exists_name_of_mem_insertedIds_diff hinserted

theorem Past.not_mem_stages_of_isMinted (h : Past docs s) (hdoc : s.document = some current)
    (hreconcile : s.reconcile current origin patch = .ok (carried, next))
    (hminted : IsMinted docs s current patch x) (hfits : ∀ d ∈ docs, (d.ids.numberOf? x).isSome)
    (hx : x ∈ insertedIds carried.patch.ops) :
    ∀ d ∈ stages (s.since current patch) current, x ∉ d.blocks.map (·.id) := by
  have hcarry := carryOver_since hreconcile
  have hahead := h.ahead_of_isMinted hdoc hreconcile hminted
  have hsuffix := h.stages_suffix hdoc patch
  have hfit : ∀ d ∈ stages (s.since current patch) current, (d.ids.numberOf? x).isSome :=
    fun d hd => hfits d (hsuffix.subset hd)
  obtain hminted | ⟨base, hbase, candidate, rfl, -⟩ := hminted
  · exact not_mem_stages_of_mem_mintedOver (h.suffix hsuffix) hminted hfit hcarry hx
  · have hstart := h.documentAfter_since hdoc hbase rfl hreconcile
    have habsent := (h.wellNamed base hbase).not_mem (hstart ▸ hahead) (hfits base hbase)
    exact not_mem_stages (h.suffix hsuffix) hahead (Document.bringsFirst_diff habsent) hfit hcarry hx

/-- A name that was made up for a patch, and under which it inserts a block in the end, is new to
    all documents of the session, or it is beyond the last number. -/
theorem Past.new_of_isMinted (h : Past docs s) (hdoc : s.document = some current)
    (hreconcile : s.reconcile current origin patch = .ok (carried, next))
    (hminted : IsMinted docs s current patch x) (hx : x ∈ insertedIds carried.patch.ops) :
    (∃ n, IdSource.maxNumber < n ∧ x = current.ids.name n) ∨
      ∀ d ∈ docs, x ∉ d.blocks.map (·.id) := by
  have hcurrent := h.current_mem hdoc
  have hahead := h.ahead_of_isMinted hdoc hreconcile hminted
  have hsuffix := h.stages_suffix hdoc patch
  have hbase := documentAfter_mem_stages (s.since current patch) current
  obtain hfits | ⟨n, hmax, hname⟩ := hahead.isSome_numberOf?
  · right
    have hfit : ∀ d ∈ docs, (d.ids.numberOf? x).isSome := fun d hd => by
      rw [h.numberOf?_eq hd (hsuffix.subset hbase)]
      exact hfits
    have hnew := h.not_mem_stages_of_isMinted hdoc hreconcile hminted hfit hx
    obtain ⟨older, holder⟩ := hsuffix
    intro d hd
    rw [← holder] at hd
    rcases List.mem_append.1 hd with hd | hd
    · have hprecedes := (List.pairwise_append.1 (holder ▸ h.precedes)).2.2 d hd _ hbase
      have hmem : d ∈ docs := holder ▸ List.mem_append_left _ hd
      exact (h.wellNamed d hmem).not_mem (hahead.of_advances hprecedes.advances) (hfit d hmem)
    · exact hnew d hd
  · left
    refine ⟨n, hmax, ?_⟩
    obtain heq | hprecedes := h.eq_current_or_precedes hdoc (hsuffix.subset hbase)
    · exact heq ▸ hname
    · rw [hprecedes.advances.name_eq]
      exact hname

/-- A name that is made up from one of the documents is new to it and to all before it, or it is
    beyond the last number. -/
theorem Past.new_of_ahead (h : Past docs s) (hd : current ∈ docs) (hahead : current.ids.Ahead x) :
    (∃ n, IdSource.maxNumber < n ∧ x = current.ids.name n) ∨
      ∀ e ∈ docs, e.revision ≤ current.revision → x ∉ e.blocks.map (·.id) := by
  obtain hfits | hspent := hahead.isSome_numberOf?
  · right
    intro e he hrevision
    rw [h.numberOf?_eq hd he] at hfits
    obtain rfl | hde | hed := h.eq_or_precedes hd he
    · exact (h.wellNamed _ he).not_mem hahead hfits
    · exact absurd hde.revision_lt (Nat.not_lt.2 hrevision)
    · exact (h.wellNamed e he).not_mem (hahead.of_advances hed.advances) hfits
  · exact .inl hspent

end Commit

theorem wellNamed_of_opens [RegexLibrary] {c : Command} {d : Document} (hc : c.Admissible)
    (h : c.opens? = some d) : d.WellNamed := by
  cases c with
  | finishOpen result =>
    cases result with
    | error e => cases h
    | ok d' => exact Option.some.inj h ▸ hc
  | openText p text =>
    rw [Command.opens?] at h
    cases hopened : Document.ofText p text with
    | error e => simp [hopened, Except.toOption] at h
    | ok d' =>
      rw [hopened] at h
      exact Option.some.inj h ▸ Document.wellNamed_of_openWith hopened
  | _ => cases h

theorem Past.committed {docs : List Document} {s t : Session} {sub : Submission} {carried : Carried}
    {next : Document} (h : Past docs s) (hmove : s.Move (.committed sub carried next) t) :
    ∃ current, s.document = some current ∧
      s.reconcile current sub.origin sub.patch = .ok (carried, next) ∧
      ∀ x ∈ insertedIds carried.patch.ops, IsMinted docs s current sub.patch x →
        (∃ n, IdSource.maxNumber < n ∧ x = current.ids.name n) ∨
          ∀ d ∈ docs, x ∉ d.blocks.map (·.id) := by
  cases hmove with
  | committed sub rest current carried next _ _ hdoc hreconcile =>
    exact ⟨current, hdoc, hreconcile, fun x hx hminted =>
      h.new_of_isMinted hdoc hreconcile hminted hx⟩

/-- A source runs out of numbers only if it has begun with the last one or has come across it in a
    name, and gives out no name that it has given out or been shown before. In a session, the names
    that are made up for the blocks of a document, and those that are made up when a patch is
    carried over to it, are new to the document and to all before it, and those under which a
    patch inserts blocks when it is committed are new to all documents that there have been, unless
    they are beyond the last number. -/
theorem minted_names_are_new [RegexLibrary] (g h : IdSource) (uses : List IdSource.Use)
    (ids : List BlockId)
    (huses : g.uses? uses = some (ids, h)) (id : SessionId) (config : SyncConfig)
    (commands : List Command) (hc : ∀ c ∈ commands, c.Admissible) :
    ((h.next? = none ↔ IdSource.maxNumber ≤ g.count ∨
        ∃ x ∈ ids, g.numberOf? x = some IdSource.maxNumber) ∧
      ∀ x k, h.next? = some (x, k) → x ∉ ids) ∧
    ∃ log, (new id config).Path log ((new id config).run commands) ∧
      (∀ d ∈ documentsIn log, ∀ x, (∃ candidate, x ∈ insertedIds (d.diff candidate).ops) ∨
          (∃ later earlier before policy, x ∈ Patch.minted later earlier before d policy) →
        (∃ n, IdSource.maxNumber < n ∧ x = d.ids.name n) ∨
          ∀ e ∈ documentsIn log, e.revision ≤ d.revision → x ∉ e.blocks.map (·.id)) ∧
      ∀ earlier sub carried next later, log = earlier ++ .committed sub carried next :: later →
        ∃ s current, (new id config).Path earlier s ∧ s.document = some current ∧
          s.reconcile current sub.origin sub.patch = .ok (carried, next) ∧
          ∀ x ∈ insertedIds carried.patch.ops, IsMinted (documentsIn earlier) s current sub.patch x →
            (∃ n, IdSource.maxNumber < n ∧ x = current.ids.name n) ∨
              ∀ d ∈ documentsIn earlier, x ∉ d.blocks.map (·.id) := by
  have hbehind := IdSource.behind_of_uses? huses
  refine ⟨⟨hbehind.next?_eq_none_iff, fun x k => hbehind.not_mem_of_next?⟩, ?_⟩
  obtain ⟨log, hpath, -, hopened⟩ := exists_path_run (consistent_new id config) commands
  have hnamed : ∀ d, .opened d ∈ log → d.WellNamed := fun d hd => by
    obtain ⟨c, hmem, hopens⟩ := hopened d hd
    exact wellNamed_of_opens (hc c hmem) hopens
  refine ⟨log, hpath, fun d hd x hx => ?_, fun earlier sub carried next later heq => ?_⟩
  · have hpast : Past (documentsIn log) _ := (past_new id config).path hpath hnamed
    refine hpast.new_of_ahead hd (hx.elim ?_ ?_)
    · exact fun ⟨candidate, hinserted⟩ => Document.exists_name_of_mem_insertedIds_diff hinserted
    · exact fun ⟨_, _, _, _, hminted⟩ => Patch.exists_name_of_mem_minted hminted
  · subst heq
    obtain ⟨s, hearlier, hlater⟩ := hpath.split
    have hpast : Past (documentsIn earlier) s := (past_new id config).path hearlier
      fun d hd => hnamed d (List.mem_append_left _ hd)
    obtain _ | ⟨hmove, -⟩ := hlater
    obtain ⟨current, hdoc, hreconcile, hnew⟩ := hpast.committed hmove
    exact ⟨s, current, hearlier, hdoc, hreconcile, hnew⟩

/-- A name from elsewhere has the last number. In the session, a view edit of the first revision
    makes up `b2`, which is in use by then, and the block gets `b4`, as `b3` is the name of a block
    that was deleted. -/
theorem minted_names_are_new_deleted_block :
    let uses : List IdSource.Use :=
      [.next, .observe ⟨"b+7"⟩, .next, .observe ⟨"b18446744073709551615"⟩]
    let ids : List BlockId := [⟨"b1"⟩, ⟨"b+7"⟩, ⟨"b8"⟩, ⟨"b18446744073709551615"⟩]
    let h : IdSource := ⟨none, 18446744073709551615⟩
    let p : Profile := { id := "python", lineComments := ["#"], strings := [.spanning "\""] }
    let commands : List Command := [.openText p "x = 1\n",
      .submit ⟨"u"⟩ ⟨0, [.insert ⟨⟨"b2"⟩, .doc, "# u\n"⟩ none]⟩,
      .submit ⟨"v"⟩ ⟨0, [.insert ⟨⟨"b2"⟩, .doc, "# v\n"⟩ none]⟩,
      .submit ⟨"u"⟩ ⟨2, [.delete ⟨"b3"⟩]⟩,
      .viewEdit ⟨"w"⟩ 0 [⟨.doc, "python", "w\n"⟩, ⟨.code, "python", "x = 1\n"⟩]]
    let s := (new ⟨"s1"⟩ {}).run commands
    IdSource.unseeded.uses? uses = some (ids, h) ∧ h.next? = none ∧
      (∀ c ∈ commands, c.Admissible) ∧
      s.document.map (·.blocks.map (·.id)) = some [⟨"b4"⟩, ⟨"b2"⟩, ⟨"b1"⟩] ∧
      ∃ log, (new ⟨"s1"⟩ {}).Path log s ∧
        ∀ earlier sub carried next later, log = earlier ++ .committed sub carried next :: later →
          ∃ s current, (new ⟨"s1"⟩ {}).Path earlier s ∧ s.document = some current ∧
            s.reconcile current sub.origin sub.patch = .ok (carried, next) ∧
            ∀ x ∈ insertedIds carried.patch.ops,
              IsMinted (documentsIn earlier) s current sub.patch x →
              (∃ n, IdSource.maxNumber < n ∧ x = current.ids.name n) ∨
                ∀ d ∈ documentsIn earlier, x ∉ d.blocks.map (·.id) := by
  intro uses ids h p commands s
  have huses : IdSource.unseeded.uses? uses = some (ids, h) := by decide +kernel
  have hc : ∀ c ∈ commands, c.Admissible := by simp [commands, Command.Admissible]
  obtain ⟨⟨hnone, -⟩, log, hpath, -, hcommitted⟩ :=
    minted_names_are_new .unseeded h uses ids huses ⟨"s1"⟩ {} commands hc
  refine ⟨huses, hnone.2 (.inr ⟨⟨"b18446744073709551615"⟩, by decide, by decide +kernel⟩), hc,
    by decide +kernel, log, hpath, hcommitted⟩

end Session

end LiterateSync
