import LiterateSync.Wire.Session
import LiterateSync.Proofs.Wire.Document

namespace LiterateSync

open Json

theorem ConflictPolicy.codes : Codes (fun _ => True) 0 toJson ofJson? where
  exact _ := .string _
  read_write {p} _ := by cases p <;> simp [ofJson?, toJson, tag?, name]
  fits _ := trivial

/-- A configuration whose natural numbers are of 64 bits. -/
structure SyncConfig.Fits (c : SyncConfig) : Prop where
  ackTimeoutMs : c.ackTimeoutMs < Nat.pow 2 64
  historyDepth : c.historyDepth < Nat.pow 2 64

theorem SyncConfig.codes : Codes Fits 1 toJson ofJson? where
  exact {c} hfits := .object (by
    simpa [ConflictPolicy.toJson] using
      ⟨.nat hfits.ackTimeoutMs, Codes.uint32.exact (a := c.maxRetries) trivial,
        .nat hfits.historyDepth⟩)
  read_write {c} hfits := by
    have hpolicy := ConflictPolicy.codes.read_write (a := c.conflictPolicy) trivial
    rw [ofJson?, toJson, record?_object (by simp) (by decide)]
    have hretries := Codes.uint32.read_write (a := c.maxRetries) trivial
    simp [Codes.nat64.read_write hfits.ackTimeoutMs, hretries,
      Codes.nat64.read_write hfits.historyDepth, hpolicy]
  fits {v c} hread := by
    simp only [ofJson?, Option.bind_eq_bind, Option.bind_eq_some_iff, Option.some.injEq] at hread
    obtain ⟨fields, -, timeout, htimeout, retries, -, policy, -, depth, hdepth, rfl⟩ := hread
    exact ⟨Codes.nat64.fits_of_orDefault (by decide) htimeout,
      Codes.nat64.fits_of_orDefault (by decide) hdepth⟩

theorem SupersedeReason.codes : Codes (fun _ => True) 0 toJson ofJson? where
  exact _ := .string _
  read_write {r} _ := by cases r <;> rfl
  fits _ := trivial

/-- A snapshot whose revision is a number of 64 bits. -/
def Snapshot.Fits (s : Snapshot) : Prop :=
  s.revision < Nat.pow 2 64

theorem Snapshot.codes (kept : Bool) : Codes Fits 3 toJson (ofJson? kept) where
  exact {s} hfits := by
    have hblocks := (Block.codes kept).ofList.exact (a := s.blocks) fun _ _ => trivial
    exact .object (by simpa using ⟨.nat hfits, hblocks⟩)
  read_write {s} hfits := by
    have hblocks := (Block.codes kept).ofList.read_write (a := s.blocks) fun _ _ => trivial
    rw [ofJson?, toJson, record?_object (by simp) (by decide)]
    simp [Codes.nat64.read_write hfits, hblocks]
  fits {v s} hread := by
    simp only [ofJson?, Option.bind_eq_bind, Option.bind_eq_some_iff, Option.some.injEq] at hread
    obtain ⟨fields, -, revision, hrevision, language, -, text, -, blocks, -, rfl⟩ := hread
    exact Codes.nat64.fits_of_required hrevision

namespace MessageBody

/-- The content of a message whose revision, if it has one, is a number of 64 bits. -/
def Fits : MessageBody → Prop
  | .patch p => p.Fits
  | .ack revision => revision < Nat.pow 2 64
  | .superseded revision _ => revision < Nat.pow 2 64
  | .fullDocument snapshot => ∀ s ∈ snapshot, s.Fits

/-- The document of a message, or the wish for one. -/
theorem codes_snapshot : Codes (fun snapshot => ∀ s ∈ snapshot, s.Fits) 3
    (ofOption Snapshot.toJson) (orNull? (Snapshot.ofJson? true)) :=
  (Snapshot.codes true).ofOption (by simp [Snapshot.toJson])

theorem isExact_payload {body : MessageBody} (hfits : body.Fits) : IsExact 4 body.payload := by
  cases body with
  | patch p => exact (Patch.codes true).exact hfits
  | ack revision => exact .object (by simpa using .nat hfits)
  | superseded revision reason =>
    have hreason := (SupersedeReason.codes.exact (a := reason) trivial).mono (Nat.zero_le 3)
    exact .object (by simpa using ⟨.nat hfits, hreason⟩)
  | fullDocument snapshot => exact (codes_snapshot.exact hfits).mono (by decide)

theorem ofPayload?_payload {body : MessageBody} (hfits : body.Fits) :
    ofPayload? body.kind (some body.payload) = some body := by
  cases body with
  | patch p =>
    have hpatch := (Patch.codes true).read_write hfits
    simp [ofPayload?, kind, payload, hpatch]
  | ack revision =>
    have hrevision := Codes.nat64.read_write hfits
    simp only [ofPayload?, kind, payload, Option.bind_eq_bind, Option.bind_some]
    rw [objectRecord?_object (by simp) (by decide)]
    simp [hrevision]
  | superseded revision reason =>
    have hrevision := Codes.nat64.read_write hfits
    have hreason := SupersedeReason.codes.read_write (a := reason) trivial
    simp only [ofPayload?, kind, payload, Option.bind_eq_bind, Option.bind_some]
    rw [objectRecord?_object (by simp) (by decide)]
    simp [hrevision, hreason]
  | fullDocument snapshot =>
    have hsnapshot := codes_snapshot.read_write hfits
    simp [ofPayload?, kind, payload, hsnapshot]

theorem fits_of_ofPayload? {kind : String} {payload : Option Json} {body : MessageBody}
    (hread : ofPayload? kind payload = some body) : body.Fits := by
  rw [ofPayload?.eq_def] at hread
  split at hread
  all_goals
    try simp only [Option.bind_eq_bind, Option.bind_eq_some_iff, Option.map_eq_some_iff,
      Option.some.injEq] at hread
  · obtain ⟨v, -, p, hp, rfl⟩ := hread
    exact (Patch.codes true).fits hp
  · obtain ⟨v, -, fields, -, revision, hrevision, rfl⟩ := hread
    exact Codes.nat64.fits_of_required hrevision
  · obtain ⟨v, -, fields, -, revision, hrevision, reason, -, rfl⟩ := hread
    exact Codes.nat64.fits_of_required hrevision
  · obtain ⟨snapshot, hsnapshot, rfl⟩ := hread
    exact codes_snapshot.fits hsnapshot
  · cases hread

end MessageBody

/-- A message whose content fits. -/
def Message.Fits (m : Message) : Prop :=
  m.body.Fits

theorem Message.isExact_toJson {m : Message} (hfits : m.Fits) : IsExact 5 m.toJson :=
  .object (by simpa using MessageBody.isExact_payload hfits)

theorem Message.codes : Codes Fits 5 toJson ofJson? where
  exact := isExact_toJson
  read_write {m} hfits := by
    have hbody := MessageBody.ofPayload?_payload hfits
    have hplain : m.toJson.isPlain Patch.maxDepth :=
      ((isExact_toJson hfits).mono (by decide)).isPlain
    rw [ofJson?, if_pos hplain, toJson, objectRecord?_object (by simp) (by decide)]
    simp [tag?, Record.get?, hbody]
  fits {v m} hread := by
    rw [ofJson?] at hread
    split at hread
    · simp only [Option.bind_eq_bind, Option.bind_eq_some_iff, Option.some.injEq] at hread
      obtain ⟨fields, -, session, -, kind, -, body, hbody, rfl⟩ := hread
      exact MessageBody.fits_of_ofPayload? hbody
    · cases hread

end LiterateSync
