import LiterateSync.Proofs.Wire.Session

namespace LiterateSync.Json

/-- The value of a type that a text holds. -/
def ofText? {α : Type} (read : Json → Option α) (text : String) : Option α :=
  (parse? text).bind read

variable {α : Type} {Fits : α → Prop} {room : Nat} {write : α → Json} {read : Json → Option α}

/-- Both ways of writing a value give a text that is read as the value. -/
structure ReadsBack (write : α → Json) (read : Json → Option α) (a : α) : Prop where
  render : ofText? read (write a).render = some a
  renderPretty : ofText? read (write a).renderPretty = some a

/-- All values that fit are read back from the texts that are written for them, and so is
    whatever any text is read as. -/
structure RoundTrips (Fits : α → Prop) (write : α → Json) (read : Json → Option α) : Prop where
  written : ∀ a, Fits a → ReadsBack write read a
  accepted : ∀ text a, ofText? read text = some a → Fits a ∧ ReadsBack write read a

theorem Codes.readsBack (h : Codes Fits room write read) {a : α} (hfits : Fits a) :
    ReadsBack write read a where
  render := by rw [ofText?, (h.exact hfits).parse?_render, Option.bind_some, h.read_write hfits]
  renderPretty := by
    rw [ofText?, (h.exact hfits).parse?_renderPretty, Option.bind_some, h.read_write hfits]

theorem Codes.roundTrips (h : Codes Fits room write read) : RoundTrips Fits write read where
  written _ hfits := h.readsBack hfits
  accepted text a hread := by
    obtain ⟨v, -, hv⟩ := Option.bind_eq_some_iff.1 hread
    exact ⟨h.fits hv, h.readsBack (h.fits hv)⟩

/-- Every type of data that is written round-trips. The only values that do not fit have numbers
    too large for their fields, which no text is read as. -/
theorem wire_roundTrips :
    RoundTrips Message.Fits Message.toJson Message.ofJson? ∧
    RoundTrips Patch.Fits Patch.toJson (Patch.ofJson? false) ∧
    RoundTrips (fun _ => True) PatchOp.toJson (PatchOp.ofJson? false Patch.maxDepth) ∧
    RoundTrips (fun _ => True) Block.toJson (Block.ofJson? false) ∧
    RoundTrips (fun _ => True) ViewBlock.toJson ViewBlock.ofJson? ∧
    RoundTrips Snapshot.Fits Snapshot.toJson (Snapshot.ofJson? false) ∧
    RoundTrips (fun _ => True) Profile.toJson Profile.ofJson? ∧
    RoundTrips SyncConfig.Fits SyncConfig.toJson SyncConfig.ofJson? ∧
    RoundTrips Segment.Fits Segment.toJson Segment.ofJson? ∧
    RoundTrips (fun _ => True) DocComment.toJson DocComment.ofJson? :=
  ⟨Message.codes.roundTrips, (Patch.codes false).roundTrips,
    (PatchOp.codes false (by decide)).roundTrips, (Block.codes false).roundTrips,
    ViewBlock.codes.roundTrips, (Snapshot.codes false).roundTrips, Profile.codes.roundTrips,
    SyncConfig.codes.roundTrips, Segment.codes.roundTrips, DocComment.codes.roundTrips⟩

/-- The largest revision and a text with quotes, a control character and a character outside the
    basic plane arrive unchanged. -/
theorem wire_roundTrips_largest :
    let m : Message := ⟨⟨"s1"⟩, .patch ⟨18446744073709551615,
      [.insert ⟨⟨"b\\1"⟩, .code, "a \"b\" \x01 \t 𝄞"⟩ none]⟩⟩
    m.Fits ∧ Message.parse? m.render = some m := by
  intro m
  have hfits : m.Fits := by
    show 18446744073709551615 < Nat.pow 2 64
    decide
  exact ⟨hfits, (wire_roundTrips.1.written m hfits).render⟩

end LiterateSync.Json
