import Mathlib.Data.List.Basic
import LiterateSync.Proofs.Text.Digits
import LiterateSync.Proofs.Text.Fields
import LiterateSync.Proofs.Text.Search
import LiterateSync.Workspace.Relay

namespace LiterateSync

/-- A text without control characters, and so without line endings. -/
def Text.Shown (s : List Char) : Prop :=
  ∀ c ∈ s, 0x20 ≤ c.toNat

namespace Json

open Text (Shown)

/-- A value in which all numbers are written with digits only. -/
inductive IsWhole : Json → Prop
  | null : IsWhole .null
  | bool (b : Bool) : IsWhole (.bool b)
  | nat (n : Nat) : IsWhole (.nat n)
  | string (s : String) : IsWhole (.string s)
  | array {items : List Json} (h : ∀ v ∈ items, IsWhole v) : IsWhole (.array items)
  | object {fields : List (String × Json)} (h : ∀ f ∈ fields, IsWhole f.2) :
      IsWhole (.object fields)

theorem shown_hexDigit : ∀ n < 16, 0x20 ≤ (hexDigit n).toNat := by
  decide

theorem shown_escape (c : Char) : Shown (escape c) := by
  rw [escape.eq_def]
  split
  case h_8 =>
    split
    case isTrue hc =>
      have hhigh := shown_hexDigit (c.toNat / 16) (by omega)
      have hlow := shown_hexDigit (c.toNat % 16) (by omega)
      simp [Shown, hhigh, hlow]
    case isFalse hc => simpa [Shown] using hc
  all_goals simp [Shown]

theorem shown_enclosed {s : List Char} (hs : Shown s) {opening closing : Char}
    (hopening : 0x20 ≤ opening.toNat) (hclosing : 0x20 ≤ closing.toNat) :
    Shown (opening :: s ++ [closing]) := by
  simpa [Shown, or_imp, forall_and] using ⟨hopening, hs, hclosing⟩

theorem shown_quote (s : String) : Shown (quote s) := by
  have hbody : Shown (s.toList.flatMap escape) := fun c hc => by
    obtain ⟨d, -, hc⟩ := List.mem_flatMap.1 hc
    exact shown_escape d c hc
  exact shown_enclosed hbody (by decide) (by decide)

theorem shown_toString (n : Nat) : Shown (toString n).toList := by
  intro c hc
  rw [Text.toList_toString] at hc
  have hdigit := List.all_eq_true.1 (Text.all_isDigit_toDigits n) c hc
  have hlow : '0'.toNat ≤ c.toNat := (Char.isDigit_iff_toNat.1 hdigit).1
  exact Nat.le_trans (by decide) hlow

theorem shown_itemChars {items : List Json} (h : ∀ v ∈ items, Shown v.chars) :
    Shown (itemChars items) := by
  induction items with
  | nil => nofun
  | cons v vs ih =>
    obtain ⟨hv, hvs⟩ := List.forall_mem_cons.1 h
    cases vs with
    | nil => exact hv
    | cons w vs => simpa [Shown, itemChars, or_imp, forall_and] using ⟨hv, ih hvs⟩

theorem shown_fieldChars {fields : List (String × Json)} (h : ∀ f ∈ fields, Shown f.2.chars) :
    Shown (fieldChars fields) := by
  induction fields with
  | nil => nofun
  | cons f fs ih =>
    obtain ⟨hf, hfs⟩ := List.forall_mem_cons.1 h
    have hname := shown_quote f.1
    cases fs with
    | nil => simpa [Shown, fieldChars, or_imp, forall_and] using ⟨hname, hf⟩
    | cons g fs => simpa [Shown, fieldChars, or_imp, forall_and] using ⟨hname, hf, ih hfs⟩

/-- A value stays on its line, whatever its strings hold. -/
theorem IsWhole.shown {v : Json} (h : v.IsWhole) : Shown v.chars := by
  induction h with
  | null => simp [Shown, chars]
  | bool b => cases b <;> simp [Shown, chars]
  | nat n => exact shown_toString n
  | string s => exact shown_quote s
  | array _ ih => exact shown_enclosed (shown_itemChars ih) (by decide) (by decide)
  | object _ ih => exact shown_enclosed (shown_fieldChars ih) (by decide) (by decide)

theorem isWhole_ofOption {α : Type} {write : α → Json} (h : ∀ a, (write a).IsWhole)
    (found : Option α) : (ofOption write found).IsWhole := by
  cases found with
  | none => exact .null
  | some a => exact h a

theorem isWhole_ofList {α : Type} {write : α → Json} (h : ∀ a, (write a).IsWhole)
    (items : List α) : (ofList write items).IsWhole :=
  .array (by simpa using fun a _ => h a)

end Json

open Json

theorem Block.isWhole_toJson (b : Block) : b.toJson.IsWhole :=
  .object (by simpa [BlockId.toJson, BlockKind.toJson] using ⟨.string _, .string _, .string _⟩)

theorem PatchOp.isWhole_toJson (op : PatchOp) : op.toJson.IsWhole := by
  have hid (id : BlockId) : id.toJson.IsWhole := .string _
  have hafter := isWhole_ofOption hid
  cases op <;> refine .object ?_
  case insert block after => simpa using ⟨.string _, block.isWhole_toJson, hafter after⟩
  case delete id => simpa using ⟨.string _, hid id⟩
  case replace id content => simpa using ⟨.string _, hid id, .string content⟩
  case move id after => simpa using ⟨.string _, hid id, hafter after⟩

theorem Patch.isWhole_toJson (p : Patch) : p.toJson.IsWhole :=
  .object (by simpa using ⟨.nat _, isWhole_ofList PatchOp.isWhole_toJson p.ops⟩)

theorem Snapshot.isWhole_toJson (s : Snapshot) : s.toJson.IsWhole :=
  .object (by simpa using
    ⟨.nat _, .string _, .string _, isWhole_ofList Block.isWhole_toJson s.blocks⟩)

theorem MessageBody.isWhole_payload (body : MessageBody) : body.payload.IsWhole := by
  cases body with
  | patch p => exact p.isWhole_toJson
  | ack revision => exact .object (by simpa using .nat revision)
  | superseded revision reason => exact .object (by simpa using ⟨.nat revision, .string _⟩)
  | fullDocument snapshot => exact isWhole_ofOption Snapshot.isWhole_toJson snapshot

theorem Message.isWhole_toJson (m : Message) : m.toJson.IsWhole :=
  .object (by simpa using ⟨.string _, .string _, m.body.isWhole_payload⟩)

namespace Relay

/-- A line is read without its ending. -/
theorem lines_cons {line : List Char} (hline : Text.Shown line) (rest : List Char) :
    lines (String.ofList (line ++ '\n' :: rest)) =
      String.ofList line :: lines (String.ofList rest) := by
  have hfeed : '\n' ∉ line := fun h => absurd (hline _ h) (by decide)
  have hreturn : Text.beforeSuffix? ['\r'] line = none := by
    rw [Option.eq_none_iff_forall_ne_some]
    rintro body hbody
    have hmem : '\r' ∈ line := by simp [Text.beforeSuffix?_eq_some_iff.1 hbody]
    exact absurd (hline _ hmem) (by decide)
  have hbody : Text.beforeSuffix? ['\n'] (line ++ ['\n']) = some line :=
    Text.beforeSuffix?_eq_some_iff.2 rfl
  simp only [lines, String.toList_ofList, Text.lines_line hfeed, List.map_cons, hbody, hreturn,
    Option.getD_none]

/-- Each message is on a line of its own, and nothing else is. -/
theorem lines_text (messages : List Message) :
    lines (text messages) = messages.map Message.render := by
  induction messages with
  | nil => rfl
  | cons m messages ih =>
    have htext : text (m :: messages) =
        String.ofList (m.toJson.chars ++ '\n' :: (text messages).toList) := by
      rw [← String.toList_inj]
      simp [text, Message.render, Json.render, String.toList_join]
    rw [htext, lines_cons m.isWhole_toJson.shown, String.ofList_toList, ih]
    rfl

end Relay

end LiterateSync
