import LiterateSync.Wire.Record
import LiterateSync.Proofs.Wire.Spelling

namespace LiterateSync.Json

variable {α : Type} {Fits : α → Prop} {room : Nat} {write : α → Json} {read : Json → Option α}

@[simp]
theorem isExact_string (room : Nat) (s : String) : IsExact room (.string s) :=
  .string s

@[simp]
theorem isExact_bool (room : Nat) (b : Bool) : IsExact room (.bool b) :=
  .bool b

@[simp]
theorem string?_string (s : String) : string? (.string s) = some s :=
  rfl

@[simp]
theorem bool?_bool (b : Bool) : bool? (.bool b) = some b :=
  rfl

theorem IsExact.mono {more : Nat} {v : Json} (h : IsExact room v) (hle : room ≤ more) :
    IsExact more v := by
  induction h generalizing more with
  | null => exact .null
  | bool b => exact .bool b
  | nat hn => exact .nat hn
  | string s => exact .string s
  | array _ ih =>
    obtain ⟨more, rfl⟩ := Nat.exists_eq_succ_of_ne_zero (Nat.ne_zero_of_lt hle)
    exact .array fun v hv => ih v hv (Nat.le_of_succ_le_succ hle)
  | object _ ih =>
    obtain ⟨more, rfl⟩ := Nat.exists_eq_succ_of_ne_zero (Nat.ne_zero_of_lt hle)
    exact .object fun f hf => ih f hf (Nat.le_of_succ_le_succ hle)

/-- A writer and a reader of one type that belong together. What fits is written exactly and
    read as it was, and whatever is read fits. -/
structure Codes (Fits : α → Prop) (room : Nat) (write : α → Json) (read : Json → Option α) :
    Prop where
  exact : ∀ {a}, Fits a → IsExact room (write a)
  read_write : ∀ {a}, Fits a → read (write a) = some a
  fits : ∀ {v a}, read v = some a → Fits a

namespace Codes

theorem string : Codes (fun _ => True) 0 .string string? where
  exact _ := .string _
  read_write _ := rfl
  fits _ := trivial

theorem natBelow {bound : Nat} (hbound : bound ≤ Nat.pow 2 64) :
    Codes (· < bound) 0 .nat (natBelow? bound) where
  exact hn := .nat (by omega)
  read_write hn := by simp [natBelow?, hn]
  fits {v n} hread := by
    cases v with
    | nat k =>
      rw [natBelow?] at hread
      split at hread
      · next hk => exact Option.some.inj hread ▸ hk
      · cases hread
    | _ => cases hread

theorem nat64 : Codes (· < Nat.pow 2 64) 0 .nat nat64? :=
  natBelow le_rfl

theorem uint32 : Codes (fun _ => True) 0 (fun n : UInt32 => .nat n.toNat) uint32? where
  exact {n} _ := (natBelow (by decide : Nat.pow 2 32 ≤ Nat.pow 2 64)).exact n.toNat_lt
  read_write {n} _ := by
    rw [uint32?, (natBelow (by decide)).read_write n.toNat_lt, Option.map_some, UInt32.ofNat_toNat]
  fits _ := trivial

theorem ofList (h : Codes Fits room write read) :
    Codes (fun items => ∀ a ∈ items, Fits a) (room + 1) (ofList write) (list? read) where
  exact hfits := .array (by simpa using fun a ha => h.exact (hfits a ha))
  read_write {items} hfits := by
    induction items with
    | nil => rfl
    | cons a items ih =>
      have hrest : (items.map write).mapM read = some items := ih fun b hb => hfits b (by simp [hb])
      simp [Json.ofList, list?, h.read_write (hfits a (by simp)), hrest]
  fits {v items} hread := by
    cases v with
    | array vs =>
      rw [list?] at hread
      induction vs generalizing items with
      | nil => simp_all
      | cons v vs ih =>
        obtain ⟨a, ha, as, has, rfl⟩ : ∃ a, read v = some a ∧ ∃ as, vs.mapM read = some as ∧
            a :: as = items := by simpa [Option.bind_eq_some_iff] using hread
        simpa using ⟨h.fits ha, ih has⟩
    | _ => cases hread

theorem ofOption (h : Codes Fits room write read) (hnull : ∀ a, write a ≠ .null) :
    Codes (fun found => ∀ a ∈ found, Fits a) room (ofOption write) (orNull? read) where
  exact {found} hfits := by
    cases found with
    | none => exact .null
    | some a => exact h.exact (hfits a rfl)
  read_write {found} hfits := by
    cases found with
    | none => rfl
    | some a =>
      have := h.read_write (hfits a rfl)
      rw [Json.ofOption, orNull?]
      · simp [this]
      · exact hnull a
  fits {v found} hread := by
    rintro a rfl
    rw [orNull?.eq_def] at hread
    split at hread
    · cases hread
    · obtain ⟨b, hb, hsome⟩ := Option.map_eq_some_iff.1 hread
      exact (Option.some.inj hsome) ▸ h.fits hb

end Codes

/-! ### Structures -/

/-- An object whose names are known, and stand in the order in which they are known, holds all
    its fields. -/
theorem record?_object {names : List String} {fields : List (String × Json)}
    (hsub : (fields.map (·.1)).Sublist names) (hnodup : names.Nodup) :
    record? names (.object fields) = some ⟨fields, false⟩ := by
  have hknown : fields.filter (fun f => names.contains f.1) = fields := by
    refine List.filter_eq_self.2 fun f hf => ?_
    simpa using hsub.subset (List.mem_map_of_mem hf)
  rw [record?, hknown, if_pos (hnodup.sublist hsub)]

theorem objectRecord?_object {names : List String} {fields : List (String × Json)}
    (hsub : (fields.map (·.1)).Sublist names) (hnodup : names.Nodup) :
    objectRecord? names (.object fields) = some ⟨fields, false⟩ :=
  record?_object hsub hnodup

/-- A field with a name that is not known does not count. -/
theorem record?_object_cons {names : List String} {k : String} (hk : k ∉ names) (v : Json)
    (fields : List (String × Json)) :
    record? names (.object ((k, v) :: fields)) = record? names (.object fields) := by
  simp [record?, hk]

end LiterateSync.Json

namespace LiterateSync.Record

open Json

variable {α : Type} {read : Json → Option α} {name : String}

@[simp]
theorem required_cons_self (v : Json) (fields : List (String × Json)) (positional : Bool) :
    required ⟨(name, v) :: fields, positional⟩ name read = read v := by
  simp [required, get?]

@[simp]
theorem required_cons_of_ne {k : String} (hk : k ≠ name) (v : Json)
    (fields : List (String × Json)) (positional : Bool) :
    required ⟨(k, v) :: fields, positional⟩ name read =
      required ⟨fields, positional⟩ name read := by
  simp [required, get?, hk]

@[simp]
theorem orDefault_nil (positional : Bool) (usual : α) :
    orDefault ⟨[], positional⟩ name read usual = some usual :=
  rfl

@[simp]
theorem orDefault_cons_self (v : Json) (fields : List (String × Json)) (positional : Bool)
    (usual : α) : orDefault ⟨(name, v) :: fields, positional⟩ name read usual = read v := by
  simp [orDefault, get?]

@[simp]
theorem orDefault_cons_of_ne {k : String} (hk : k ≠ name) (v : Json)
    (fields : List (String × Json)) (positional : Bool) (usual : α) :
    orDefault ⟨(k, v) :: fields, positional⟩ name read usual =
      orDefault ⟨fields, positional⟩ name read usual := by
  simp [orDefault, get?, hk]

@[simp]
theorem optional_cons_self (v : Json) (fields : List (String × Json)) (positional : Bool) :
    optional ⟨(name, v) :: fields, positional⟩ name read = v.orNull? read := by
  simp [optional, get?]

@[simp]
theorem optional_cons_of_ne {k : String} (hk : k ≠ name) (v : Json)
    (fields : List (String × Json)) (positional : Bool) :
    optional ⟨(k, v) :: fields, positional⟩ name read =
      optional ⟨fields, positional⟩ name read := by
  simp [optional, get?, hk]

end LiterateSync.Record

namespace LiterateSync.Json.Codes

variable {α : Type} {Fits : α → Prop} {room : Nat} {write : α → Json} {read : Json → Option α}
  {r : Record} {name : String} {a : α}

theorem fits_of_required (h : Codes Fits room write read)
    (hread : r.required name read = some a) : Fits a := by
  obtain ⟨v, -, hv⟩ := Option.bind_eq_some_iff.1 hread
  exact h.fits hv

theorem fits_of_orDefault (h : Codes Fits room write read) {usual : α} (husual : Fits usual)
    (hread : r.orDefault name read usual = some a) : Fits a := by
  rw [Record.orDefault] at hread
  split at hread
  · exact Option.some.inj hread ▸ husual
  · exact h.fits hread

end LiterateSync.Json.Codes
