import LiterateSync.Wire.Document
import LiterateSync.Proofs.Wire.Language

namespace LiterateSync

open Json

theorem BlockId.codes : Codes (fun _ => True) 0 toJson ofJson? where
  exact _ := .string _
  read_write _ := rfl
  fits _ := trivial

theorem Block.codes (kept : Bool) : Codes (fun _ => True) 1 toJson (ofJson? kept) where
  exact _ := .object (by simp [BlockId.toJson, BlockKind.toJson])
  read_write {b} _ := by
    have hid := BlockId.codes.read_write (a := b.id) trivial
    have hkind := (BlockKind.codes kept).read_write (a := b.kind) trivial
    rw [ofJson?, toJson, record?_object (by simp) (by decide)]
    simp [hid, hkind]
  fits _ := trivial

theorem ViewBlock.codes : Codes (fun _ => True) 1 toJson ofJson? where
  exact _ := .object (by simp [BlockKind.toJson])
  read_write {b} _ := by
    have hkind := (BlockKind.codes false).read_write (a := b.kind) trivial
    rw [ofJson?, toJson, record?_object (by simp) (by decide)]
    simp [hkind]
  fits _ := trivial

namespace PatchOp

/-- The block that another one comes after, or none at the top. -/
theorem codes_after : Codes (fun after => ∀ id ∈ after, True) 0 (ofOption BlockId.toJson)
    (orNull? BlockId.ofJson?) :=
  BlockId.codes.ofOption (by simp [BlockId.toJson])

/-- The other fields of a change are read back once its kind is known. The field for the kind is
    not one of theirs. -/
theorem ofFields?_toJson (op : PatchOp) : ofFields? op.kind op.toJson = some op := by
  have hblock (b : Block) := (Block.codes true).read_write (a := b) trivial
  have hid (id : BlockId) := BlockId.codes.read_write (a := id) trivial
  have hafter (after : Option BlockId) := codes_after.read_write (a := after) fun _ _ => trivial
  cases op <;> rw [toJson, kind, ofFields?, record?_object_cons (by decide),
    record?_object (by simp) (by decide)]
  case insert => simp [hblock, hafter]
  case delete => simp [hid]
  case replace => simp [hid]
  case move => simp [hid, hafter]

theorem ofJson?_kindName (kept : Bool) (k : Kind) :
    Kind.ofJson? kept (.string k.name) = some k := by
  cases k <;> rfl

/-- A change names its kind once, in its first field. -/
theorem exists_toJson_eq (op : PatchOp) : ∃ rest,
    op.toJson = .object (("op", .string op.kind.name) :: rest) ∧
      rest.filter (·.1 = "op") = [] := by
  cases op <;> exact ⟨_, rfl, by simp⟩

theorem isExact_toJson (op : PatchOp) : IsExact 2 op.toJson := by
  have hblock (b : Block) := (Block.codes true).exact (a := b) trivial
  have hafter (after : Option BlockId) : IsExact 1 (ofOption BlockId.toJson after) :=
    (codes_after.exact fun _ _ => trivial).mono (by decide)
  cases op <;> refine .object ?_
  case insert => simp [hblock, hafter]
  case delete => simp [BlockId.toJson]
  case replace => simp [BlockId.toJson]
  case move => simp [BlockId.toJson, hafter]

theorem codes (kept : Bool) {room : Nat} (hroom : 2 ≤ room) :
    Codes (fun _ => True) 2 toJson (ofJson? kept room) where
  exact {op} _ := op.isExact_toJson
  read_write {op} _ := by
    have hplain : op.toJson.isPlain room := (op.isExact_toJson.mono hroom).isPlain
    have hfields := op.ofFields?_toJson
    obtain ⟨rest, heq, hrest⟩ := op.exists_toJson_eq
    rw [heq] at hplain hfields
    rw [heq, ofJson?, if_pos hplain]
    simp [hrest, ofJson?_kindName, hfields]
  fits _ := trivial

end PatchOp

/-- A patch whose revision is a number of 64 bits. -/
def Patch.Fits (p : Patch) : Prop :=
  p.base < Nat.pow 2 64

theorem Patch.codes (kept : Bool) : Codes Fits 4 toJson (ofJson? kept) where
  exact {p} hfits := by
    have hops := (PatchOp.codes kept (show 2 ≤ Patch.maxDepth - 2 by decide)).ofList.exact
      (a := p.ops) fun _ _ => trivial
    exact .object (by simpa using ⟨.nat hfits, hops⟩)
  read_write {p} hfits := by
    have hops := (PatchOp.codes kept (show 2 ≤ Patch.maxDepth - 2 by decide)).ofList.read_write
      (a := p.ops) fun _ _ => trivial
    rw [ofJson?, toJson, record?_object (by simp) (by decide)]
    simp [Codes.nat64.read_write hfits, hops]
  fits {v p} hread := by
    simp only [ofJson?, Option.bind_eq_bind, Option.bind_eq_some_iff, Option.some.injEq] at hread
    obtain ⟨fields, -, base, hbase, ops, -, rfl⟩ := hread
    exact Codes.nat64.fits_of_required hbase

end LiterateSync
