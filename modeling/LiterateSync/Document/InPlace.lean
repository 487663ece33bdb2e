import LiterateSync.Document.Patch

namespace LiterateSync

namespace Block

/-- Work on a list of blocks in place. What it has changed stays so if it fails later on. -/
abbrev Editing := ExceptT PatchError (StateM (List Block))

/-- The index that a place stands for. -/
def placeIndex (blocks : List Block) : Option BlockId → Except PatchError Nat
  | none => .ok 0
  | some anchor =>
    match blocks.findIdx? (·.id = anchor) with
    | some i => .ok (i + 1)
    | none => .error (.unknownBlock anchor)

/-- Puts a block at an index. -/
def putAt (i : Nat) (b : Block) : Editing Unit :=
  modify (·.insertIdx i b)

end Block

namespace PatchOp

/-- One change made in place. A block that is moved leaves the list before its new place is looked
    up, and goes back to where it was if there is no such place. -/
def applyInPlace : PatchOp → Block.Editing Unit
  | .insert block after => do
    let blocks ← get
    if (blocks.findIdx? (·.id = block.id)).isSome then throw (.duplicateBlock block.id)
    match Block.placeIndex blocks after with
    | .error e => throw e
    | .ok i => Block.putAt i block
  | .delete id => do
    match (← get).findIdx? (·.id = id) with
    | none => throw (.unknownBlock id)
    | some i => modify (·.eraseIdx i)
  | .replace id content => do
    match (← get).findIdx? (·.id = id) with
    | none => throw (.unknownBlock id)
    | some i => modify (·.modify i fun b => { b with content })
  | .move id after => do
    let blocks ← get
    match blocks.findIdx? (·.id = id), blocks.find? (·.id = id) with
    | some source, some block =>
      set (blocks.eraseIdx source)
      match Block.placeIndex (← get) after with
      | .ok i => Block.putAt i block
      | .error e =>
        Block.putAt source block
        throw e
    | _, _ => throw (.unknownBlock id)

end PatchOp

end LiterateSync
