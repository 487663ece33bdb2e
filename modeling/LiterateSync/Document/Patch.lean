import LiterateSync.Document.Basic

namespace LiterateSync

/-- One change to the blocks of a document. A place is given by the block before it,
    and the first place by no block. -/
inductive PatchOp where
  | insert (block : Block) (after : Option BlockId)
  | delete (id : BlockId)
  /-- The block gets a new content, and keeps its name and kind. -/
  | replace (id : BlockId) (content : String)
  | move (id : BlockId) (after : Option BlockId)
  deriving DecidableEq, Repr

/-- Changes to the revision of a document from which they were made. -/
structure Patch where
  base : Nat
  ops : List PatchOp
  deriving DecidableEq, Repr

/-- Why a patch cannot be applied. -/
inductive PatchError where
  | revisionMismatch (current base : Nat)
  | unknownBlock (id : BlockId)
  | duplicateBlock (id : BlockId)
  deriving DecidableEq, Repr

/-- An error in words. -/
def PatchError.message : PatchError → String
  | .revisionMismatch current base =>
    s!"Revision mismatch: document is at {current}, patch is based on {base}"
  | .unknownBlock id => s!"Unknown block id: {id.text}"
  | .duplicateBlock id => s!"Block id already in use: {id.text}"

/-- A patch without changes. -/
def Patch.noop (base : Nat) : Patch := ⟨base, []⟩

namespace Block

/-- Whether one of the blocks has a name. -/
def isIn (id : BlockId) (blocks : List Block) : Bool :=
  blocks.any (·.id = id)

/-- The blocks with `b` at a place, if the block before that place is among them. -/
def place (b : Block) : Option BlockId → List Block → Option (List Block)
  | none, blocks => some (b :: blocks)
  | some _, [] => none
  | some anchor, c :: blocks =>
    if c.id = anchor then some (c :: b :: blocks)
    else (place b (some anchor) blocks).map (c :: ·)

/-- The first block with a name, and the blocks without it. -/
def takeOut (id : BlockId) : List Block → Option (Block × List Block)
  | [] => none
  | c :: blocks =>
    if c.id = id then some (c, blocks)
    else (takeOut id blocks).map fun (b, rest) => (b, c :: rest)

/-- The blocks with another content for the first one with a name. -/
def setContent (id : BlockId) (content : String) : List Block → Option (List Block)
  | [] => none
  | c :: blocks =>
    if c.id = id then some ({ c with content } :: blocks)
    else (setContent id content blocks).map (c :: ·)

end Block

namespace PatchOp

/-- The name of the block that a change is about. -/
def target : PatchOp → BlockId
  | .insert block _ => block.id
  | .delete id => id
  | .replace id _ => id
  | .move id _ => id

/-- What is missing when a place cannot be found. -/
def anchorError (after : Option BlockId) (target : BlockId) : PatchError :=
  .unknownBlock (after.getD target)

/-- The blocks after one change. An insertion needs a new name, and each other change
    a block with its name. A block that is moved cannot be its own anchor. -/
def apply (op : PatchOp) (blocks : List Block) : Except PatchError (List Block) :=
  match op with
  | .insert block after =>
    if Block.isIn block.id blocks then .error (.duplicateBlock block.id)
    else
      match block.place after blocks with
      | some result => .ok result
      | none => .error (anchorError after block.id)
  | .delete id =>
    match Block.takeOut id blocks with
    | some (_, rest) => .ok rest
    | none => .error (.unknownBlock id)
  | .replace id content =>
    match Block.setContent id content blocks with
    | some result => .ok result
    | none => .error (.unknownBlock id)
  | .move id after =>
    match Block.takeOut id blocks with
    | none => .error (.unknownBlock id)
    | some (block, rest) =>
      match block.place after rest with
      | some result => .ok result
      | none => .error (anchorError after id)

/-- The source of names after a change: the name of an inserted block will not be given
    to another one. -/
def observe (op : PatchOp) (ids : IdSource) : IdSource :=
  match op with
  | .insert block _ => ids.observe block.id
  | _ => ids

end PatchOp

namespace Document

/-- The blocks and the source of names after some changes, each made to what the ones
    before it have left. -/
def applyOps : List PatchOp → List Block → IdSource → Except PatchError (List Block × IdSource)
  | [], blocks, ids => .ok (blocks, ids)
  | op :: ops, blocks, ids =>
    match op.apply blocks with
    | .error e => .error e
    | .ok next => applyOps ops next (op.observe ids)

/-- The next revision of a document under a patch made from this one, or the error of
    the first change that cannot be made. -/
def apply (d : Document) (patch : Patch) : Except PatchError Document :=
  if patch.base ≠ d.revision then .error (.revisionMismatch d.revision patch.base)
  else
    match applyOps patch.ops d.blocks d.ids with
    | .error e => .error e
    | .ok (blocks, ids) => .ok { d with blocks, revision := d.revision + 1, ids }

end Document

end LiterateSync
