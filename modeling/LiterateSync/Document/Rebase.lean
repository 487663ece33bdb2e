import LiterateSync.Document.Patch

namespace LiterateSync

/-- Whose change stays when two patches change the content of one block. -/
inductive ConflictPolicy where
  | laterWins
  | earlierWins
  deriving DecidableEq, Repr

/-- What an earlier patch did to the content of a block. -/
inductive Touch where
  | replaced (content : String)
  | deleted
  deriving DecidableEq, Repr

/-- A later patch carried over an earlier one, with the names of the blocks whose
    content both of them change. -/
structure Rebased where
  patch : Patch
  conflicts : List BlockId
  deriving DecidableEq, Repr

namespace Rebase

/-- What stays the same while the changes of the later patch are carried over. -/
structure Setting where
  /-- The blocks that both patches were made from. -/
  before : List Block
  /-- The changes of the earlier patch. -/
  earlier : List PatchOp
  policy : ConflictPolicy

/-- How far the carrying has come. -/
structure State where
  /-- The blocks after the earlier patch and the changes carried so far. -/
  working : List Block
  ids : IdSource
  /-- The new names of inserted blocks whose own names were in use. -/
  renamed : List (BlockId × BlockId)
  ops : List PatchOp
  conflicts : List BlockId

/-- What one change does to the content of the block with a name. -/
def touchBy (id : BlockId) : PatchOp → Option Touch
  | .replace target content => if target = id then some (.replaced content) else none
  | .delete target => if target = id then some .deleted else none
  | _ => none

/-- The last thing that the earlier patch did to the content of a block. -/
def touch? (c : Setting) (id : BlockId) : Option Touch :=
  c.earlier.reverse.findSome? (touchBy id)

/-- Whether a block is there now. -/
def holds (s : State) (id : BlockId) : Bool :=
  Block.isIn id s.working

/-- The name that a block has now. -/
def resolve (s : State) (id : BlockId) : BlockId :=
  ((s.renamed.find? (·.1 = id)).map (·.2)).getD id

/-- The nearest block in front of a block, in the order from before, that is there now. -/
def predecessor? (c : Setting) (s : State) (id : BlockId) : Option BlockId :=
  match c.before.findIdx? (·.id = id) with
  | none => none
  | some n => ((c.before.take n).reverse.find? fun b => holds s b.id).map (·.id)

/-- The place that the later patch names: behind the same block, or behind the nearest
    one in front of it that is there now. -/
def anchor (c : Setting) (s : State) (after : Option BlockId) : Option BlockId :=
  match after with
  | none => none
  | some id =>
    let id := resolve s id
    if holds s id then some id else predecessor? c s id

/-- The insertion that brings back a block which the earlier patch deleted, with the
    content that the later one gives it. -/
def restore (c : Setting) (s : State) (id : BlockId) (content : String) :
    Except PatchError PatchOp :=
  match c.before.find? (·.id = id) with
  | none => .error (.unknownBlock id)
  | some deleted => .ok (.insert ⟨id, deleted.kind, content⟩ (predecessor? c s id))

/-- The state with a change made to its blocks. -/
def emit (s : State) (op : PatchOp) : Except PatchError State :=
  match op.apply s.working with
  | .error e => .error e
  | .ok working => .ok { s with working, ops := s.ops ++ [op] }

/-- The state with one more conflict. -/
def clash (s : State) (id : BlockId) : State :=
  { s with conflicts := s.conflicts ++ [id] }

/-- An insertion carried over. A name that is in use gives way to a fresh one. -/
def carryInsert (c : Setting) (s : State) (block : Block) (after : Option BlockId) :
    Except PatchError State :=
  if holds s block.id then
    let (fresh, ids) := s.ids.fresh
    let s := { s with ids, renamed := (block.id, fresh) :: s.renamed }
    emit s (.insert { block with id := fresh } (anchor c s after))
  else
    let s := { s with ids := s.ids.observe block.id }
    emit s (.insert block (anchor c s after))

/-- A deletion carried over. It is in conflict with a replacement of the content, and
    needless after a deletion. -/
def carryDelete (c : Setting) (s : State) (id : BlockId) : Except PatchError State :=
  match holds s id, touch? c id with
  | true, some (.replaced _) =>
    let s := clash s id
    match c.policy with
    | .laterWins => emit s (.delete id)
    | .earlierWins => .ok s
  | true, _ => emit s (.delete id)
  | false, some .deleted => .ok s
  | false, _ => .error (.unknownBlock id)

/-- A replacement carried over. It is in conflict with a replacement by another content,
    and with a deletion, which it undoes if it wins. -/
def carryReplace (c : Setting) (s : State) (id : BlockId) (content : String) :
    Except PatchError State :=
  match holds s id, touch? c id with
  | true, some (.replaced theirs) =>
    if theirs = content then emit s (.replace id content)
    else
      let s := clash s id
      match c.policy with
      | .laterWins => emit s (.replace id content)
      | .earlierWins => .ok s
  | true, _ => emit s (.replace id content)
  | false, some .deleted =>
    let s := clash s id
    match c.policy with
    | .laterWins =>
      match restore c s id content with
      | .error e => .error e
      | .ok op => emit s op
    | .earlierWins => .ok s
  | false, _ => .error (.unknownBlock id)

/-- A move carried over. It is needless after a deletion. -/
def carryMove (c : Setting) (s : State) (id : BlockId) (after : Option BlockId) :
    Except PatchError State :=
  match holds s id, touch? c id with
  | true, _ => emit s (.move id ((anchor c s after).filter (· ≠ id)))
  | false, some .deleted => .ok s
  | false, _ => .error (.unknownBlock id)

/-- One change carried over. -/
def carry (c : Setting) (s : State) : PatchOp → Except PatchError State
  | .insert block after => carryInsert c s block after
  | .delete id => carryDelete c s (resolve s id)
  | .replace id content => carryReplace c s (resolve s id) content
  | .move id after => carryMove c s (resolve s id) after

/-- Changes carried over in order. -/
def carryAll (c : Setting) : State → List PatchOp → Except PatchError State
  | s, [] => .ok s
  | s, op :: ops =>
    match carry c s op with
    | .error e => .error e
    | .ok s => carryAll c s ops

end Rebase

/-- The patch `later` made over for the document `current`, when both it and `earlier` were
    made from `before`, and `earlier` led from `before` to `current`. -/
def Patch.rebase (later earlier : Patch) (before current : Document) (policy : ConflictPolicy) :
    Except PatchError Rebased :=
  if later.base ≠ before.revision then
    .error (.revisionMismatch before.revision later.base)
  else if earlier.base ≠ before.revision then
    .error (.revisionMismatch before.revision earlier.base)
  else if current.revision ≠ before.revision + 1 then
    .error (.revisionMismatch current.revision (before.revision + 1))
  else
    let start : Rebase.State := ⟨current.blocks, current.ids, [], [], []⟩
    match Rebase.carryAll ⟨before.blocks, earlier.ops, policy⟩ start later.ops with
    | .error e => .error e
    | .ok s => .ok ⟨⟨current.revision, s.ops⟩, s.conflicts⟩

end LiterateSync
