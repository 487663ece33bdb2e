import LiterateSync.Document.Pairing
import LiterateSync.Document.Patch

namespace LiterateSync

namespace Pairing

/-- The deletions of the old blocks without a partner. -/
def deletions (p : Pairing) (old : List Block) : List PatchOp :=
  (p.freeOld old).map fun (_, b) => .delete b.id

/-- The pairs of a pairing: each new index with the index of its partner. -/
def pairs (p : Pairing) : List (Nat × Nat) :=
  p.zipIdx.filterMap fun (partner, n) => partner.map (n, ·)

/-- The changes that put the partner of a new block behind `after` with the content of
    the new one. It is moved unless it is one of the blocks that stay where they are. -/
def keep (stays : Bool) (after : Option BlockId) (partner b : Block) : List PatchOp :=
  (if stays then [] else [.move partner.id after]) ++
    (if partner.content = b.content then [] else [.replace partner.id b.content])

/-- The changes that lay out the new blocks one behind the other, the first of them behind
    `after`. Those without a partner are inserted under fresh names. -/
def layOut (old : List Block) (staying : List Nat) (ids : IdSource) (after : Option BlockId) :
    List (Nat × Block × Option Nat) → List PatchOp
  | [] => []
  | (n, b, partner) :: new =>
    match partner.bind (old[·]?) with
    | some a =>
      keep (staying.contains n) after a b ++ layOut old staying ids (some a.id) new
    | none =>
      let (id, next) := ids.fresh
      .insert ⟨id, b.kind, b.content⟩ after :: layOut old staying next (some id) new

/-- New blocks with their indexes and the indexes of their partners. -/
def rows (new : List Block) (p : Pairing) : List (Nat × Block × Option Nat) :=
  (new.zip p).zipIdx.map fun ((b, partner), n) => (n, b, partner)

end Pairing

namespace Document

/-- The patch that turns the blocks of `old` into those of `new`. Blocks that have a partner
    keep its name; as few of them as can be are moved. -/
def diff (old new : Document) : Patch :=
  let p := Pairing.ofBlocks old.blocks new.blocks
  let staying := Subsequence.longestRising p.pairs
  ⟨old.revision,
    p.deletions old.blocks ++
      Pairing.layOut old.blocks staying old.ids none (Pairing.rows new.blocks p)⟩

end Document

end LiterateSync
