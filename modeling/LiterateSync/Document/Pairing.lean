import LiterateSync.Document.Basic
import LiterateSync.Document.Subsequence

namespace LiterateSync

/-- For each block of a new list, the index of its partner in an old list. No two blocks
    have one partner. -/
abbrev Pairing := List (Option Nat)

namespace Pairing

/-- The indexes of the old blocks that have a partner. -/
def taken (p : Pairing) : List Nat :=
  p.filterMap id

/-- Items with their indexes. -/
def indexed (blocks : List Block) : List (Nat × Block) :=
  blocks.zipIdx.map fun (b, i) => (i, b)

/-- The old blocks without a partner, with their indexes. -/
def freeOld (p : Pairing) (old : List Block) : List (Nat × Block) :=
  (indexed old).filter fun (o, _) => !p.taken.contains o

/-- The new blocks without a partner, with their indexes. -/
def freeNew (p : Pairing) (new : List Block) : List (Nat × Block) :=
  (indexed new).filter fun (n, _) => (p[n]?.join).isNone

/-- Whether two blocks have one kind and one content. -/
def same (a b : Block) : Bool :=
  a.kind = b.kind && a.content = b.content

/-- Each new block with the old block of its name, if that one has its kind and is free. -/
def byName (old : List Block) (taken : List Nat) : List Block → Pairing
  | [] => []
  | b :: new =>
    let partner := (indexed old).reverse.find? fun (_, a) => a.id = b.id
    match partner.filter fun (o, a) => a.kind = b.kind && !taken.contains o with
    | some (o, _) => some o :: byName old (o :: taken) new
    | none => none :: byName old taken new

/-- The pairing with some more pairs of old and new indexes. -/
def add (pairs : List (Nat × Nat)) (p : Pairing) : Pairing :=
  p.zipIdx.map fun (partner, n) =>
    partner <|> ((pairs.find? fun (_, m) => m = n).map (·.1))

/-- The free blocks of both lists paired along a longest run of equal blocks in order. -/
def inOrder (old new : List Block) (p : Pairing) : Pairing :=
  let equal := fun (a b : Nat × Block) => same a.2 b.2
  let run := Subsequence.common equal (p.freeOld old) (p.freeNew new)
  p.add (run.map fun (a, b) => (a.1, b.1))

/-- Each new block that is still alone with the first of the free old ones that equals it. -/
def byContent (free : List (Nat × Block)) : List (Block × Option Nat) → Pairing
  | [] => []
  | (_, some o) :: new => some o :: byContent free new
  | (b, none) :: new =>
    match free.find? fun (_, a) => same a b with
    | some (o, _) => some o :: byContent (free.filter fun (i, _) => i ≠ o) new
    | none => none :: byContent free new

/-- The first old block of a kind from an index on, unless a block with a partner comes
    before it. -/
def gapPartner? (taken : List Nat) (kind : BlockKind) : List (Nat × Block) → Option Nat
  | [] => none
  | (o, a) :: old =>
    if taken.contains o then none
    else if a.kind = kind then some o
    else gapPartner? taken kind old

/-- Each new block that is still alone with an old block of its kind that stands in the same
    gap: behind the partner of the block before it, with only free blocks between. -/
def byGap (old : List Block) (taken : List Nat) (floor : Nat) :
    List (Block × Option Nat) → Pairing
  | [] => []
  | (_, some o) :: new => some o :: byGap old taken (o + 1) new
  | (b, none) :: new =>
    match gapPartner? taken b.kind ((indexed old).drop floor) with
    | some o => some o :: byGap old (o :: taken) (o + 1) new
    | none => none :: byGap old taken floor new

/-- The partners of new blocks among old ones: first by name, then by content in order,
    then by content anywhere, and last by place. -/
def ofBlocks (old new : List Block) : Pairing :=
  let p := byName old [] new
  let p := p.inOrder old new
  let p := byContent (p.freeOld old) (new.zip p)
  byGap old p.taken 0 (new.zip p)

end Pairing

end LiterateSync
