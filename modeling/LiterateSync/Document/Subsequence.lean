namespace LiterateSync.Subsequence

variable {α β : Type}

/-- One row of the table of `lengths`: for each end piece of `ys` the length of the longest
    run that it shares with `x` and the items after it, where `below` is the row of the
    items after `x`. -/
def row (same : α → β → Bool) (x : α) : List β → List Nat → List Nat
  | [], _ => [0]
  | y :: ys, below =>
    let right := row same x ys below.tail
    let length :=
      if same x y then below.tail.headD 0 + 1 else max (below.headD 0) (right.headD 0)
    length :: right

/-- For each end piece of `xs` and each end piece of `ys`, the length of the longest run of
    pairs that they share in order. -/
def lengths (same : α → β → Bool) : List α → List β → List (List Nat)
  | [], ys => [List.replicate (ys.length + 1) 0]
  | x :: xs, ys =>
    let below := lengths same xs ys
    row same x ys (below.headD []) :: below

/-- The pairs of a longest run that two lists share in order, where `table` holds the
    lengths for their end pieces. Items that are the same are paired at once; of two ways
    that are equally good, the one that leaves an item of `xs` behind is taken. -/
def walk (same : α → β → Bool) : List α → List β → List (List Nat) → List (α × β)
  | [], _, _ => []
  | _, [], _ => []
  | x :: xs, y :: ys, table =>
    let below := table.tail
    if same x y then (x, y) :: walk same xs ys (below.map List.tail)
    else if ((table.headD []).tail.headD 0) ≤ ((below.headD []).headD 0) then
      walk same xs (y :: ys) below
    else walk same (x :: xs) ys (table.map List.tail)
termination_by xs ys => xs.length + ys.length

/-- The pairs of a longest run that two lists share in order. -/
def common (same : α → β → Bool) (xs : List α) (ys : List β) : List (α × β) :=
  walk same xs ys (lengths same xs ys)

/-- Whether a number lies above the number at the end of a run. A run is kept with its end
    first, and above the empty run lies every number. -/
def endsBelow (run : List (Nat × Nat)) (x : Nat × Nat) : Bool :=
  match run with
  | [] => true
  | y :: _ => y.2 < x.2

/-- The runs with `x` at the end of one more: the run that is put in the place of the first
    one that `x` does not extend is the one before it, extended by `x`. -/
def deal (x : Nat × Nat) (previous : List (Nat × Nat)) :
    List (List (Nat × Nat)) → List (List (Nat × Nat))
  | [] => [x :: previous]
  | run :: runs =>
    if endsBelow run x then run :: deal x run runs else (x :: previous) :: runs

/-- For each length that a rising run can have, one of those that end lowest. -/
def risingRuns (pairs : List (Nat × Nat)) : List (List (Nat × Nat)) :=
  pairs.foldl (fun runs x => deal x [] runs) []

/-- The first numbers of a longest run of pairs whose second numbers rise. -/
def longestRising (pairs : List (Nat × Nat)) : List Nat :=
  (((risingRuns pairs).getLast?.getD []).map (·.1)).reverse

end LiterateSync.Subsequence
