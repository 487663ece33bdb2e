namespace LiterateSync.Text

/-- The characters that stand between the bracket and the end of a colour sequence. -/
def isColourCode (c : Char) : Bool :=
  c.isDigit || c = ';'

/-- What follows the colour sequence that the text starts with, if it starts with one: an
    escape and a bracket, digits and semicolons, and an `m`. -/
def afterColour? : List Char → Option (List Char)
  | '\x1b' :: '[' :: s =>
    match s.dropWhile isColourCode with
    | 'm' :: rest => some rest
    | _ => none
  | _ => none

theorem suffix_of_afterColour? {c : Char} {s r : List Char} (h : afterColour? (c :: s) = some r) :
    r <:+ s := by
  unfold afterColour? at h
  split at h
  · rename_i t heq
    cases heq
    split at h
    · rename_i rest hdrop
      cases h
      have hsuffix := List.dropWhile_suffix (l := t) isColourCode
      rw [hdrop] at hsuffix
      exact ((List.suffix_cons 'm' r).trans hsuffix).trans (List.suffix_cons '[' t)
    · cases h
  · cases h

/-- The text without the sequences that switch colours in a terminal. -/
def uncoloured (s : List Char) : List Char :=
  match s with
  | [] => []
  | c :: s =>
    match _ : afterColour? (c :: s) with
    | some rest => uncoloured rest
    | none => c :: uncoloured s
termination_by s.length
decreasing_by
  · exact Nat.lt_succ_of_le (suffix_of_afterColour? (by assumption)).length_le
  · exact Nat.lt_succ_self _

end LiterateSync.Text
