namespace LiterateSync.Text

/-- A space or a tab, the two characters that indent a line. -/
def isBlank (c : Char) : Bool :=
  c = ' ' || c = '\t'

/-- The characters of Unicode's `White_Space` property. -/
def isWhite (c : Char) : Bool :=
  ('\t' ≤ c && c ≤ '\r') || c = ' ' || c.val = 0x85 || c.val = 0xA0 || c.val = 0x1680 ||
    (0x2000 ≤ c.val && c.val ≤ 0x200A) || c.val = 0x2028 || c.val = 0x2029 ||
    c.val = 0x202F || c.val = 0x205F || c.val = 0x3000

/-- The sum of some numbers. -/
def total (numbers : List Nat) : Nat :=
  numbers.foldr (· + ·) 0

/-- The number of bytes that the characters take in UTF-8. -/
def byteLength (s : List Char) : Nat :=
  total (s.map Char.utf8Size)

/-- What follows `p` in a text that starts with `p`. -/
def afterPrefix? : List Char → List Char → Option (List Char)
  | [], s => some s
  | _ :: _, [] => none
  | c :: p, d :: s => if c = d then afterPrefix? p s else none

/-- What precedes `p` in a text that ends with `p`. -/
def beforeSuffix? (p s : List Char) : Option (List Char) :=
  (afterPrefix? p.reverse s.reverse).map List.reverse

/-- The text without the prefix `p`, or the whole text if it does not start with `p`. -/
def dropPrefix (p s : List Char) : List Char :=
  (afterPrefix? p s).getD s

/-- The parts before and after the first occurrence of `needle`. -/
def splitFirst? (needle : List Char) : List Char → Option (List Char × List Char)
  | [] => (afterPrefix? needle []).map ([], ·)
  | c :: s =>
    match afterPrefix? needle (c :: s) with
    | some r => some ([], r)
    | none => (splitFirst? needle s).map fun (b, r) => (c :: b, r)

/-- The parts before and after the last occurrence of `needle`. -/
def splitLast? (needle : List Char) : List Char → Option (List Char × List Char)
  | [] => (afterPrefix? needle []).map ([], ·)
  | c :: s =>
    match splitLast? needle s with
    | some (b, r) => some (c :: b, r)
    | none => (afterPrefix? needle (c :: s)).map ([], ·)

/-- The lines of a text, each with the line feed that ends it. Joined they give
    the text, and no line is empty. -/
def lines : List Char → List (List Char)
  | [] => []
  | c :: s =>
    if c = '\n' then ['\n'] :: lines s
    else
      match lines s with
      | [] => [[c]]
      | l :: ls => (c :: l) :: ls

/-- The stretches between the occurrences of `d`, one more than there are occurrences. -/
def fields (d : Char) : List Char → List (List Char)
  | [] => [[]]
  | c :: s =>
    if c = d then [] :: fields d s
    else
      match fields d s with
      | [] => [[c]]
      | f :: fs => (c :: f) :: fs

/-- The first line of a text, with the line feed that ends it, and the text after it. -/
def cutLine (s : List Char) : List Char × List Char :=
  let tail := s.dropWhile (· != '\n')
  (s.takeWhile (· != '\n') ++ tail.take 1, tail.drop 1)

/-- The text without the characters at its end that satisfy `p`. -/
def trimEnd (p : Char → Bool) (s : List Char) : List Char :=
  (s.reverse.dropWhile p).reverse

/-- The number that decimal digits spell. -/
def decimal (digits : List Char) : Nat :=
  digits.foldl (fun n d => n * 10 + (d.toNat - '0'.toNat)) 0

/-- The items in descending order of `size`; items of one size keep their order. -/
def longestFirst {α : Type} (size : α → Nat) : List α → List α
  | [] => []
  | x :: xs => insert x (longestFirst size xs)
where
  /-- Puts `x` before the first item that is not longer. -/
  insert (x : α) : List α → List α
    | [] => [x]
    | y :: ys => if size y ≤ size x then x :: y :: ys else y :: insert x ys

theorem afterPrefix?_eq_some_iff {p s r : List Char} :
    afterPrefix? p s = some r ↔ s = p ++ r := by
  induction p generalizing s with
  | nil => simp [afterPrefix?, eq_comm]
  | cons c p ih =>
    cases s with
    | nil => simp [afterPrefix?]
    | cons d s =>
      by_cases hcd : c = d
      · simp [afterPrefix?, hcd, ih]
      · simp [afterPrefix?, hcd, Ne.symm hcd]

theorem append_of_splitFirst? {needle s b r : List Char} (h : splitFirst? needle s = some (b, r)) :
    s = b ++ needle ++ r := by
  induction s generalizing b with
  | nil =>
    simp only [splitFirst?, Option.map_eq_some_iff] at h
    obtain ⟨r', hr, heq⟩ := h
    cases heq
    simpa using afterPrefix?_eq_some_iff.1 hr
  | cons c s ih =>
    rw [splitFirst?] at h
    split at h
    · rename_i hr
      cases h
      simpa using afterPrefix?_eq_some_iff.1 hr
    · obtain ⟨⟨b', r'⟩, hsplit, heq⟩ := Option.map_eq_some_iff.1 h
      cases heq
      simp [ih hsplit]

theorem suffix_of_afterPrefix? {p s r : List Char} (h : afterPrefix? p s = some r) : r <:+ s :=
  ⟨p, (afterPrefix?_eq_some_iff.1 h).symm⟩

theorem flatten_lines (s : List Char) : (lines s).flatten = s := by
  induction s with
  | nil => rfl
  | cons c s ih =>
    rw [lines]
    split
    · simp_all
    · split <;> simp_all

theorem append_cutLine (s : List Char) : (cutLine s).1 ++ (cutLine s).2 = s := by
  rw [cutLine, List.append_assoc, List.take_append_drop, List.takeWhile_append_dropWhile]

theorem cutLine_length_le (s : List Char) : (cutLine s).2.length ≤ s.length - 1 := by
  rw [cutLine, List.length_drop]
  have := (List.dropWhile_suffix (l := s) (· != '\n')).length_le
  omega

end LiterateSync.Text
