import LiterateSync.Text.Pattern.Basic

namespace LiterateSync.Text.PatternReader

/-- The class that a backslash and `c` stand for. Letters and digits other than
    those listed have no meaning, and neither have the angle brackets and the
    characters beyond ASCII. -/
def escape? (c : Char) : Option ClassItem :=
  match c with
  | 's' => some (.white true)
  | 'S' => some (.white false)
  | 'w' => some (.word true)
  | 'W' => some (.word false)
  | 'd' => some (.digit true)
  | 'D' => some (.digit false)
  | 'n' => some (.range '\n' '\n')
  | 't' => some (.range '\t' '\t')
  | 'r' => some (.range '\r' '\r')
  | 'f' => some (.range '\x0c' '\x0c')
  | 'v' => some (.range '\x0b' '\x0b')
  | 'a' => some (.range '\x07' '\x07')
  | _ =>
    if 0x7F < c.val || c.isAlphanum || c = '<' || c = '>' then none
    else some (.range c c)

/-- One item at the start of the text, with the text after it. -/
def item? : List Char → Option (ClassItem × List Char)
  | '\\' :: c :: s => (escape? c).map (·, s)
  | '\\' :: [] => none
  | c :: s => some (.range c c, s)
  | [] => none

/-- The range from a character to the one at the start of the text, with the text after it. -/
def rangeFrom? (low : ClassItem) (s : List Char) : Option (ClassItem × List Char) :=
  match low, item? s with
  | .range low _, some (.range high _, r) =>
    if low ≤ high then some (.range low high, r) else none
  | _, _ => none

/-- One member of a class at the start of the text, with the text after it. A hyphen before the
    closing bracket stands for itself, and another one makes a range. -/
def member? (s : List Char) : Option (ClassItem × List Char) :=
  match item? s with
  | some (low, '-' :: r) => if r.head? = some ']' then some (low, '-' :: r) else rangeFrom? low r
  | found => found

/-- Whether a nested class or a set operation begins at the start of the text. They have no
    meaning here. -/
def nests (s : List Char) : Bool :=
  ["[", "&&", "--", "~~"].any fun mark => (afterPrefix? mark.toList s).isSome

/-- The members of a class up to its closing bracket. -/
def items? : Nat → List ClassItem → List Char → Option (List ClassItem × List Char)
  | 0, _, _ => none
  | n + 1, found, s =>
    if s.head? = some ']' then some (found.reverse, s.tail)
    else if nests s then none
    else do
      let (member, r) ← member? s
      items? n (member :: found) r

/-- The members of a class. Hyphens at its start stand for themselves, and so does a closing
    bracket that comes first. -/
def members? (s : List Char) : Option (List ClassItem × List Char) :=
  let hyphens := (s.takeWhile (· = '-')).map fun c => ClassItem.range c c
  let r := s.dropWhile (· = '-')
  if hyphens = [] ∧ r.head? = some ']' then items? r.length [.range ']' ']'] r.tail
  else items? (r.length + 1) hyphens r

/-- A class after its opening bracket. -/
def class? : List Char → Option (CharClass × List Char)
  | '^' :: s => (members? s).map fun (items, r) => (⟨true, items⟩, r)
  | s => (members? s).map fun (items, r) => (⟨false, items⟩, r)

/-- One literal or class at the start of a pattern, with its depth: a class in brackets counts
    as one level, and its members as another if there are several. The characters of groups,
    alternatives and assertions are refused, and so is a repetition of nothing. -/
def atom? : List Char → Option (Nat × CharClass × List Char)
  | [] => none
  | '[' :: s => (class? s).map fun (k, r) => (if 1 < k.items.length then 2 else 1, k, r)
  | '.' :: s => some (0, ⟨true, [.range '\n' '\n']⟩, s)
  | c :: s =>
    if "*+?\x7b()|^$".toList.contains c then none
    else (item? (c :: s)).map fun (found, r) => (0, ⟨false, [found]⟩, r)

/-- A decimal number below 2^32 at the start of the text. White space may stand around it. -/
def number? (s : List Char) : Option (Nat × List Char) :=
  let s := s.dropWhile isWhite
  let digits := s.takeWhile Char.isDigit
  if digits = [] || Nat.pow 2 32 ≤ decimal digits then none
  else some (decimal digits, (s.dropWhile Char.isDigit).dropWhile isWhite)

/-- The greater bound of a repetition, if it has one, behind the comma, with the text after the
    closing brace. -/
def most? (least : Nat) : List Char → Option (Option Nat × List Char)
  | '}' :: r => some (none, r)
  | s =>
    match number? s with
    | some (most, '}' :: r) => if least ≤ most then some (some most, r) else none
    | _ => none

/-- The bounds of a repetition behind its opening brace, with the text after them. -/
def bounds? (s : List Char) : Option (Nat × Option Nat × List Char) :=
  match number? s with
  | some (least, '}' :: r) => some (least, some least, r)
  | some (least, ',' :: r) => (most? least r).map fun (most, r) => (least, most, r)
  | _ => none

/-- The bounds of the repetition mark at the start of the text, if there is one, with the text
    after it. -/
def mark? : List Char → Option (Option (Nat × Option Nat × List Char))
  | '*' :: r => some (some (0, none, r))
  | '+' :: r => some (some (1, none, r))
  | '?' :: r => some (some (0, some 1, r))
  | '{' :: r => (bounds? r).map some
  | _ => some none

/-- A part with the repetition marks that follow it, its depth, and the text after them. Each mark
    repeats all that is before it, and a question mark behind one makes it lazy. -/
def repeated? : Nat → Nat → PatternPart → List Char → Option (Nat × PatternPart × List Char)
  | 0, _, _, _ => none
  | n + 1, depth, part, s =>
    match mark? s with
    | none => none
    | some none => some (depth, part, s)
    | some (some (least, most, r)) =>
      if r.head? = some '?' then repeated? n (depth + 1) (.times part least most false) r.tail
      else repeated? n (depth + 1) (.times part least most true) r

/-- Whether a pattern ends at the start of the text. -/
def atEnd (s : List Char) : Bool :=
  s.head?.all (· = ')')

/-- The parts of a pattern with their depths, up to the end of the text or to a closing parenthesis,
    and the text from there on. Each part takes at least one of the `n` characters left. -/
def parts? : Nat → List Char → Option (List (Nat × PatternPart) × List Char)
  | 0, s => if atEnd s then some ([], s) else none
  | n + 1, s =>
    if atEnd s then some ([], s)
    else do
      let (depth, chars, s) ← atom? s
      let (depth, part, s) ← repeated? (s.length + 1) depth (.one chars) s
      let (rest, s) ← parts? n s
      some ((depth, part) :: rest, s)

end LiterateSync.Text.PatternReader

namespace LiterateSync.Text

/-- A part with the same ways in which no repetition repeats another one needlessly. -/
def PatternPart.simplify : PatternPart → PatternPart
  | .one chars => .one chars
  | .times part least most greedy =>
    match part.simplify, least, most with
    | part, 1, some 1 => part
    | .times inner least' none greedy', least, none =>
      if greedy' = greedy && least' ≤ 1 && least ≤ 1 then .times inner (least' * least) none greedy
      else .times (.times inner least' none greedy') least none greedy
    | part, least, most => .times part least most greedy

/-- The pattern that a text spells, if it is made of literals, classes and repetitions alone. -/
def Pattern.ofText? (text : String) : Option Pattern :=
  match PatternReader.parts? text.length text.toList with
  | some (parts, []) => some (parts.map (·.2.simplify))
  | _ => none

end LiterateSync.Text
