import LiterateSync.Text.Pattern.CharClass

namespace LiterateSync.Text

/-- A part of a pattern. -/
inductive PatternPart where
  /-- One character of a class. -/
  | one (chars : CharClass)
  /-- A part taken several times in a row, at least `least` and at most `most` times: as
      often as possible if it is greedy, and otherwise as seldom as possible. -/
  | times (part : PatternPart) (least : Nat) (most : Option Nat) (greedy : Bool)
  deriving DecidableEq, Repr

/-- A pattern for identifiers: parts in a row. -/
abbrev Pattern := List PatternPart

/-- Whether a part can take nothing. -/
def PatternPart.nullable : PatternPart → Bool
  | .one _ => false
  | .times part least most _ => least = 0 || most = some 0 || part.nullable

/-- Whether a part clearly takes all that another takes: both repeat the same, and the bounds
    of the first allow what those of the second do. -/
def PatternPart.covers : PatternPart → PatternPart → Bool
  | .times part least most _, .times part' least' most' _ =>
    (least ≤ least' || part.nullable) &&
      (match most, most' with
      | none, _ => true
      | some _, none => false
      | some most, some most' => most' ≤ most) &&
      part = part'
  | part, part' => part = part'

/-- Whether a pattern clearly takes all that another takes: its parts cover those of the
    other one by one, or can take nothing. -/
def Pattern.covers : Pattern → Pattern → Bool
  | [], [] => true
  | [], _ :: _ => false
  | p :: ps, [] => p.nullable && Pattern.covers ps []
  | p :: ps, q :: qs =>
    if p.covers q then Pattern.covers ps qs else p.nullable && Pattern.covers ps (q :: qs)

/-- What a pattern may do at a place of a text. -/
inductive PatternWay where
  /-- It takes nothing more. -/
  | stop
  /-- It takes one character of a class, and then what `rest` takes. -/
  | take (chars : CharClass) (rest : Pattern)
  deriving DecidableEq, Repr

namespace PatternWay

/-- The pattern that is left when a character is taken in a given way. -/
def after? (c : Char) : PatternWay → Option Pattern
  | .stop => none
  | .take chars rest => if chars.contains c then some rest else none

/-- Whether a way clearly leads wherever another leads. -/
def covers : PatternWay → PatternWay → Bool
  | .stop, .stop => true
  | .take chars rest, .take chars' rest' => chars = chars' && Pattern.covers rest rest'
  | _, _ => false

/-- The ways without those that an earlier one covers: they are taken only where the
    earlier one comes to nothing, and so do they. -/
def prune (ways : List PatternWay) : List PatternWay :=
  ways.foldr (fun way rest => way :: rest.filter (!way.covers ·)) []

/-- The ways to go on with another round of a repetition, or to end it. -/
def choose (greedy : Bool) (round : List PatternWay) : List PatternWay :=
  if greedy then round ++ [.stop] else .stop :: round

/-- The ways to take one round and then what `next` takes. A round that takes nothing goes on
    with the ways `idle`. -/
def before (next : Pattern) (round : List PatternWay) (idle : Unit → List PatternWay) :
    List PatternWay :=
  round.flatMap fun
    | .take chars rest => [.take chars (rest ++ next)]
    | .stop => idle ()

end PatternWay

/-- A part `least` to `most` times in a row, or nothing if there is no time left. -/
def PatternPart.repeated (part : PatternPart) (least : Nat) (most : Option Nat) (greedy : Bool) :
    Pattern :=
  if most = some 0 then [] else [.times part least most greedy]

/-- The ways of `least` or more rounds of a part. When a round takes nothing as its last
    resort, so do the rounds after it. -/
def PatternPart.unbounded (part : PatternPart) (round : List PatternWay) (greedy : Bool) :
    Nat → List PatternWay
  | 0 => PatternWay.choose greedy
      (PatternWay.before (part.repeated 0 none greedy) round fun _ => [.stop])
  | 1 => PatternWay.before (part.repeated 0 none greedy) round fun _ => [.stop]
  | least + 2 =>
    PatternWay.before (part.repeated (least + 1) none greedy) round fun _ =>
      if round.getLast? = some .stop then [.stop] else unbounded part round greedy (least + 1)

/-- The ways of `least` to `most` rounds of a part. -/
def PatternPart.bounded (part : PatternPart) (round : List PatternWay) (greedy : Bool) :
    Nat → Nat → List PatternWay
  | _, 0 => [.stop]
  | 0, most + 1 =>
    PatternWay.choose greedy <|
      PatternWay.before (part.repeated 0 (some most) greedy) round fun _ =>
        if round.getLast? = some .stop then [.stop] else bounded part round greedy 0 most
  | least + 1, most + 1 =>
    PatternWay.before (part.repeated least (some most) greedy) round fun _ =>
      if round.getLast? = some .stop then [.stop] else bounded part round greedy least most

/-- The ways of a part, the preferred ones first. -/
def PatternPart.ways : PatternPart → List PatternWay
  | .one chars => [.take chars []]
  | .times part least none greedy => PatternWay.prune (part.unbounded part.ways greedy least)
  | .times part least (some most) greedy =>
    PatternWay.prune (part.bounded part.ways greedy least most)

/-- The ways of a pattern, the preferred ones first. -/
def Pattern.ways : Pattern → List PatternWay
  | [] => [.stop]
  | p :: ps => PatternWay.before ps p.ways fun _ => Pattern.ways ps

/-- The number of characters that are taken in the first of `ways` that ends where `suffix`
    follows. So far `taken` characters are taken, and `found` is the end of a way behind
    those that are still to be followed: it counts if they come to nothing. -/
def Pattern.search (suffix : List Char) (taken : Nat) (found : Option Nat)
    (ways : List PatternWay) (s : List Char) : Option Nat :=
  let ends := ways.contains .stop && (afterPrefix? suffix s).isSome
  let found := if ends then some taken else found
  match s with
  | [] => found
  | c :: s =>
    match (if ends then ways.takeWhile (· ≠ .stop) else ways).filterMap (·.after? c) with
    | [] => found
    | patterns =>
      search suffix (taken + 1) found (PatternWay.prune (patterns.flatMap Pattern.ways)) s

/-- The preferred way to take a start of the text that `suffix` follows, with what
    follows the suffix. -/
def Pattern.matchBefore? (p : Pattern) (suffix s : List Char) :
    Option (List Char × List Char) := do
  let length ← Pattern.search suffix 0 none (PatternWay.prune (Pattern.ways p)) s
  let r ← afterPrefix? suffix (s.drop length)
  some (s.take length, r)

theorem Pattern.append_of_matchBefore? {p : Pattern} {suffix s taken r : List Char}
    (h : p.matchBefore? suffix s = some (taken, r)) : taken ++ suffix ++ r = s := by
  obtain ⟨length, _, h⟩ := Option.bind_eq_some_iff.1 h
  obtain ⟨r', hr, heq⟩ := Option.bind_eq_some_iff.1 h
  cases heq
  rw [List.append_assoc, ← afterPrefix?_eq_some_iff.1 hr, List.take_append_drop]

end LiterateSync.Text
