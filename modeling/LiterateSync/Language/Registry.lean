import LiterateSync.Language.Builtin
import LiterateSync.Files.Name
import LiterateSync.Segment.Basic
import LiterateSync.Text.WordTable

namespace LiterateSync

/-- The languages that are known, in the order in which their names were first
    registered. -/
structure Registry where
  profiles : List Profile
  deriving DecidableEq, Repr

namespace Registry

/-- A registry without languages. -/
def empty : Registry := ⟨[]⟩

/-- The registry of the languages that are always known. -/
def builtin : Registry := ⟨Profile.builtin⟩

/-- The profiles with `p` in the place of the first one with its name, or at the end. -/
def put (p : Profile) : List Profile → List Profile
  | [] => [p]
  | q :: qs => if q.id = p.id then p :: qs else q :: put p qs

/-- The profile with a name, if there is one. -/
def find? (r : Registry) (id : String) : Option Profile :=
  r.profiles.find? (·.id = id)

/-- The registry with a profile added. It takes the place of a profile with its name. -/
def register (r : Registry) (p : Profile) : Registry :=
  ⟨put p r.profiles⟩

/-- The profile with a name. -/
def get (r : Registry) (id : String) : Except SegmentError Profile :=
  match r.find? id with
  | some p => .ok p
  | none => .error (.unsupported id)

/-- The last profile of the registry that claims an extension. -/
def forExtension (r : Registry) (ext : String) : Except SegmentError Profile :=
  match r.profiles.reverse.find? (·.claims ext) with
  | some p => .ok p
  | none => .error (.unsupported ("." ++ Profile.bareExtension ext))

/-- The words that name the language of a file inside it. -/
def directiveMark : List Char :=
  "codeweave lexer: ".toList

/-- The language that a text names by a directive: the word behind the first mark that
    a word follows. -/
def directive? : List Char → Option String
  | [] => none
  | c :: s =>
    match Text.afterPrefix? directiveMark (c :: s) with
    | some (w :: rest) =>
      if Text.isWordChar w then some (String.ofList ((w :: rest).takeWhile Text.isWordChar))
      else directive? s
    | _ => directive? s

/-- The profile for a file. A directive in its text decides; without one the extension
    of its path does. -/
def detect (r : Registry) (path? : Option String) (text : String) :
    Except SegmentError Profile :=
  match directive? text.toList with
  | some id => r.get id
  | none =>
    match path?.bind FileName.extension? with
    | some ext => r.forExtension ext
    | none => .error (.unsupported (path?.getD "<unnamed>"))

/-- The names of the languages. -/
def ids (r : Registry) : List String :=
  r.profiles.map (·.id)

end Registry

end LiterateSync
