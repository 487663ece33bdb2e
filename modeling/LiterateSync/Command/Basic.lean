import LiterateSync.Settings.Load

namespace LiterateSync

/-- Why a command fails. -/
inductive CommandError where
  | settings (error : SettingsError)
  | unreadable (path : String) (error : FileError)
  | segment (error : SegmentError)
  /-- The text of the file has a fault that was reported in full. -/
  | rejected (error : SegmentError)
  /-- The blocks of the file do not give its text back. -/
  | lossy (path : String) (offset : Nat)
  deriving DecidableEq, Repr

/-- An error in words. -/
def CommandError.message : CommandError → String
  | .settings e => e.message
  | .unreadable path e => s!"Cannot read {path}: {e.message}"
  | .segment e => e.message
  | .rejected e => e.userMessage
  | .lossy path offset => s!"{path} does not round-trip (first difference at byte {offset})"

/-- What a command leaves behind: whether it succeeded, and what it wrote to its two
    outputs. -/
structure Outcome where
  result : Except CommandError Unit
  output : String := ""
  errors : String := ""

/-- The outcome of a command that stops without having written anything. -/
def Outcome.failed (e : CommandError) : Outcome :=
  { result := .error e }

/-- A text with the profile of its language. -/
structure SourceFile where
  text : String
  profile : Profile
  deriving DecidableEq, Repr

/-- The file to which a path leads, in the language that its text or its name tells. The
    languages are the built-in ones and those of the settings. -/
def SourceFile.load [RegexLibrary] (fs : Files) (path : String) :
    Except CommandError SourceFile := do
  let settings ← (Settings.load fs).mapError .settings
  let registry ← settings.registry.mapError .settings
  let text ← (fs.read path).mapError (.unreadable path)
  let profile ← (registry.detect (some path) text).mapError .segment
  .ok ⟨text, profile⟩

end LiterateSync
