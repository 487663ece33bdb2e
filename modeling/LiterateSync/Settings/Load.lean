import LiterateSync.Files.Basic
import LiterateSync.Language.Registry
import LiterateSync.Wire.Settings

namespace LiterateSync

/-- Why settings cannot be used. -/
inductive SettingsError where
  | unreadable (path : String) (error : FileError)
  | malformed (path : String)
  /-- A language of the settings has a fault. -/
  | language (error : SegmentError)
  deriving DecidableEq, Repr

/-- An error in words. -/
def SettingsError.message : SettingsError → String
  | .unreadable path e => s!"Failed to read {path}: {e.message}"
  | .malformed path => s!"Invalid config {path}"
  | .language e => s!"Invalid language profile: {e.message}"

namespace Settings

/-- The path of the settings file. -/
def path : String := "./codeweave.config.json"

/-- The settings in a directory, which are the usual ones if it has no settings file. -/
def load (fs : Files) : Except SettingsError Settings :=
  if fs.has path then
    match fs.read path with
    | .error e => .error (.unreadable path e)
    | .ok text =>
      match parse? text with
      | none => .error (.malformed path)
      | some s => .ok s
  else .ok {}

/-- The built-in languages and those of the settings, if these have no faults. -/
def registry [RegexLibrary] (s : Settings) : Except SettingsError Registry :=
  s.languages.foldlM
    (fun r p =>
      match p.fault? with
      | some fault => .error (.language (.ofFault p fault))
      | none => .ok (r.register p))
    Registry.builtin

end Settings

end LiterateSync
