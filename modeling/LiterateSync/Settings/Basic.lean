import LiterateSync.Language.Profile
import LiterateSync.Session.Config

namespace LiterateSync

/-- How a file is watched. -/
structure WatchConfig where
  /-- How long a file has to be left alone before it is read again, in milliseconds. -/
  debounceMs : Nat := 100
  deriving DecidableEq, Repr

/-- What the settings file of a directory can set. -/
structure Settings where
  sync : SyncConfig := {}
  watch : WatchConfig := {}
  /-- Languages beside the built-in ones, and in the place of those with the same name. -/
  languages : List Profile := []
  deriving DecidableEq, Repr

end LiterateSync
