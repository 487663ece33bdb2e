import LiterateSync.Settings.Basic
import LiterateSync.Wire.Session

namespace LiterateSync

namespace WatchConfig

/-- A watch configuration as data. -/
def toJson (c : WatchConfig) : Json :=
  .object [("debounceMs", .nat c.debounceMs)]

/-- The watch configuration that data holds. -/
def ofJson? (v : Json) : Option WatchConfig := do
  let usual : WatchConfig := {}
  let r ← v.record? ["debounceMs"]
  let debounceMs ← r.orDefault "debounceMs" Json.nat64? usual.debounceMs
  some { debounceMs }

end WatchConfig

namespace Settings

/-- Settings as data. -/
def toJson (s : Settings) : Json :=
  .object
    [("sync", s.sync.toJson), ("watch", s.watch.toJson),
     ("languages", .ofList Profile.toJson s.languages)]

/-- The settings that data holds. -/
def ofJson? (v : Json) : Option Settings := do
  let usual : Settings := {}
  let r ← v.record? ["sync", "watch", "languages"]
  let sync ← r.orDefault "sync" SyncConfig.ofJson? usual.sync
  let watch ← r.orDefault "watch" WatchConfig.ofJson? usual.watch
  let languages ← r.orDefault "languages" (Json.list? Profile.ofJson?) usual.languages
  some { sync, watch, languages }

/-- The settings that a text holds. -/
def parse? (text : String) : Option Settings :=
  (Json.parse? text).bind ofJson?

end Settings

end LiterateSync
