import LiterateSync.Text.Basic

namespace LiterateSync.FileName

/-- The stretches of a path between its slashes. -/
def pieces (path : String) : List String :=
  (Text.fields '/' path.toList).map String.ofList

/-- The names in a path. Empty stretches and single dots name nothing. -/
def components (path : String) : List String :=
  (pieces path).filter fun name => name ≠ "" && name ≠ "."

/-- Whether a path starts at the root of all files. -/
def isAbsolute (path : String) : Bool :=
  path.toList.head? = some '/'

/-- The name of the file that a path leads to, if the path ends in a name. -/
def base? (path : String) : Option String :=
  (components path).getLast?.filter (· ≠ "..")

/-- The names on the way to the directory of the file that a path leads to. -/
def directory (path : String) : List String :=
  if (base? path).isSome then (components path).dropLast else components path

/-- The part of the file's name behind its last dot, if there is a dot behind the first
    character. -/
def extension? (path : String) : Option String := do
  let name ← base? path
  match Text.splitLast? ['.'] name.toList with
  | some (_ :: _, ext) => some (String.ofList ext)
  | _ => none

/-- Names without the empty stretches and single dots at their end. -/
def dropIdle (names : List String) : List String :=
  (names.reverse.dropWhile fun name => name = "" || name = ".").reverse

/-- The path of another file in the directory of a file. A path that does not end in a
    name is taken for the directory. -/
def beside (path name : String) : String :=
  let directory :=
    if (base? path).isSome then
      match (dropIdle (pieces path)).dropLast with
      | [] => []
      | first :: rest => first :: dropIdle rest
    else if path = "" then []
    else if path.toList.getLast? = some '/' then (pieces path).dropLast
    else pieces path
  "/".intercalate (directory ++ [name])

/-- The path of the file that takes the place of another one, once it has its new text. -/
def spare (path : String) : String :=
  beside path ("." ++ (base? path).getD "" ++ ".codeweave-tmp")

end LiterateSync.FileName
