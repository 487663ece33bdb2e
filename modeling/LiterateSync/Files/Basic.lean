import LiterateSync.Files.Name

namespace LiterateSync

/-- What a name in a directory stands for. -/
inductive FileNode where
  | text (content : String)
  /-- A file whose bytes do not spell a text in UTF-8. -/
  | bytes (content : List UInt8)
  | directory
  deriving DecidableEq, Repr

/-- Why a file cannot be read or written. -/
inductive FileError where
  | notFound
  | notDirectory
  | isDirectory
  | nameTooLong
  /-- The path has a null character in it. -/
  | nullInPath
  /-- The file does not hold a text in UTF-8. -/
  | notText
  deriving DecidableEq, Repr

/-- An error in words. -/
def FileError.message : FileError → String
  | .notFound => "No such file or directory (os error 2)"
  | .notDirectory => "Not a directory (os error 20)"
  | .isDirectory => "Is a directory (os error 21)"
  | .nameTooLong => "File name too long (os error 36)"
  | .nullInPath => "file name contained an unexpected NUL byte"
  | .notText => "stream did not contain valid UTF-8"

/-- The names that lead to a file from the root of all files. -/
abbrev Place := List String

/-- The files that are there. -/
structure Files where
  /-- The directory in which relative paths start. -/
  home : Place := []
  entries : List (Place × FileNode) := []
  /-- The places that were written or emptied, in order. -/
  journal : List Place := []
  deriving DecidableEq, Repr

namespace Files

/-- What is at a place. The directories on the way to the home directory are always there. -/
def node? (fs : Files) (place : Place) : Option FileNode :=
  if place.isPrefixOf fs.home then some .directory
  else (fs.entries.find? (·.1 = place)).map (·.2)

/-- The files with something put at a place. -/
def put (fs : Files) (place : Place) (node : FileNode) : Files :=
  { fs with
    entries := (place, node) :: fs.entries.filter (·.1 ≠ place)
    journal := fs.journal ++ [place] }

/-- The files without what is at a place and below it. -/
def delete (fs : Files) (place : Place) : Files :=
  { fs with
    entries := fs.entries.filter fun entry => !place.isPrefixOf entry.1
    journal := fs.journal ++ [place] }

/-- The files with a directory at every place on the way to `place` where nothing is. -/
def withDirectories (fs : Files) (place : Place) : Files :=
  (List.range place.length).foldl
    (fun fs depth =>
      let above := place.take depth
      if (fs.node? above).isNone then fs.put above .directory else fs)
    fs

/-- The longest name that a file can have, in bytes. -/
def maxNameBytes : Nat := 255

/-- The longest path that leads to a file, in bytes. -/
def maxPathBytes : Nat := 4095

/-- The place under a name in the directory at a place. -/
def enter (fs : Files) (here : Place) (name : String) : Except FileError Place :=
  match fs.node? here with
  | none => .error .notFound
  | some .directory =>
    if name = "" || name = "." then .ok here
    else if name = ".." then .ok here.dropLast
    else if maxNameBytes < name.utf8ByteSize then .error .nameTooLong
    else .ok (here ++ [name])
  | some _ => .error .notDirectory

/-- The place to which names lead, one below the other. -/
def walk (fs : Files) (here : Place) (names : List String) : Except FileError Place :=
  names.foldlM fs.enter here

/-- The place at which a path starts. -/
def start (fs : Files) (path : String) : Place :=
  if FileName.isAbsolute path then [] else fs.home

/-- The place to which a path leads. -/
def locate (fs : Files) (path : String) : Except FileError Place :=
  if path.toList.contains '\x00' then .error .nullInPath
  else if path = "" then .error .notFound
  else if maxPathBytes < path.utf8ByteSize then .error .nameTooLong
  else fs.walk (fs.start path) (FileName.pieces path)

/-- The place of the directory with the file to which a path leads. -/
def locateDirectory (fs : Files) (path : String) : Except FileError Place :=
  fs.walk (fs.start path) (FileName.directory path)

/-- The text of the file to which a path leads. -/
def read (fs : Files) (path : String) : Except FileError String := do
  match fs.node? (← fs.locate path) with
  | some (.text content) => .ok content
  | some (.bytes _) => .error .notText
  | some .directory => .error .isDirectory
  | none => .error .notFound

/-- Whether a path leads to something. -/
def has (fs : Files) (path : String) : Bool :=
  match fs.locate path with
  | .ok place => (fs.node? place).isSome
  | .error _ => false

/-- The place of a file that can be written: it holds no directory. -/
def writable (fs : Files) (place : Place) : Except FileError Place :=
  if fs.node? place = some .directory then .error .isDirectory else .ok place

/-- The files with another text in the file to which a path leads. The text is first
    written to a file beside it, which then takes its place, so that a reader never finds a
    part of the text. When only the second step fails, that file is left behind. -/
def replace (fs : Files) (path text : String) : Files × Except FileError Unit :=
  match fs.locate (FileName.spare path) >>= fs.writable with
  | .error e => (fs, .error e)
  | .ok spare =>
    let written := fs.put spare (.text text)
    match written.locate path >>= written.writable with
    | .error e => (written, .error e)
    | .ok place => ((written.delete spare).put place (.text text), .ok ())

/-- Whether something at a place was written or emptied after the first `seen` changes. -/
def changedSince (fs : Files) (seen : Nat) (place : Place) : Bool :=
  (fs.journal.drop seen).contains place

end Files

end LiterateSync
