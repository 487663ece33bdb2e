namespace LiterateSync

/-- What the program can be started for. -/
inductive CommandLine where
  /-- The segments of a file are listed, or written as data. -/
  | segment (path : String) (asData : Bool)
  /-- A file is checked. -/
  | check (path : String)
  /-- A session for a file speaks with a peer in lines. -/
  | serve (path : String) (peer : String) (watched : Bool)
  deriving DecidableEq, Repr

namespace CommandLine

/-- The listing that arguments ask for, behind some that were read already. -/
def segment? (path : Option String) (asData : Bool) : List String → Option CommandLine
  | [] => path.map fun path => .segment path asData
  | "--json" :: rest => segment? path true rest
  | argument :: rest =>
    match path with
    | none => segment? (some argument) asData rest
    | some _ => none

/-- The session that arguments ask for, behind some that were read already. -/
def serve? (path : Option String) (peer : String) (watched : Bool) :
    List String → Option CommandLine
  | [] => path.map fun path => .serve path peer watched
  | "--peer" :: peer :: rest => serve? path peer watched rest
  | "--no-watch" :: rest => serve? path peer false rest
  | argument :: rest =>
    match path with
    | none => serve? (some argument) peer watched rest
    | some _ => none

/-- The command that arguments spell: its name, and the path of a file among its options. -/
def ofArguments? : List String → Option CommandLine
  | "segment" :: arguments => segment? none false arguments
  | ["check", path] => some (.check path)
  | "serve" :: arguments => serve? none "stdio" true arguments
  | _ => none

/-- How the program is used. -/
def usage : String :=
  String.join
    ["Usage: literatesync segment [--json] FILE\n",
     "       literatesync check FILE\n",
     "       literatesync serve FILE [--peer PEER] [--no-watch]\n"]

end CommandLine

end LiterateSync
