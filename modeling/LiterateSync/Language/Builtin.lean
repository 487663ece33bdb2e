import LiterateSync.Language.Profile

namespace LiterateSync.Profile

/-- A language with the comments of C. -/
def cLike (id : String) (extensions : List String) (strings : List StringSyntax) : Profile where
  id
  extensions
  lineComments := ["//"]
  blockComments := [⟨"/*", "*/"⟩]
  strings

/-- The two usual one-line literals, in double and in single quotes. -/
def quotes : List StringSyntax :=
  [.escaped "\"", .escaped "'"]

/-- The languages that are always known, in the order in which they are listed. -/
def builtin : List Profile :=
  [{ cLike "c_cpp" [".c", ".cc", ".cpp", ".cxx", ".h", ".hpp"] quotes with
      heredocs := [⟨"R\"", "[^()\\\\\\s\"]{0,16}", "(", ")", "\""⟩]
      lineContinuation := some "\\" },
   { id := "css", extensions := [".css"], blockComments := [⟨"/*", "*/"⟩], strings := quotes },
   cLike "golang" [".go"] (quotes ++ [.raw "`" "`"]),
   { id := "html", extensions := [".html", ".htm"], blockComments := [⟨"<!--", "-->"⟩],
     strings := [.spanning "\"", .spanning "'"] },
   cLike "java" [".java"] (.spanning "\"\"\"" :: quotes),
   cLike "javascript" [".js", ".mjs", ".cjs", ".jsx"] (quotes ++ [.interpolated "`"]),
   cLike "json5" [".json", ".json5"] quotes,
   { id := "python", extensions := [".py", ".pyw"], lineComments := ["#"],
     strings := [.spanning "\"\"\"", .spanning "'''"] ++ quotes,
     lineContinuation := some "\\" },
   { cLike "rust" [".rs"] [.raw "r#\"" "\"#", .spanning "\""] with
      lineComments := ["///", "//"] },
   { id := "sh", extensions := [".sh", ".bash"], lineComments := ["#"],
     strings := [.spanning "\"", .raw "'" "'"] },
   { id := "sql", extensions := [".sql"], lineComments := ["--"], blockComments := [⟨"/*", "*/"⟩],
     strings := [.raw "'" "'", .raw "\"" "\""] },
   { id := "toml", extensions := [".toml"], lineComments := ["#"],
     strings := [.spanning "\"\"\"", .raw "'''" "'''", .escaped "\"", .plain "'"] },
   cLike "typescript" [".ts", ".tsx", ".mts", ".cts"] (quotes ++ [.interpolated "`"]),
   cLike "verilog" [".v"] [.escaped "\""],
   { id := "yaml", extensions := [".yaml", ".yml"], lineComments := ["#"],
     strings := [.escaped "\"", .plain "'"] }]

end LiterateSync.Profile
