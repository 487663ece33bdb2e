import LiterateSync.Segment.Basic

namespace LiterateSync

/-- The delimiters of a profile in the order in which they are tried, with the
    expressions that open its heredocs. -/
structure Grammar where
  lineComments : List String
  blockComments : List BlockComment
  strings : List StringSyntax
  heredocs : List (Heredoc × Regex)
  continuation : Option String

/-- The grammar of a profile with given heredocs. Of two delimiters that open at one place the
    longer one wins, so longer ones come first. -/
def Profile.grammarWith (p : Profile) (heredocs : List (Heredoc × Regex)) : Grammar where
  lineComments := p.lineCommentsLongestFirst
  blockComments := p.blockCommentsLongestFirst
  strings := p.stringsLongestFirst
  heredocs
  continuation := p.lineContinuation

/-- The grammar of a profile. -/
abbrev Profile.grammar [RegexLibrary] (p : Profile) : Grammar :=
  p.grammarWith (p.heredocs.filterMap fun h => h.opener?.map (h, ·))

/-- What stops a scan, with the text from the place where it stops. -/
inductive ScanFault where
  /-- A block comment opens here and is not closed. -/
  | unclosed (rest : List Char) (comment : BlockComment)
  /-- A token begins here that takes no character. -/
  | stalled (rest : List Char)

namespace Grammar

/-- What follows a delimiter that the text starts with. -/
def after? (delimiter : String) (s : List Char) : Option (List Char) :=
  Text.afterPrefix? delimiter.toList s

/-- Whether the text starts with a delimiter. -/
def opens (delimiter : String) (s : List Char) : Bool :=
  (after? delimiter s).isSome

/-- The block comment that opens at the start of the text, if one does. -/
def blockComment? (g : Grammar) (s : List Char) : Option BlockComment :=
  g.blockComments.find? fun b => opens b.opening s

/-- The line-comment delimiter that the text starts with, if there is one. -/
def lineComment? (g : Grammar) (s : List Char) : Option String :=
  g.lineComments.find? fun d => opens d s

/-- The kind of string literal that opens at the start of the text, if one does. -/
def string? (g : Grammar) (s : List Char) : Option StringSyntax :=
  g.strings.find? fun q => opens q.delimiter s

/-- The block comment that opens at the start of the text, and the text after it. The
    closing delimiter is looked for behind the opening one. -/
def cutBlockComment (comment : BlockComment) (s : List Char) :
    Except ScanFault (List Char × List Char) :=
  match Text.splitFirst? comment.closing.toList (s.drop comment.opening.length) with
  | some (inside, rest) =>
    .ok (s.take comment.opening.length ++ inside ++ comment.closing.toList, rest)
  | none => .error (.unclosed s comment)

theorem append_of_cutBlockComment {comment : BlockComment} {s text rest : List Char}
    (h : cutBlockComment comment s = .ok (text, rest)) : text ++ rest = s := by
  unfold cutBlockComment at h
  split at h
  · rename_i inside r hsplit
    cases h
    have hbody := Text.append_of_splitFirst? hsplit
    rw [List.append_assoc, List.append_assoc, ← List.append_assoc inside, ← hbody,
      List.take_append_drop]
  · cases h

end Grammar

end LiterateSync
