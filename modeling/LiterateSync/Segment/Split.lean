import LiterateSync.Segment.Code
import LiterateSync.Segment.DocRun

namespace LiterateSync

/-- A stretch of a text of one kind. -/
structure Span where
  kind : BlockKind
  chars : List Char
  deriving DecidableEq, Repr

namespace Grammar

/-- The doc runs and the single lines of code of a text, in order. -/
def spans (g : Grammar) (s : List Char) : Except ScanFault (List Span) :=
  match s with
  | [] => .ok []
  | c :: s =>
    match _ : g.cutDocRun? (c :: s) with
    | .error fault => .error fault
    | .ok (some (run, rest)) => (g.spans rest).map (⟨.doc, run⟩ :: ·)
    | .ok none =>
      match _ : g.cutCodeLine [] [] (c :: s) with
      | .error fault => .error fault
      | .ok (line, rest) => (g.spans rest).map (⟨.code, line⟩ :: ·)
termination_by s.length
decreasing_by
  · exact cutDocRun?_length_lt (by assumption) (List.cons_ne_nil c s)
  · exact cutCodeLine_length_lt (by assumption)

/-- The spans of a text give the text back. -/
theorem flatten_of_spans {g : Grammar} {s : List Char} {spans : List Span}
    (h : g.spans s = .ok spans) : (spans.map (·.chars)).flatten = s := by
  fun_induction Grammar.spans g s generalizing spans with
  | case1 =>
    cases h
    rfl
  | case2 => cases h
  | case3 c s run rest hrun ih =>
    cases hrest : g.spans rest with
    | error fault => simp [hrest, Except.map] at h
    | ok spans =>
      simp only [hrest, Except.map, Except.ok.injEq] at h
      subst h
      simpa [ih hrest] using append_of_cutDocRun? hrun
  | case4 => cases h
  | case5 c s hnone line rest hline ih =>
    cases hrest : g.spans rest with
    | error fault => simp [hrest, Except.map] at h
    | ok spans =>
      simp only [hrest, Except.map, Except.ok.injEq] at h
      subst h
      simpa [ih hrest] using append_of_cutCodeLine hline

end Grammar

/-- The spans with neighbouring stretches of code joined. -/
def joinCode : List Span → List Span
  | [] => []
  | ⟨.doc, s⟩ :: spans => ⟨.doc, s⟩ :: joinCode spans
  | ⟨.code, s⟩ :: spans =>
    match joinCode spans with
    | ⟨.code, t⟩ :: rest => ⟨.code, s ++ t⟩ :: rest
    | rest => ⟨.code, s⟩ :: rest

theorem flatten_joinCode (spans : List Span) :
    ((joinCode spans).map (·.chars)).flatten = (spans.map (·.chars)).flatten := by
  induction spans with
  | nil => rfl
  | cons span spans ih =>
    obtain ⟨kind, s⟩ := span
    cases kind with
    | doc => simp [joinCode, ih]
    | code =>
      rw [joinCode]
      split
      · rename_i heq
        simp [← ih, heq]
      · simp [ih]

/-- The segments of the spans of a text, the first of which starts at a given byte. -/
def Segment.place (start : Nat) : List Span → List Segment
  | [] => []
  | span :: spans =>
    let stop := start + Text.byteLength span.chars
    ⟨span.kind, String.ofList span.chars, ⟨start, stop⟩⟩ :: place stop spans

/-- The error of a fault in the scan of `s`. -/
def ScanFault.error (s : List Char) : ScanFault → SegmentError
  | .unclosed rest comment => .malformed (Text.byteLength s - Text.byteLength rest) comment
  | .stalled rest => .stalled (Text.byteLength s - Text.byteLength rest)

/-- The code and doc segments of a text under a profile. Their texts joined give the
    text, and their ranges are the places of those texts in it. -/
def segment [RegexLibrary] (p : Profile) (text : String) : Except SegmentError (List Segment) :=
  match p.fault? with
  | some fault => .error (.ofFault p fault)
  | none =>
    match p.grammar.spans text.toList with
    | .error fault => .error (fault.error text.toList)
    | .ok spans => .ok (Segment.place 0 (joinCode spans))

theorem Segment.join_place (start : Nat) (spans : List Span) :
    String.join ((Segment.place start spans).map (·.text)) =
      String.ofList (spans.map (·.chars)).flatten := by
  induction spans generalizing start with
  | nil => rfl
  | cons span spans ih => simp [Segment.place, String.join_cons, ih, String.ofList_append]

/-- The segments of a text give the text back. -/
theorem join_of_segment [RegexLibrary] {p : Profile} {text : String} {segments : List Segment}
    (h : segment p text = .ok segments) : String.join (segments.map (·.text)) = text := by
  unfold segment at h
  split at h
  · cases h
  · split at h
    · cases h
    · rename_i spans hspans
      cases h
      rw [Segment.join_place, flatten_joinCode, Grammar.flatten_of_spans hspans,
        String.ofList_toList]

end LiterateSync
