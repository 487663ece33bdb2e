import LiterateSync.Proofs.Language.Regular

namespace LiterateSync

/-- The delimiters at which comments and literals open. -/
def Grammar.openings (g : Grammar) : List String :=
  g.lineComments ++ g.blockComments.map (·.opening) ++ g.heredocs.map (·.1.startPrefix) ++
    g.strings.map (·.delimiter)

theorem Grammar.forall_mem_openings {g : Grammar} {q : String → Prop} :
    (∀ d ∈ g.openings, q d) ↔
      (∀ d ∈ g.lineComments, q d) ∧ (∀ b ∈ g.blockComments, q b.opening) ∧
        (∀ h ∈ g.heredocs, q h.1.startPrefix) ∧ ∀ l ∈ g.strings, q l.delimiter := by
  simp only [openings, List.forall_mem_append, List.forall_mem_map, and_assoc]

namespace Profile

variable {p : Profile} {k : List (Heredoc × Regex)} {d : String} {b : BlockComment}
  {q : StringSyntax}

/-- The delimiters at which comments and literals of a profile open. -/
def openings (p : Profile) : List String :=
  p.lineComments ++ p.blockComments.map (·.opening) ++ p.heredocs.map (·.startPrefix) ++
    p.strings.map (·.delimiter)

/-- The delimiters of the comments and string literals of a profile. -/
def delimiters (p : Profile) : List String :=
  p.lineComments ++ p.blockComments.flatMap (fun b => [b.opening, b.closing]) ++
    p.strings.flatMap fun q => [q.delimiter, q.close]

theorem forall_mem_delimiters {r : String → Prop} :
    (∀ d ∈ p.delimiters, r d) ↔ (∀ d ∈ p.lineComments, r d) ∧
      (∀ b ∈ p.blockComments, r b.opening ∧ r b.closing) ∧
        ∀ q ∈ p.strings, r q.delimiter ∧ r q.close := by
  simp [delimiters, List.forall_mem_append, List.forall_mem_flatMap, -List.mem_flatMap,
    -List.mem_append]

@[simp] theorem mem_grammar_lineComments :
    d ∈ (p.grammarWith k).lineComments ↔ d ∈ p.lineComments :=
  Text.mem_longestFirst

@[simp] theorem mem_grammar_blockComments :
    b ∈ (p.grammarWith k).blockComments ↔ b ∈ p.blockComments :=
  Text.mem_longestFirst

@[simp] theorem mem_grammar_strings :
    q ∈ (p.grammarWith k).strings ↔ q ∈ p.strings :=
  Text.mem_longestFirst

theorem mem_openings_of_grammar [RegexLibrary] (hd : d ∈ p.grammar.openings) : d ∈ p.openings := by
  simp only [Grammar.openings, List.mem_append, List.mem_map, mem_grammar_lineComments,
    mem_grammar_blockComments, mem_grammar_strings] at hd
  simp only [openings, List.mem_append, List.mem_map]
  refine hd.imp_left (Or.imp_right ?_)
  rintro ⟨h, hh, rfl⟩
  exact ⟨h.1, (mem_heredocs_of_grammar hh).1, rfl⟩

/-- The delimiters of a profile without a fault have characters. -/
theorem ne_empty_of_fault? [RegexLibrary] (h : p.fault? = none) :
    (∀ d ∈ p.openings, d ≠ "") ∧ ∀ d ∈ p.delimiters, d ≠ "" := by
  obtain ⟨hempty, hheredocs⟩ :
      p.hasEmptyDelimiter = false ∧ ∀ h ∈ p.heredocs, h.startPrefix ≠ "" := by
    unfold fault? at h
    split_ifs at h with _ _ hempty hheredoc
    exact ⟨by simpa using hempty, fun heredoc hmem hnil =>
      hheredoc (List.any_eq_true.2 ⟨heredoc, hmem, by simp [hnil]⟩)⟩
  simp only [hasEmptyDelimiter, Bool.or_eq_false_iff, List.any_eq_false, Bool.or_eq_true,
    String.isEmpty_iff, not_or] at hempty
  obtain ⟨⟨hlines, hblocks⟩, hstrings⟩ := hempty
  refine ⟨?_, forall_mem_delimiters.2 ⟨hlines, hblocks, hstrings⟩⟩
  simp only [openings, List.forall_mem_append, List.forall_mem_map]
  exact ⟨⟨⟨hlines, fun b hb => (hblocks b hb).1⟩, hheredocs⟩, fun q hq => (hstrings q hq).1⟩

/-- The scan of a line looks for nothing beyond the end of the line, if no delimiter goes over
    it. -/
theorem isOneLine_grammar (h : ∀ d ∈ p.delimiters, '\n' ∉ d.toList) :
    (p.grammarWith k).IsOneLine := by
  obtain ⟨hlines, hblocks, hstrings⟩ := forall_mem_delimiters.1 h
  exact
    { line := fun d hd => hlines d (mem_grammar_lineComments.1 hd)
      opening := fun b hb => (hblocks b (mem_grammar_blockComments.1 hb)).1
      delimiter := fun q hq => (hstrings q (mem_grammar_strings.1 hq)).1
      close := fun q hq => (hstrings q (mem_grammar_strings.1 hq)).2 }

end Profile

end LiterateSync
