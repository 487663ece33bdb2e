import LiterateSync.Language.Builtin
import LiterateSync.Proofs.Text.LongestFirst
import LiterateSync.Proofs.Text.Regex
import LiterateSync.Segment.Grammar

namespace LiterateSync

/-- Whether a delimiter has characters, and no blanks or line endings among them. -/
def IsPlain (delimiter : String) : Prop :=
  delimiter.toList ≠ [] ∧ ∀ c ∈ delimiter.toList, Text.isBlank c = false ∧ c ≠ '\n' ∧ c ≠ '\r'

-- the characters of the delimiter are looked at, not all the characters that there are
instance (delimiter : String) : Decidable (IsPlain delimiter) :=
  @instDecidableAnd _ _ inferInstance (List.decidableBAll _ delimiter.toList)

theorem IsPlain.not_mem {delimiter : String} (h : IsPlain delimiter) {c : Char}
    (hc : Text.isBlank c = true ∨ c = '\n' ∨ c = '\r') : c ∉ delimiter.toList := by
  intro hmem
  obtain ⟨hblank, hfeed, hreturn⟩ := h.2 c hmem
  rcases hc with hc | hc | hc
  · rw [hc] at hblank
    cases hblank
  · exact hfeed hc
  · exact hreturn hc

/-- Whether the scan of a line looks at no delimiter beyond the end of the line, and at none
    within the indent of the line. -/
structure Grammar.IsLineBound (g : Grammar) : Prop where
  line : ∀ d ∈ g.lineComments, IsPlain d
  opening : ∀ b ∈ g.blockComments, IsPlain b.opening
  delimiter : ∀ q ∈ g.strings, IsPlain q.delimiter
  close : ∀ q ∈ g.strings, '\n' ∉ q.close.toList
  startPrefix : ∀ h ∈ g.heredocs, IsPlain h.1.startPrefix
  startSuffix : ∀ h ∈ g.heredocs, '\n' ∉ h.1.startSuffix.toList
  finds : ∀ h ∈ g.heredocs, ∃ p : Text.Pattern, p.isLineBound = true ∧
    h.2.Finds h.1.startPrefix.toList p h.1.startSuffix.toList

/-- Whether each heredoc of the grammar is opened by what some pattern takes between its prefix
    and its suffix. -/
def Grammar.FindsPatterns (g : Grammar) : Prop :=
  ∀ h ∈ g.heredocs, ∃ p : Text.Pattern, h.2.Finds h.1.startPrefix.toList p h.1.startSuffix.toList

/-- Whether no delimiter that the scan of a line looks for goes over the end of the line. -/
structure Grammar.IsOneLine (g : Grammar) : Prop where
  line : ∀ d ∈ g.lineComments, '\n' ∉ d.toList
  opening : ∀ b ∈ g.blockComments, '\n' ∉ b.opening.toList
  delimiter : ∀ q ∈ g.strings, '\n' ∉ q.delimiter.toList
  close : ∀ q ∈ g.strings, '\n' ∉ q.close.toList

theorem Grammar.IsLineBound.isOneLine {g : Grammar} (hg : g.IsLineBound) : g.IsOneLine where
  line d hd := (hg.line d hd).not_mem (by simp)
  opening b hb := (hg.opening b hb).not_mem (by simp)
  delimiter q hq := (hg.delimiter q hq).not_mem (by simp)
  close := hg.close

/-- Whether the comments of a profile are told by plain delimiters, those of block comments apart
    from those of line comments. -/
structure Profile.HasPlainComments (p : Profile) : Prop where
  line : ∀ d ∈ p.lineComments, IsPlain d
  opening : ∀ b ∈ p.blockComments, IsPlain b.opening
  closing : ∀ b ∈ p.blockComments, IsPlain b.closing
  apart : ∀ b ∈ p.blockComments, ∀ d ∈ p.lineComments, ¬ d.toList <+: b.opening.toList

/-- Whether the comments of a profile are told by plain delimiters, and no literal of it reaches
    into the next line unseen. -/
structure Profile.IsRegular [RegexLibrary] (p : Profile) : Prop extends p.HasPlainComments where
  isLineBound : p.grammar.IsLineBound

/-- Whether the identifiers of a profile's heredocs are made of literals, classes and repetitions. -/
def Profile.SpellsPatterns (p : Profile) : Prop :=
  ∀ h ∈ p.heredocs, (Text.Pattern.ofText? h.identPattern).isSome

theorem Profile.mem_heredocs_of_grammar [RegexLibrary] {p : Profile} {h : Heredoc × Regex}
    (hh : h ∈ p.grammar.heredocs) : h.1 ∈ p.heredocs ∧ h.1.opener? = some h.2 := by
  obtain ⟨heredoc, hmem, hopener⟩ := List.mem_filterMap.1 hh
  obtain ⟨opener, hsome, rfl⟩ := Option.map_eq_some_iff.1 hopener
  exact ⟨hmem, hsome⟩

theorem Profile.findsPatterns_grammar [RegexLibrary] [LawfulRegexLibrary] {p : Profile}
    (hp : p.SpellsPatterns) : p.grammar.FindsPatterns := by
  intro h hh
  obtain ⟨hmem, hopener⟩ := mem_heredocs_of_grammar hh
  obtain ⟨pattern, hpattern⟩ := Option.isSome_iff_exists.1 (hp h.1 hmem)
  exact ⟨pattern, LawfulRegexLibrary.finds hpattern hopener⟩

/-- The profiles of the languages that are always known tell comments by plain delimiters. -/
theorem Profile.hasPlainComments_of_mem_builtin {p : Profile} (hp : p ∈ builtin) :
    p.HasPlainComments := by
  have hlines : ∀ p ∈ builtin, ∀ d ∈ p.lineComments, IsPlain d := by decide +kernel
  have hblocks : ∀ p ∈ builtin, ∀ b ∈ p.blockComments, IsPlain b.opening ∧ IsPlain b.closing ∧
      ∀ d ∈ p.lineComments, ¬ d.toList <+: b.opening.toList := by
    decide +kernel
  exact
    { line := hlines p hp
      opening := fun b hb => (hblocks p hp b hb).1
      closing := fun b hb => (hblocks p hp b hb).2.1
      apart := fun b hb => (hblocks p hp b hb).2.2 }

/-- The profiles of the languages that are always known are regular. -/
theorem Profile.isRegular_of_mem_builtin [RegexLibrary] [LawfulRegexLibrary] {p : Profile}
    (hp : p ∈ builtin) : p.IsRegular := by
  have hcomments := hasPlainComments_of_mem_builtin hp
  have hstrings : ∀ p ∈ builtin, ∀ q ∈ p.strings,
      IsPlain q.delimiter ∧ '\n' ∉ q.close.toList := by
    decide +kernel
  have hheredocs : ∀ p ∈ builtin, ∀ h ∈ p.heredocs, IsPlain h.startPrefix ∧
      '\n' ∉ h.startSuffix.toList ∧
      ∃ pattern ∈ Text.Pattern.ofText? h.identPattern, pattern.isLineBound = true := by
    decide +kernel
  exact
    { toHasPlainComments := hcomments
      isLineBound :=
        { line := fun d hd => hcomments.line d (Text.mem_longestFirst.1 hd)
          opening := fun b hb => hcomments.opening b (Text.mem_longestFirst.1 hb)
          delimiter := fun q hq => (hstrings p hp q (Text.mem_longestFirst.1 hq)).1
          close := fun q hq => (hstrings p hp q (Text.mem_longestFirst.1 hq)).2
          startPrefix := fun h hh => (hheredocs p hp h.1 (mem_heredocs_of_grammar hh).1).1
          startSuffix := fun h hh => (hheredocs p hp h.1 (mem_heredocs_of_grammar hh).1).2.1
          finds := fun h hh => by
            obtain ⟨hmem, hopener⟩ := mem_heredocs_of_grammar hh
            obtain ⟨-, -, pattern, hpattern, hbound⟩ := hheredocs p hp h.1 hmem
            exact ⟨pattern, hbound, LawfulRegexLibrary.finds hpattern hopener⟩ } }

end LiterateSync
