import LiterateSync.Proofs.Language.Regular
import LiterateSync.Proofs.Segment.Markup
import LiterateSync.Proofs.Text.Fields

namespace LiterateSync.DocComment

open LineEnding (spread)

variable {indent w s : List Char}

/-- A line of prose with the indent of a block comment, which empty lines are without. -/
def indentLine (indent line : List Char) : List Char :=
  if line.isEmpty then line else indent ++ line

/-- Lines of prose with the indent of a block comment. -/
def indented (indent s : List Char) : List Char :=
  ['\n'].intercalate ((Text.fields '\n' s).map (indentLine indent))

theorem indented_last (hw : '\n' ∉ w) : indented indent w = indentLine indent w := by
  rw [indented, Text.fields_last hw, List.map_singleton, List.intercalate_singleton]

theorem intercalate_cons {α : Type} (sep x : List α) {xs : List (List α)} (hxs : xs ≠ []) :
    sep.intercalate (x :: xs) = x ++ sep ++ sep.intercalate xs := by
  obtain ⟨y, ys, rfl⟩ := List.exists_cons_of_ne_nil hxs
  exact List.intercalate_cons_cons

theorem indented_line (hw : '\n' ∉ w) (s : List Char) :
    indented indent (w ++ '\n' :: s) = indentLine indent w ++ '\n' :: indented indent s := by
  rw [indented, Text.fields_line hw, List.map_cons,
    intercalate_cons _ _ (by simpa using Text.fields_ne_nil s), ← indented]
  simp

/-- The carriage returns of one line ending. -/
def returns : LineEnding → List Char
  | .lf => []
  | .crlf => ['\r']

theorem chars_eq (e : LineEnding) : e.chars = returns e ++ ['\n'] := by
  cases e <;> rfl

theorem eq_of_mem_returns {e : LineEnding} {c : Char} (hc : c ∈ returns e) : c = '\r' := by
  cases e with
  | lf => cases hc
  | crlf => simpa [returns] using hc

theorem spread_line (e : LineEnding) (hw : '\n' ∉ w) (s : List Char) :
    spread e (w ++ '\n' :: s) = w ++ returns e ++ '\n' :: spread e s := by
  rw [LineEnding.spread_append, LineEnding.spread_of_not_mem e hw, LineEnding.spread_feed, chars_eq]
  simp

theorem not_mem_append_returns (e : LineEnding) (hw : '\n' ∉ w) : '\n' ∉ w ++ returns e := by
  rw [List.mem_append, not_or]
  refine ⟨hw, fun hmem => ?_⟩
  cases eq_of_mem_returns hmem

theorem not_mem_indentLine (hindent : ∀ c ∈ indent, Text.isBlank c = true) (hw : '\n' ∉ w) :
    '\n' ∉ indentLine indent w := by
  rw [indentLine]
  split
  · exact hw
  · rw [List.mem_append, not_or]
    refine ⟨fun hmem => ?_, hw⟩
    cases hindent _ hmem

theorem dropPrefix_indentLine (e : LineEnding) (hindent : ∀ c ∈ indent, Text.isBlank c = true) :
    Text.dropPrefix indent (indentLine indent w ++ returns e) = w ++ returns e := by
  cases w with
  | cons c w =>
    rw [indentLine, List.isEmpty_cons, if_neg Bool.false_ne_true, List.append_assoc,
      Text.dropPrefix_append]
  | nil =>
    rw [indentLine, List.isEmpty_nil, if_pos rfl, List.nil_append]
    cases indent with
    | nil => exact Text.dropPrefix_append [] _
    | cons c indent =>
      refine Text.dropPrefix_of_not_prefix fun hstarts => ?_
      have hc := eq_of_mem_returns (hstarts.subset List.mem_cons_self)
      rw [hc] at hindent
      cases hindent _ List.mem_cons_self

/-- The lines of prose with an indent lose the indent again, whatever their line endings are. -/
theorem intercalate_dropPrefix_indented (e : LineEnding)
    (hindent : ∀ c ∈ indent, Text.isBlank c = true) (s : List Char) :
    ['\n'].intercalate ((Text.fields '\n' (spread e (indented indent s))).map
      (Text.dropPrefix indent)) = spread e s := by
  have hlast : ∀ {w}, '\n' ∉ w →
      ['\n'].intercalate ((Text.fields '\n' (spread e (indented indent w))).map
        (Text.dropPrefix indent)) = spread e w := by
    intro w hw
    have hline := not_mem_indentLine hindent hw
    have hdrop := dropPrefix_indentLine .lf hindent (w := w)
    rw [returns, List.append_nil, List.append_nil] at hdrop
    rw [indented_last hw, LineEnding.spread_of_not_mem e hline, Text.fields_last hline,
      LineEnding.spread_of_not_mem e hw, List.map_singleton, hdrop, List.intercalate_singleton]
  induction s using Text.lines_induction with
  | nil => exact hlast (by simp)
  | last w _ hw => exact hlast hw
  | line w s hw ih =>
    have hline := not_mem_indentLine hindent hw
    rw [indented_line hw, spread_line e hline, Text.fields_line (not_mem_append_returns e hline),
      List.map_cons, dropPrefix_indentLine e hindent,
      intercalate_cons _ _ (by simpa using Text.fields_ne_nil _), ih, spread_line e hw]
    simp

/-- The text between the delimiters of a block comment, without the spaces at its ends. -/
def innerOfBlock (indent body : List Char) : List Char :=
  ['\n'].intercalate (indentLines indent (Text.fields '\n' body))

theorem innerOfBlock_last (hw : '\n' ∉ w) : innerOfBlock indent w = w := by
  rw [innerOfBlock, Text.fields_last hw, indentLines, List.map_nil, List.intercalate_singleton]

theorem innerOfBlock_line (hw : '\n' ∉ w) (s : List Char) :
    innerOfBlock indent (w ++ '\n' :: s) = w ++ '\n' :: indented indent s := by
  rw [innerOfBlock, Text.fields_line hw, indentLines,
    intercalate_cons _ _ (by simpa using Text.fields_ne_nil s), List.append_assoc]
  rfl

/-- The prose of a block comment is found again between its delimiters. -/
theorem intercalate_dropIndents_inner (e : LineEnding)
    (hindent : ∀ c ∈ indent, Text.isBlank c = true) (body : List Char) :
    ['\n'].intercalate
        (dropIndents indent (Text.fields '\n' (spread e (innerOfBlock indent body)))) =
      spread e body := by
  by_cases hfeed : '\n' ∈ body
  · obtain ⟨w, s, rfl, hw⟩ := List.eq_append_cons_of_mem hfeed
    rw [innerOfBlock_line hw, spread_line e hw, Text.fields_line (not_mem_append_returns e hw),
      dropIndents, intercalate_cons _ _ (by simpa using Text.fields_ne_nil _),
      intercalate_dropPrefix_indented e hindent, spread_line e hw]
    simp
  · rw [innerOfBlock_last hfeed, LineEnding.spread_of_not_mem e hfeed, Text.fields_last hfeed,
      dropIndents, List.map_nil, List.intercalate_singleton]

theorem infix_of_infix_append_returns {needle x y : List Char} {e : LineEnding}
    (hreturn : '\r' ∉ needle) (hfeed : '\n' ∉ needle)
    (h : needle <:+: x ++ returns e ++ '\n' :: y) : needle <:+: x ∨ needle <:+: y := by
  rcases (Text.infix_append_cons_iff hfeed).1 h with h | h
  · left
    cases e with
    | lf => rwa [returns, List.append_nil] at h
    | crlf =>
      rcases (Text.infix_append_cons_iff hreturn).1 h with h | h
      · exact h
      · exact h.trans List.nil_infix
  · exact .inr h

theorem infix_of_infix_indentLine {needle : List Char}
    (hindent : ∀ c ∈ indent, c ∉ needle) (h : needle <:+: indentLine indent w) : needle <:+: w := by
  rw [indentLine] at h
  split at h
  · exact h
  · exact Text.infix_of_infix_append hindent h

/-- A text without blanks and line endings is found in indented prose only where the prose
    holds it. -/
theorem infix_of_infix_indented {needle : List Char} {e : LineEnding}
    (hindent : ∀ c ∈ indent, Text.isBlank c = true) (hblank : ∀ c ∈ indent, c ∉ needle)
    (hreturn : '\r' ∉ needle) (hfeed : '\n' ∉ needle)
    (h : needle <:+: spread e (indented indent s)) : needle <:+: s := by
  have hlast : ∀ {w}, '\n' ∉ w → needle <:+: spread e (indented indent w) → needle <:+: w := by
    intro w hw h
    rw [indented_last hw, LineEnding.spread_of_not_mem e (not_mem_indentLine hindent hw)] at h
    exact infix_of_infix_indentLine hblank h
  induction s using Text.lines_induction with
  | nil => exact hlast (by simp) h
  | last w _ hw => exact hlast hw h
  | line w s hw ih =>
    rw [indented_line hw, spread_line e (not_mem_indentLine hindent hw)] at h
    rw [Text.infix_append_cons_iff hfeed]
    exact (infix_of_infix_append_returns hreturn hfeed h).imp
      (infix_of_infix_indentLine hblank) ih

theorem infix_of_infix_innerOfBlock {needle body : List Char} {e : LineEnding}
    (hindent : ∀ c ∈ indent, Text.isBlank c = true) (hblank : ∀ c ∈ indent, c ∉ needle)
    (hreturn : '\r' ∉ needle) (hfeed : '\n' ∉ needle)
    (h : needle <:+: spread e (innerOfBlock indent body)) : needle <:+: body := by
  by_cases hmem : '\n' ∈ body
  · obtain ⟨w, s, rfl, hw⟩ := List.eq_append_cons_of_mem hmem
    rw [innerOfBlock_line hw, spread_line e hw] at h
    rw [Text.infix_append_cons_iff hfeed]
    exact (infix_of_infix_append_returns hreturn hfeed h).imp_right
      (infix_of_infix_indented hindent hblank hreturn hfeed)
  · rwa [innerOfBlock_last hmem, LineEnding.spread_of_not_mem e hmem] at h

/-- A line of prose is found again behind the markup of a line comment. -/
theorem proseOfLine_append {delimiter gap line : List Char}
    (hgap : gap = [' '] ∨ gap = [] ∧ ¬ [' '] <+: line) :
    proseOfLine indent delimiter (indent ++ delimiter ++ gap ++ line) = line := by
  rw [proseOfLine, List.append_assoc, List.append_assoc, Text.dropPrefix_append,
    Text.dropPrefix_append]
  rcases hgap with rfl | ⟨rfl, hline⟩
  · exact Text.dropPrefix_append [' '] line
  · exact Text.dropPrefix_of_not_prefix hline

/-- What stands between the delimiter of a line comment and a line of prose. -/
def gapOfLine (line : List Char) : List Char :=
  if (Text.trimEnd (fun c => c = '\r' || c = '\n') line).isEmpty then [] else [' ']

theorem gapOfLine_cases (line : List Char) :
    gapOfLine line = [' '] ∨ gapOfLine line = [] ∧ ∀ c ∈ line, c = '\r' ∨ c = '\n' := by
  rw [gapOfLine]
  split
  · rename_i hempty
    rw [Text.trimEnd, List.isEmpty_reverse, List.isEmpty_iff, List.dropWhile_eq_nil_iff] at hempty
    exact .inr ⟨rfl, fun c hc => by simpa using hempty c (by simpa using hc)⟩
  · exact .inl rfl

theorem sourceOfLine_eq (indent delimiter line : List Char) :
    sourceOfLine indent delimiter line = indent ++ delimiter ++ gapOfLine line ++ line := rfl

/-- The source text of prose as lines of a line comment. -/
def sourceOfLines (indent delimiter prose : List Char) : List Char :=
  (Text.lines prose).flatMap (sourceOfLine indent delimiter)

variable {delimiter : List Char}

theorem sourceOfLines_last (hne : w ≠ []) (hw : '\n' ∉ w) :
    sourceOfLines indent delimiter w = indent ++ delimiter ++ gapOfLine w ++ w := by
  rw [sourceOfLines, Text.lines_last hne hw, List.flatMap_singleton, sourceOfLine_eq]

theorem sourceOfLines_line (hw : '\n' ∉ w) (s : List Char) :
    sourceOfLines indent delimiter (w ++ '\n' :: s) =
      indent ++ delimiter ++ gapOfLine (w ++ ['\n']) ++ w ++
        '\n' :: sourceOfLines indent delimiter s := by
  rw [sourceOfLines, Text.lines_line hw, List.flatMap_cons, sourceOfLine_eq, ← sourceOfLines]
  simp

theorem not_mem_gapOfLine (line : List Char) : '\n' ∉ gapOfLine line := by
  rcases gapOfLine_cases line with h | ⟨h, -⟩ <;> simp [h]

theorem not_mem_append_gap (hindent : '\n' ∉ indent) (hdelimiter : '\n' ∉ delimiter)
    (line : List Char) (hw : '\n' ∉ w) : '\n' ∉ indent ++ delimiter ++ gapOfLine line ++ w := by
  simp [hindent, hdelimiter, not_mem_gapOfLine, hw]

theorem not_prefix_of_gap {line : List Char}
    (hline : ∀ c ∈ line, c = '\r' ∨ c = '\n') : ¬ [' '] <+: line := fun hstarts =>
  by simpa using hline ' ' (hstarts.subset List.mem_cons_self)

/-- The prose of a line comment is found again line by line, whatever its line endings are. -/
theorem flatMap_proseOfLine_spread (e : LineEnding) (hindent : '\n' ∉ indent)
    (hdelimiter : '\n' ∉ delimiter) (s : List Char) :
    (Text.lines (spread e (sourceOfLines indent delimiter s))).flatMap
      (proseOfLine indent delimiter) = spread e s := by
  induction s using Text.lines_induction with
  | nil => rfl
  | last w hne hw =>
    have hline := not_mem_append_gap hindent hdelimiter w hw
    rw [sourceOfLines_last hne hw, LineEnding.spread_of_not_mem e hline,
      Text.lines_last (by simp [hne]) hline, List.flatMap_singleton, proseOfLine_append,
      LineEnding.spread_of_not_mem e hw]
    exact (gapOfLine_cases w).imp_right (And.imp_right not_prefix_of_gap)
  | line w s hw ih =>
    have hline := not_mem_append_gap hindent hdelimiter (w ++ ['\n']) hw
    have hreturns := not_mem_append_returns e hline
    rw [sourceOfLines_line hw, spread_line e hline, Text.lines_line hreturns, List.flatMap_cons, ih,
      List.append_assoc, List.append_assoc, proseOfLine_append, spread_line e hw]
    · simp
    · refine (gapOfLine_cases (w ++ ['\n'])).imp_right (And.imp_right fun hall => ?_)
      refine not_prefix_of_gap fun c hc => ?_
      rcases List.mem_append.1 hc with hc | hc
      · exact hall c (List.mem_append_left _ hc)
      · rcases List.mem_append.1 hc with hc | hc
        · exact .inl (eq_of_mem_returns hc)
        · exact .inr (List.mem_singleton.1 hc)

theorem mem_indented {c : Char} (hc : c ∈ indented indent s) : c = '\n' ∨ c ∈ indent ∨ c ∈ s := by
  have hline : ∀ {w}, c ∈ indentLine indent w → c ∈ indent ∨ c ∈ w := by
    intro w hmem
    rw [indentLine] at hmem
    split at hmem
    · exact .inr hmem
    · exact List.mem_append.1 hmem
  induction s using Text.lines_induction with
  | nil =>
    rw [indented_last (by simp)] at hc
    exact .inr (hline hc)
  | last w _ hw =>
    rw [indented_last hw] at hc
    exact .inr (hline hc)
  | line w s hw ih =>
    rw [indented_line hw, List.mem_append, List.mem_cons] at hc
    simp only [List.mem_append, List.mem_cons]
    obtain hfirst | rfl | hrest := hc
    · exact .inr ((hline hfirst).imp_right .inl)
    · exact .inl rfl
    · exact (ih hrest).imp_right (Or.imp_right fun hmem => .inr (.inr hmem))

theorem mem_innerOfBlock {c : Char} {body : List Char} (hc : c ∈ innerOfBlock indent body) :
    c = '\n' ∨ c ∈ indent ∨ c ∈ body := by
  by_cases hmem : '\n' ∈ body
  · obtain ⟨w, s, rfl, hw⟩ := List.eq_append_cons_of_mem hmem
    rw [innerOfBlock_line hw, List.mem_append, List.mem_cons] at hc
    simp only [List.mem_append, List.mem_cons]
    obtain hfirst | rfl | hrest := hc
    · exact .inr (.inr (.inl hfirst))
    · exact .inl rfl
    · exact (mem_indented hrest).imp_right (Or.imp_right fun hmem => .inr (.inr hmem))
  · rw [innerOfBlock_last hmem] at hc
    exact .inr (.inr hc)

theorem mem_sourceOfLines {c : Char} (hc : c ∈ sourceOfLines indent delimiter s) :
    c ∈ indent ∨ c ∈ delimiter ∨ c = ' ' ∨ c ∈ s := by
  obtain ⟨line, hline, hc⟩ := List.mem_flatMap.1 hc
  have hprose : c ∈ line → c ∈ s := fun hmem => by
    rw [← Text.flatten_lines s]
    exact List.mem_flatten_of_mem hline hmem
  have hgap : c ∈ gapOfLine line → c = ' ' := fun hmem => by
    rcases gapOfLine_cases line with h | ⟨h, -⟩
    · simpa [h] using hmem
    · simp [h] at hmem
  rw [sourceOfLine_eq] at hc
  simp only [List.mem_append] at hc
  obtain ((hindent | hdelimiter) | hspace) | hmem := hc
  · exact .inl hindent
  · exact .inr (.inl hdelimiter)
  · exact .inr (.inr (.inl (hgap hspace)))
  · exact .inr (.inr (.inr (hprose hmem)))

/-- The prose of a line comment ends a line if the comment does. -/
theorem endsLine_flatMap_proseOfLine (hindent : '\n' ∉ indent) (hdelimiter : '\n' ∉ delimiter)
    (hs : EndsLine s) : EndsLine ((Text.lines s).flatMap (proseOfLine indent delimiter)) := by
  have hdrop : ∀ {needle line}, '\n' ∉ needle → EndsLine line →
      EndsLine (Text.dropPrefix needle line) := by
    intro needle line hneedle hline
    rw [Text.dropPrefix]
    cases hafter : Text.afterPrefix? needle line with
    | none => exact hline
    | some r =>
      obtain rfl := Text.afterPrefix?_eq_some_iff.1 hafter
      have hr := List.ne_nil_of_mem ((List.mem_append.1 hline.mem).resolve_left hneedle)
      rwa [EndsLine, List.getLast?_append_of_ne_nil _ hr] at hline
  induction s using Text.lines_induction with
  | nil => cases hs
  | last w _ hw => exact absurd hs.mem hw
  | line w s hw ih =>
    rw [Text.lines_line hw, List.flatMap_cons]
    by_cases hnil : s = []
    · subst hnil
      rw [Text.lines, List.flatMap_nil, List.append_nil]
      exact hdrop (by simp) (hdrop hdelimiter (hdrop hindent hs))
    · rw [EndsLine, List.getLast?_append_of_ne_nil _ (List.cons_ne_nil _ s)] at hs
      exact (ih (EndsLine.of_cons hs hnil)).append_left _

end LiterateSync.DocComment
