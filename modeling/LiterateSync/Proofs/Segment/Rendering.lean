import LiterateSync.Proofs.DocComment
import LiterateSync.Proofs.Segment.Delimiters
import LiterateSync.Proofs.Segment.RunLocality

namespace LiterateSync.DocComment

open Grammar
open LineEnding (spread)

variable {p : Profile} {margin prose rest : List Char} {d : String} {b : BlockComment}
  {closing : String} {e : LineEnding} {k : List (Heredoc × Regex)}

theorem indent_append_plain (hmargin : ∀ c ∈ margin, Text.isBlank c = true) (hd : IsPlain d)
    (s : List Char) :
    Grammar.indent (margin ++ (d.toList ++ s)) = margin ∧
      unindented (margin ++ (d.toList ++ s)) = d.toList ++ s := by
  obtain ⟨c, more, hmore⟩ := List.exists_cons_of_ne_nil hd.1
  have hc : Text.isBlank c = false := (hd.2 c (hmore ▸ List.mem_cons_self)).1
  rw [Grammar.indent, unindented, List.takeWhile_append_of_pos hmargin,
    List.dropWhile_append_of_pos hmargin, hmore]
  simp [hc]

theorem not_mem_margin (hmargin : ∀ c ∈ margin, Text.isBlank c = true) {c : Char}
    (hc : Text.isBlank c = false) : c ∉ margin := by
  intro hmem
  rw [hmargin c hmem] at hc
  cases hc

theorem not_mem_margin_append (hmargin : ∀ c ∈ margin, Text.isBlank c = true) (hplain : IsPlain d)
    {c : Char} (hc : c = '\n' ∨ c = '\r') : c ∉ margin ++ d.toList := by
  rw [List.mem_append, not_or]
  refine ⟨not_mem_margin hmargin ?_, hplain.not_mem (.inr hc)⟩
  obtain rfl | rfl := hc <;> decide

/-- What follows the delimiter on a line of a comment is separated from it. -/
theorem isSeparated_gapOfLine {line s : List Char}
    (hs : (∀ c ∈ line, c = '\r' ∨ c = '\n') → ∀ c ∈ s.head?, c = '\r' ∨ c = '\n') :
    isSeparated (gapOfLine line ++ s) = true := by
  rcases gapOfLine_cases line with hgap | ⟨hgap, hline⟩
  · rw [hgap]
    rfl
  · rw [hgap, List.nil_append]
    cases s with
    | nil => rfl
    | cons c s => rcases hs hline c rfl with rfl | rfl <;> rfl

/-- Each line of a line comment begins with its indent and delimiter. -/
theorem exists_sourceOfLines_eq (e : LineEnding) (hmargin : ∀ c ∈ margin, Text.isBlank c = true)
    (hd : IsPlain d) (hprose : prose ≠ []) :
    ∃ s, spread e (sourceOfLines margin d.toList prose) = margin ++ (d.toList ++ s) ∧
      isSeparated s = true ∧ s ≠ [] := by
  have hfeed := not_mem_margin hmargin (c := '\n') (by decide)
  have hdelimiter := hd.not_mem (c := '\n') (by simp)
  induction prose using Text.lines_induction with
  | nil => exact absurd rfl hprose
  | last w hne hw =>
    rw [sourceOfLines_last hne hw,
      LineEnding.spread_of_not_mem e (not_mem_append_gap hfeed hdelimiter w hw)]
    refine ⟨gapOfLine w ++ w, by simp, isSeparated_gapOfLine fun hall c hc => ?_, by simp [hne]⟩
    exact hall c (List.mem_of_mem_head? hc)
  | line w s hw =>
    rw [sourceOfLines_line hw,
      spread_line e (not_mem_append_gap hfeed hdelimiter (w ++ ['\n']) hw)]
    refine ⟨gapOfLine (w ++ ['\n']) ++ (w ++ returns e ++
      '\n' :: spread e (sourceOfLines margin d.toList s)), by simp only [List.append_assoc],
      isSeparated_gapOfLine fun hall c hc => ?_, by simp⟩
    cases w with
    | nil =>
      cases e with
      | lf => exact .inr (by simpa [returns] using hc.symm)
      | crlf => exact .inl (by simpa [returns] using hc.symm)
    | cons x w =>
      obtain rfl : x = c := by simpa using hc
      exact hall x (by simp)

/-- A line comment is found again in its source, whatever its line endings are. -/
theorem parse?_sourceOfLines (hp : p.HasPlainComments) (hd : d ∈ p.lineComments)
    (hmargin : ∀ c ∈ margin, Text.isBlank c = true) (hprose : prose ≠ []) :
    parse? p (String.ofList (spread e (sourceOfLines margin d.toList prose))) =
      some ⟨String.ofList margin, d, String.ofList (spread e prose)⟩ := by
  have hplain := hp.line d hd
  obtain ⟨s, hs, hseparated, -⟩ := exists_sourceOfLines_eq e hmargin hplain hprose
  have hlines := flatMap_proseOfLine_spread e (not_mem_margin hmargin (c := '\n') (by decide))
    (hplain.not_mem (c := '\n') (by simp)) prose
  rw [hs] at hlines ⊢
  obtain ⟨hindent, hunindented⟩ := indent_append_plain hmargin hplain s
  rw [parse?_ofList p [], hunindented, hindent, hp.lineComment?_append hd hseparated]
  simp only [hlines]

theorem parse?_append_delimiter (hp : p.HasPlainComments) (hd : d ∈ p.lineComments)
    (hmargin : ∀ c ∈ margin, Text.isBlank c = true) :
    parse? p (String.ofList (margin ++ d.toList)) = some ⟨String.ofList margin, d, ""⟩ := by
  have hplain := hp.line d hd
  obtain ⟨hindent, hunindented⟩ := indent_append_plain hmargin hplain []
  have hline := hp.lineComment?_append (k := []) hd (s := []) rfl
  rw [List.append_nil] at hindent hunindented hline
  have hfeed := not_mem_margin_append hmargin hplain (.inl rfl)
  have hprose : proseOfLine margin d.toList (margin ++ d.toList) = [] := by
    have happend : proseOfLine margin d.toList (margin ++ d.toList ++ [] ++ []) = [] :=
      proseOfLine_append (.inr ⟨rfl, by simp⟩)
    simpa using happend
  rw [parse?_ofList p [], hunindented, hindent, hline]
  simp only [Text.lines_last (by simp [hplain.1]) hfeed, List.flatMap_singleton, hprose,
    String.ofList_nil]

/-- The prose of a block comment that stands between its delimiters. -/
def bodyOfBlock (prose : List Char) : List Char :=
  (Text.beforeSuffix? ['\n'] prose).getD prose

/-- The line feed that goes from the end of the prose behind the closing delimiter. -/
def tailOfBlock (prose : List Char) : List Char :=
  if (Text.beforeSuffix? ['\n'] prose).isSome then ['\n'] else []

/-- What stands between the prose and the closing delimiter. -/
def gapOfBlock (body : List Char) : List Char :=
  if body.isEmpty then [] else [' ']

theorem bodyOfBlock_append_tailOfBlock (prose : List Char) :
    bodyOfBlock prose ++ tailOfBlock prose = prose := by
  rw [bodyOfBlock, tailOfBlock]
  cases h : Text.beforeSuffix? ['\n'] prose with
  | none => simp
  | some body => simpa using (Text.beforeSuffix?_eq_some_iff.1 h).symm

theorem tailOfBlock_cases (prose : List Char) :
    tailOfBlock prose = [] ∨ tailOfBlock prose = ['\n'] := by
  rw [tailOfBlock]
  split
  · exact .inr rfl
  · exact .inl rfl

/-- The source text of a block comment between its indent and the end of its line. -/
def bodySource (e : LineEnding) (margin body : List Char) : List Char :=
  ' ' :: (spread e (innerOfBlock margin body) ++ gapOfBlock body)

theorem sourceOfBlock_eq (margin opening closing prose : List Char) :
    sourceOfBlock margin opening closing prose =
      margin ++ opening ++ [' '] ++ innerOfBlock margin (bodyOfBlock prose) ++
        gapOfBlock (bodyOfBlock prose) ++ closing ++ tailOfBlock prose := rfl

theorem eq_space_of_mem_gapOfBlock {c : Char} {body : List Char} (hc : c ∈ gapOfBlock body) :
    c = ' ' := by
  rw [gapOfBlock] at hc
  split at hc
  · cases hc
  · exact List.mem_singleton.1 hc

theorem mem_sourceOfBlock {c : Char} {opening closing : List Char}
    (hc : c ∈ sourceOfBlock margin opening closing prose) :
    c = '\n' ∨ c ∈ margin ∨ c ∈ opening ∨ c = ' ' ∨ c ∈ closing ∨ c ∈ prose := by
  have hprose : c ∈ bodyOfBlock prose ∨ c ∈ tailOfBlock prose → c ∈ prose := by
    rw [← List.mem_append, bodyOfBlock_append_tailOfBlock]
    exact id
  rw [sourceOfBlock_eq] at hc
  simp only [List.mem_append, List.mem_singleton] at hc
  obtain (((((hmargin | hopening) | hspace) | hinner) | hgap) | hclosing) | htail := hc
  · exact .inr (.inl hmargin)
  · exact .inr (.inr (.inl hopening))
  · exact .inr (.inr (.inr (.inl hspace)))
  · obtain hfeed | hmargin | hbody := mem_innerOfBlock hinner
    · exact .inl hfeed
    · exact .inr (.inl hmargin)
    · exact .inr (.inr (.inr (.inr (.inr (hprose (.inl hbody))))))
  · exact .inr (.inr (.inr (.inl (eq_space_of_mem_gapOfBlock hgap))))
  · exact .inr (.inr (.inr (.inr (.inl hclosing))))
  · exact .inr (.inr (.inr (.inr (.inr (hprose (.inr htail))))))

theorem spread_sourceOfBlock (e : LineEnding) (hmargin : '\n' ∉ margin)
    (hopening : '\n' ∉ b.opening.toList) (hclosing : '\n' ∉ closing.toList)
    (prose : List Char) :
    spread e (sourceOfBlock margin b.opening.toList closing.toList prose) =
      margin ++ (b.opening.toList ++ (bodySource e margin (bodyOfBlock prose) ++ closing.toList ++
        spread e (tailOfBlock prose))) := by
  have hgap : '\n' ∉ gapOfBlock (bodyOfBlock prose) := fun hfeed =>
    absurd (eq_space_of_mem_gapOfBlock hfeed) (by decide)
  rw [sourceOfBlock_eq]
  simp only [LineEnding.spread_append, LineEnding.spread_of_not_mem e hmargin,
    LineEnding.spread_of_not_mem e hopening, LineEnding.spread_of_not_mem e hclosing,
    LineEnding.spread_of_not_mem e hgap, bodySource]
  simp [spread]

theorem dropLastSpace_bodySource (e : LineEnding) (margin body : List Char) :
    dropLastSpace (Text.dropPrefix [' '] (bodySource e margin body)) =
      spread e (innerOfBlock margin body) := by
  have hdrop : Text.dropPrefix [' '] (bodySource e margin body) =
      spread e (innerOfBlock margin body) ++ gapOfBlock body := Text.dropPrefix_append [' '] _
  rw [hdrop, gapOfBlock]
  cases body with
  | nil => rfl
  | cons c body =>
    rw [List.isEmpty_cons, if_neg Bool.false_ne_true, dropLastSpace,
      Text.beforeSuffix?_eq_some_iff.2 rfl, Option.getD_some]

/-- Nothing of a plain closing delimiter stands in a block comment before it. -/
theorem not_infix_bodySource (hmargin : ∀ c ∈ margin, Text.isBlank c = true)
    (hclosing : IsPlain closing) {body : List Char} (hbody : ¬ closing.toList <:+: body) :
    ¬ closing.toList <:+: bodySource e margin body ++ closing.toList.dropLast := by
  have hspace : ' ' ∉ closing.toList := hclosing.not_mem (.inl rfl)
  have hnil : ¬ closing.toList <:+: [] := by simpa using hclosing.1
  have hshort : ¬ closing.toList <:+: closing.toList.dropLast := by
    intro h
    have hlen := h.length_le
    have hpos := List.length_pos_iff.2 hclosing.1
    rw [List.length_dropLast] at hlen
    omega
  have hinner : ¬ closing.toList <:+: spread e (innerOfBlock margin body) := fun h =>
    hbody (infix_of_infix_innerOfBlock hmargin (fun c hc => hclosing.not_mem (.inl (hmargin c hc)))
      (hclosing.not_mem (by simp)) (hclosing.not_mem (by simp)) h)
  intro h
  rw [bodySource, List.cons_append, ← List.nil_append (' ' :: _),
    Text.infix_append_cons_iff hspace] at h
  have h := h.resolve_left hnil
  rw [gapOfBlock] at h
  split at h
  · rename_i hempty
    obtain rfl : body = [] := List.isEmpty_iff.1 hempty
    exact hshort h
  · rw [List.append_assoc, List.singleton_append, Text.infix_append_cons_iff hspace] at h
    exact h.elim hinner hshort

theorem not_infix_tail (hclosing : IsPlain closing) (prose : List Char) :
    ¬ closing.toList <:+: (closing.toList ++ spread e (tailOfBlock prose)).tail := by
  have hshort : ¬ closing.toList <:+: closing.toList.tail := by
    intro h
    have hlen := h.length_le
    have hpos := List.length_pos_iff.2 hclosing.1
    rw [List.length_tail] at hlen
    omega
  intro h
  rw [List.tail_append_of_ne_nil hclosing.1] at h
  rcases tailOfBlock_cases prose with htail | htail
  · rw [htail, LineEnding.spread_nil, List.append_nil] at h
    exact hshort h
  · rw [htail, LineEnding.spread_feed, chars_eq, LineEnding.spread_nil, List.append_nil,
      ← List.append_assoc] at h
    rcases infix_of_infix_append_returns (hclosing.not_mem (by simp))
      (hclosing.not_mem (by simp)) h with h | h
    · exact hshort h
    · exact hclosing.1 (List.infix_nil.1 h)

/-- A block comment is found again in its source, whatever its line endings are. Only the line feed
    at the end of its prose is found as such. -/
theorem parse?_sourceOfBlock (hp : p.HasPlainComments) (hb : b ∈ p.blockComments)
    (hclosing : p.closingFor? b.opening = some closing)
    (hmargin : ∀ c ∈ margin, Text.isBlank c = true) :
    parse? p (String.ofList
      (spread e (sourceOfBlock margin b.opening.toList closing.toList prose))) =
      some ⟨String.ofList margin, b.opening,
        String.ofList (spread e (bodyOfBlock prose) ++ tailOfBlock prose)⟩ := by
  obtain ⟨b', hb', hsame, hopens, hfor⟩ := hp.blockComment?_append (k := []) hb
    (s := bodySource e margin (bodyOfBlock prose) ++ closing.toList ++
      spread e (tailOfBlock prose)) rfl
  obtain rfl : closing = b'.closing := Option.some.inj (hclosing.symm.trans hfor)
  have hplain := hp.closing b' hb'
  obtain ⟨hindent, hunindented⟩ := indent_append_plain hmargin (hp.opening b hb)
    (bodySource e margin (bodyOfBlock prose) ++ b'.closing.toList ++ spread e (tailOfBlock prose))
  rw [spread_sourceOfBlock e (not_mem_margin hmargin (by decide))
    ((hp.opening b hb).not_mem (by simp)) (hplain.not_mem (by simp)), parse?_ofList p [],
    hunindented, hindent, hp.lineComment?_eq_none hb rfl, hopens]
  simp only [Option.bind_some, hsame, List.drop_left' String.length_toList,
    Text.splitLast?_append hplain.1 (not_infix_tail hplain prose), Option.map_some, proseOfBlock,
    dropLastSpace_bodySource, intercalate_dropIndents_inner e hmargin]
  rcases tailOfBlock_cases prose with htail | htail
  · simp [htail]
  · simp [htail, chars_eq]

theorem cutLine_line {w : List Char} (hw : '\n' ∉ w) (s : List Char) :
    Text.cutLine (w ++ '\n' :: s) = (w ++ ['\n'], s) := by
  have hall : ∀ c ∈ w, (c != '\n') = true := by
    intro c hc
    rw [bne_iff_ne]
    rintro rfl
    exact hw hc
  rw [Text.cutLine, List.takeWhile_append_of_pos hall, List.dropWhile_append_of_pos hall]
  simp

theorem cutLine_last {w : List Char} (hw : '\n' ∉ w) : Text.cutLine w = (w, []) := by
  have hall : ∀ c ∈ w, (c != '\n') = true := by
    intro c hc
    rw [bne_iff_ne]
    rintro rfl
    exact hw hc
  rw [Text.cutLine, List.takeWhile_eq_self_iff.2 hall, List.dropWhile_eq_nil_iff.2 hall]
  simp

theorem cutDocLines_step (hp : p.HasPlainComments) (hd : d ∈ p.lineComments)
    (hmargin : ∀ c ∈ margin, Text.isBlank c = true) {s : List Char} (hs : isSeparated s = true)
    (before : List Char) :
    (p.grammarWith k).cutDocLines margin d before (margin ++ (d.toList ++ s)) =
      (p.grammarWith k).cutDocLines margin d
        ((Text.cutLine (margin ++ (d.toList ++ s))).1.reverseAux before)
        (Text.cutLine (margin ++ (d.toList ++ s))).2 := by
  obtain ⟨hindent, hunindented⟩ := indent_append_plain hmargin (hp.line d hd) s
  have hdoc := hp.docDelimiter?_append (k := k) hd hs
  rw [← hunindented] at hdoc
  have hne : margin ++ (d.toList ++ s) ≠ [] := by simp [(hp.line d hd).1]
  rw [cutDocLines, if_pos ⟨hne, hindent, hdoc⟩]

theorem cutDocLines_stop {g : Grammar} {before : List Char}
    (hrest : rest ≠ [] →
      ¬ (Grammar.indent rest = margin ∧ g.docDelimiter? (unindented rest) = some d)) :
    g.cutDocLines margin d before rest = (before.reverse, rest) := by
  rw [cutDocLines, if_neg fun h => hrest h.1 h.2]

/-- The lines of a line comment are one run of doc lines, which goes on to the end of the
    comment. -/
theorem cutDocLines_sourceOfLines (hp : p.HasPlainComments) (hd : d ∈ p.lineComments)
    (hmargin : ∀ c ∈ margin, Text.isBlank c = true)
    (hrest : rest ≠ [] →
      ¬ (Grammar.indent rest = margin ∧ (p.grammarWith k).docDelimiter? (unindented rest) = some d))
    (hends : prose ≠ [] → rest ≠ [] → EndsLine prose) (before : List Char) :
    (p.grammarWith k).cutDocLines margin d before
      (spread e (sourceOfLines margin d.toList prose) ++ rest) =
        (before.reverse ++ spread e (sourceOfLines margin d.toList prose), rest) := by
  have hfeed := not_mem_margin hmargin (c := '\n') (by decide)
  have hdelimiter := (hp.line d hd).not_mem (c := '\n') (by simp)
  induction prose using Text.lines_induction generalizing before with
  | nil => simp [sourceOfLines, Text.lines, cutDocLines_stop hrest]
  | last w hne hw =>
    obtain rfl : rest = [] := by
      by_contra hnil
      exact hw (hends hne hnil).mem
    have hline := not_mem_append_gap hfeed hdelimiter w hw
    obtain ⟨s, hs, hseparated, -⟩ := exists_sourceOfLines_eq e hmargin (hp.line d hd) hne
    rw [List.append_nil, hs, cutDocLines_step hp hd hmargin hseparated, ← hs,
      sourceOfLines_last hne hw, LineEnding.spread_of_not_mem e hline, cutLine_last hline,
      cutDocLines_stop (by simp)]
    simp [List.reverseAux_eq]
  | line w s hw ih =>
    have hreturns := not_mem_append_returns e
      (not_mem_append_gap hfeed hdelimiter (w ++ ['\n']) hw)
    have hprose : w ++ '\n' :: s ≠ [] := by simp
    obtain ⟨t, ht, hseparated, hne⟩ := exists_sourceOfLines_eq e hmargin (hp.line d hd) hprose
    have hnext := ih (fun hs hnil => by
      have hwhole := hends hprose hnil
      rw [EndsLine, List.getLast?_append_of_ne_nil _ (List.cons_ne_nil _ s)] at hwhole
      exact EndsLine.of_cons hwhole hs)
    have hcut : Text.cutLine (margin ++ (d.toList ++ (t ++ rest))) =
        (margin ++ d.toList ++ gapOfLine (w ++ ['\n']) ++ w ++ returns e ++ ['\n'],
          spread e (sourceOfLines margin d.toList s) ++ rest) := by
      rw [← List.append_assoc d.toList, ← List.append_assoc margin, ← ht, sourceOfLines_line hw,
        spread_line e (not_mem_append_gap hfeed hdelimiter (w ++ ['\n']) hw), List.append_assoc,
        List.cons_append, cutLine_line hreturns]
    rw [ht, List.append_assoc, List.append_assoc, cutDocLines_step hp hd hmargin
      (by rwa [isSeparated_append hne]), hcut, hnext, ← ht, sourceOfLines_line hw,
      spread_line e (not_mem_append_gap hfeed hdelimiter (w ++ ['\n']) hw)]
    simp [List.reverseAux_eq]

theorem cutDocRun?_sourceOfLines (hp : p.HasPlainComments) (hd : d ∈ p.lineComments)
    (hmargin : ∀ c ∈ margin, Text.isBlank c = true)
    (hrest : rest ≠ [] →
      ¬ (Grammar.indent rest = margin ∧ (p.grammarWith k).docDelimiter? (unindented rest) = some d))
    (hprose : prose ≠ []) (hends : rest ≠ [] → EndsLine prose) :
    (p.grammarWith k).cutDocRun? (spread e (sourceOfLines margin d.toList prose) ++ rest) =
      .ok (some (spread e (sourceOfLines margin d.toList prose), rest)) := by
  have hlines := cutDocLines_sourceOfLines (e := e) hp hd hmargin hrest (fun _ => hends) []
  obtain ⟨s, hs, hseparated, hne⟩ := exists_sourceOfLines_eq e hmargin (hp.line d hd) hprose
  obtain ⟨hindent, hunindented⟩ := indent_append_plain hmargin (hp.line d hd) (s ++ rest)
  have hdoc := hp.docDelimiter?_append (k := k) hd (s := s ++ rest)
    (by rwa [isSeparated_append hne])
  rw [hs, List.append_assoc, List.append_assoc] at hlines ⊢
  simp only [cutDocRun?, hunindented, hdoc, hindent, hlines]
  rfl

theorem cutDocRun?_append_delimiter (hp : p.HasPlainComments) (hd : d ∈ p.lineComments)
    (hmargin : ∀ c ∈ margin, Text.isBlank c = true) :
    (p.grammarWith k).cutDocRun? (margin ++ d.toList) = .ok (some (margin ++ d.toList, [])) := by
  have hplain := hp.line d hd
  obtain ⟨hindent, hunindented⟩ := indent_append_plain hmargin hplain []
  have hdoc := hp.docDelimiter?_append (k := k) hd (s := []) rfl
  have hstep := cutDocLines_step (k := k) hp hd hmargin (s := []) rfl []
  rw [List.append_nil] at hindent hunindented hdoc hstep
  have hfeed := not_mem_margin_append hmargin hplain (.inl rfl)
  have hstop : (p.grammarWith k).cutDocLines margin d ((margin ++ d.toList).reverseAux []) [] =
      (((margin ++ d.toList).reverseAux []).reverse, []) := cutDocLines_stop fun h => absurd rfl h
  rw [cutLine_last hfeed] at hstep
  simp only [cutDocRun?, hunindented, hdoc, hindent, hstep.trans hstop]
  simp [List.reverseAux_eq]

theorem cutLineEnd?_tailOfBlock (e : LineEnding) (hrest : tailOfBlock prose = [] → rest = []) :
    cutLineEnd? (spread e (tailOfBlock prose) ++ rest) =
      some (spread e (tailOfBlock prose), rest) := by
  rcases tailOfBlock_cases prose with htail | htail
  · rw [htail, hrest htail]
    rfl
  · rw [htail]
    cases e <;> simp [cutLineEnd?, spread, LineEnding.chars, Text.isBlank]

/-- A block comment is one doc run, if its closing delimiter does not stand in its prose. -/
theorem cutDocRun?_sourceOfBlock (hp : p.HasPlainComments) (hb : b ∈ p.blockComments)
    (hclosing : p.closingFor? b.opening = some closing)
    (hmargin : ∀ c ∈ margin, Text.isBlank c = true) (hnot : ¬ closing.toList <:+: prose)
    (hrest : tailOfBlock prose = [] → rest = []) :
    (p.grammarWith k).cutDocRun?
      (spread e (sourceOfBlock margin b.opening.toList closing.toList prose) ++ rest) =
        .ok (some (spread e (sourceOfBlock margin b.opening.toList closing.toList prose),
          rest)) := by
  obtain ⟨b', hb', hsame, hopens, hfor⟩ := hp.blockComment?_append (k := k) hb
    (s := bodySource e margin (bodyOfBlock prose) ++ closing.toList ++
      (spread e (tailOfBlock prose) ++ rest)) rfl
  obtain rfl : closing = b'.closing := Option.some.inj (hclosing.symm.trans hfor)
  have hplain := hp.closing b' hb'
  obtain ⟨hindent, hunindented⟩ := indent_append_plain hmargin (hp.opening b hb)
    (bodySource e margin (bodyOfBlock prose) ++ b'.closing.toList ++
      (spread e (tailOfBlock prose) ++ rest))
  have hbody : ¬ b'.closing.toList <:+: bodyOfBlock prose := by
    rw [← bodyOfBlock_append_tailOfBlock prose] at hnot
    exact fun h => hnot (h.trans (List.prefix_append _ _).isInfix)
  have hsplit := Text.splitFirst?_append (not_infix_bodySource (e := e) hmargin hplain hbody)
    (spread e (tailOfBlock prose) ++ rest)
  have hcut := cutBlockComment_append hsplit
  have hdoc : (p.grammarWith k).docDelimiter? (b.opening.toList ++
      (bodySource e margin (bodyOfBlock prose) ++ b'.closing.toList ++
        (spread e (tailOfBlock prose) ++ rest))) = none := by
    rw [docDelimiter?, hp.lineComment?_eq_none hb rfl]
  rw [spread_sourceOfBlock e (not_mem_margin hmargin (by decide))
    ((hp.opening b hb).not_mem (by simp)) (hplain.not_mem (by simp)), List.append_assoc margin,
    List.append_assoc b.opening.toList, List.append_assoc _ (spread e (tailOfBlock prose)) rest]
  rw [hsame] at hcut
  have hseparated : isSeparated (bodySource e margin (bodyOfBlock prose) ++ b'.closing.toList ++
      (spread e (tailOfBlock prose) ++ rest)) = true := rfl
  simp only [cutDocRun?, hunindented, hdoc, hopens, hindent, hsame, hcut, Except.map,
    List.drop_left' String.length_toList, cutLineEnd?_tailOfBlock e hrest, Option.map_some]
  rw [if_pos hseparated]
  simp only [List.append_assoc]

end LiterateSync.DocComment
