import LiterateSync.Proofs.DocComment
import LiterateSync.Proofs.Document.View
import LiterateSync.Text.Pattern.Library

namespace LiterateSync

namespace LineEnding

variable {w : List Char}

theorem not_crlf_prefix_of {c : Char} {s : List Char}
    (h : ∀ t, c = '\r' → s = '\n' :: t → False) : ¬ crlf.chars <+: c :: s := by
  rintro ⟨t, heq⟩
  cases heq
  exact h t rfl rfl

theorem feed_prefix_toLf_iff (s : List Char) :
    ['\n'] <+: toLf s ↔ ['\n'] <+: s ∨ crlf.chars <+: s := by
  fun_cases toLf s with
  | case1 s =>
    exact iff_of_true (List.prefix_append ['\n'] _) (.inr (List.prefix_append crlf.chars s))
  | case2 c s hnot =>
    rw [or_iff_left (not_crlf_prefix_of hnot), List.cons_prefix_cons, List.cons_prefix_cons]
    simp only [List.nil_prefix]
  | case3 => simp [chars]

/-- A line feed is behind a carriage return even then if it was behind two. -/
theorem crlf_infix_toLf_iff (s : List Char) :
    crlf.chars <:+: toLf s ↔ '\r' :: crlf.chars <:+: s := by
  simp only [chars]
  fun_induction toLf s with
  | case1 s ih =>
    rw [List.infix_cons_iff, List.infix_cons_iff, List.infix_cons_iff, ih]
    simp [List.cons_prefix_cons]
  | case2 c s hnot ih =>
    have hfeed : c = '\r' → ¬ ['\n'] <+: s := by
      rintro rfl ⟨t, heq⟩
      exact hnot t rfl heq.symm
    rw [List.infix_cons_iff, List.infix_cons_iff, ih, List.cons_prefix_cons, List.cons_prefix_cons,
      feed_prefix_toLf_iff]
    refine or_congr_left (and_congr_right fun hc => ?_)
    rw [or_iff_right (hfeed hc.symm), chars]
  | case3 => simp

theorem toLf_eq_self_iff (s : List Char) : toLf s = s ↔ ¬ crlf.chars <:+: s := by
  fun_induction toLf s with
  | case1 s =>
    refine iff_of_false (fun h => ?_) fun h => h (List.prefix_append crlf.chars s).isInfix
    cases (List.cons.inj h).1
  | case2 c s hnot ih =>
    rw [List.cons.injEq, and_iff_right rfl, ih, List.infix_cons_iff,
      or_iff_right (not_crlf_prefix_of hnot)]
  | case3 => simp [chars]

theorem head?_spread_crlf (s : List Char) : (spread .crlf s).head? ≠ some '\n' := by
  cases s with
  | nil => simp
  | cons c s =>
    by_cases hc : c = '\n'
    · rw [hc, spread_feed]
      simp [chars]
    · rw [spread_cons .crlf s hc]
      simpa using hc

/-- Each line feed of a text written with carriage returns gives up the one that was put there. -/
theorem toLf_spread_crlf (s : List Char) : toLf (spread .crlf s) = s := by
  induction s with
  | nil => rfl
  | cons c s ih =>
    by_cases hc : c = '\n'
    · subst hc
      rw [spread_feed, chars, List.cons_append, List.singleton_append, toLf, ih]
    · rw [spread_cons .crlf s hc, toLf, ih]
      rintro t rfl heq
      exact head?_spread_crlf s (by rw [heq, List.head?_cons])

/-- A carriage return stands before each line feed that was written with one. -/
theorem getLast?_of_spread_crlf {s before after : List Char}
    (h : spread .crlf s = before ++ '\n' :: after) : before.getLast? = some '\r' := by
  induction s generalizing before with
  | nil => cases before <;> cases h
  | cons c s ih =>
    by_cases hc : c = '\n'
    · rw [hc, spread_feed, chars, List.cons_append, List.singleton_append] at h
      rcases before with _ | ⟨d, _ | ⟨d', before⟩⟩
      · cases h
      · rw [List.singleton_append] at h
        rw [List.getLast?_singleton, (List.cons.inj h).1]
      · rw [List.cons_append, List.cons_append, List.cons.injEq, List.cons.injEq] at h
        have hlast := ih h.2.2
        rw [List.getLast?_cons_cons, List.getLast?_cons, hlast]
        rfl
    · rw [spread_cons .crlf s hc] at h
      cases before with
      | nil => exact absurd (List.cons.inj h).1 hc
      | cons d before =>
        rw [List.getLast?_cons, ih (List.cons.inj h).2]
        rfl

theorem head?_append_ne_feed {c : Char} {t : List Char} (hw : '\n' ∉ c :: w)
    (h : ['\r'] <:+ c :: w → t.head? ≠ some '\n') (hc : c = '\r') :
    (w ++ t).head? ≠ some '\n' := by
  cases w with
  | nil => exact h (by rw [hc])
  | cons d w =>
    rintro heq
    cases heq
    simp at hw

/-- The characters of a line stay if no line ending begins among them. -/
theorem toLf_append_of_not_mem {t : List Char} (hw : '\n' ∉ w)
    (h : ['\r'] <:+ w → t.head? ≠ some '\n') : toLf (w ++ t) = w ++ toLf t := by
  induction w with
  | nil => rfl
  | cons c w ih =>
    have hhead := head?_append_ne_feed hw h
    rw [List.mem_cons, not_or] at hw
    rw [List.cons_append, toLf, ih hw.2 fun hend => h (hend.trans (List.suffix_cons c w)),
      List.cons_append]
    rintro s' rfl heq
    exact hhead rfl (by rw [heq, List.head?_cons])

theorem ofChars_append_of_not_mem {t : List Char} (hw : '\n' ∉ w)
    (h : ['\r'] <:+ w → t.head? ≠ some '\n') : ofChars (w ++ t) = ofChars t := by
  induction w with
  | nil => rfl
  | cons c w ih =>
    have hhead := head?_append_ne_feed hw h
    rw [List.mem_cons, not_or] at hw
    rw [List.cons_append, ofChars_cons (Ne.symm hw.1) hhead,
      ih hw.2 fun hend => h (hend.trans (List.suffix_cons c w))]

/-- The first line of a text decides about its style. -/
theorem ofChars_line (hw : '\n' ∉ w) (s : List Char) :
    ofChars (w ++ '\n' :: s) = if ['\r'] <:+ w then .crlf else .lf := by
  split
  · rename_i hend
    obtain ⟨u, rfl⟩ := hend
    rw [List.mem_append, not_or] at hw
    rw [List.append_assoc, ofChars_append_of_not_mem hw.1 fun _ => by simp]
    rfl
  · rename_i hend
    rw [ofChars_append_of_not_mem hw fun h => absurd h hend]
    rfl

/-- A line loses the last carriage return before its end. -/
theorem exists_toLf_line (hw : '\n' ∉ w) (s : List Char) :
    ∃ u, toLf (w ++ '\n' :: s) = u ++ '\n' :: toLf s ∧ '\n' ∉ u ∧
      (['\r'] <:+ u ↔ ['\r', '\r'] <:+ w) := by
  by_cases hend : ['\r'] <:+ w
  · obtain ⟨u, rfl⟩ := hend
    rw [List.mem_append, not_or] at hw
    have hends : ['\r'] ++ ['\r'] <:+ u ++ ['\r'] ↔ ['\r'] <:+ u := by
      rw [List.suffix_append_inj_of_length_eq rfl, and_iff_left rfl]
    refine ⟨u, ?_, hw.1, hends.symm⟩
    rw [List.append_assoc, toLf_append_of_not_mem hw.1 fun _ => by simp]
    rfl
  · refine ⟨w, ?_, hw, iff_of_false hend fun h => ?_⟩
    · rw [toLf_append_of_not_mem hw fun h => absurd h hend, toLf_cons (by decide)]
    · exact hend ((List.suffix_append ['\r'] ['\r']).trans h)

end LineEnding

namespace DocComment

variable {needle s : List Char}

theorem dropPrefix_suffix (x s : List Char) : Text.dropPrefix x s <:+ s := by
  rw [Text.dropPrefix]
  cases hfound : Text.afterPrefix? x s with
  | none => exact List.suffix_rfl
  | some r => exact Text.suffix_of_afterPrefix? hfound

theorem proseOfLine_suffix (indent delimiter line : List Char) :
    proseOfLine indent delimiter line <:+ line :=
  ((dropPrefix_suffix _ _).trans (dropPrefix_suffix _ _)).trans (dropPrefix_suffix _ _)

theorem isPrefix_dropLastSpace (s : List Char) : dropLastSpace s <+: s := by
  rw [dropLastSpace]
  cases hfound : Text.beforeSuffix? [' '] s with
  | none => exact List.prefix_rfl
  | some b => exact ⟨[' '], (Text.beforeSuffix?_eq_some_iff.1 hfound).symm⟩

/-- Lines that are cut at their fronts meet nowhere but at their line feeds. -/
theorem infix_of_infix_flatMap_lines {f : List Char → List Char} (hf : ∀ line, f line <:+ line)
    (hneedle : '\n' ∉ needle) (h : needle <:+: (Text.lines s).flatMap f) : needle <:+: s := by
  induction s using Text.lines_induction with
  | nil => exact h
  | last w hne hw =>
    rw [Text.lines_last hne hw, List.flatMap_singleton] at h
    exact h.trans (hf w).isInfix
  | line w s hw ih =>
    rw [Text.lines_line hw, List.flatMap_cons] at h
    rw [Text.infix_append_cons_iff hneedle]
    rcases List.suffix_concat_iff.1 (hf (w ++ ['\n'])) with hnil | ⟨t, hline, ht⟩
    · rw [hnil, List.nil_append] at h
      exact .inr (ih h)
    · rw [hline, List.append_assoc, List.singleton_append, Text.infix_append_cons_iff hneedle] at h
      exact h.imp (·.trans ht.isInfix) ih

theorem infix_of_infix_intercalate {fields : List (List Char)}
    (hfields : List.Forall₂ (· <:+ ·) fields (Text.fields '\n' s)) (hneedle : '\n' ∉ needle)
    (h : needle <:+: ['\n'].intercalate fields) : needle <:+: s := by
  have hlast : ∀ {w fields}, '\n' ∉ w → List.Forall₂ (· <:+ ·) fields (Text.fields '\n' w) →
      needle <:+: ['\n'].intercalate fields → needle <:+: w := by
    intro w fields hw hfields h
    rw [Text.fields_last hw, List.forall₂_cons_right_iff] at hfields
    obtain ⟨x, xs, hx, hxs, rfl⟩ := hfields
    cases hxs
    rw [List.intercalate_singleton] at h
    exact h.trans hx.isInfix
  induction s using Text.lines_induction generalizing fields with
  | nil => exact hlast (by simp) hfields h
  | last w _ hw => exact hlast hw hfields h
  | line w s hw ih =>
    rw [Text.fields_line hw, List.forall₂_cons_right_iff] at hfields
    obtain ⟨x, xs, hx, hxs, rfl⟩ := hfields
    have hne : xs ≠ [] := by
      rintro rfl
      exact Text.fields_ne_nil s (List.forall₂_nil_left_iff.1 hxs)
    rw [intercalate_cons _ _ hne, List.append_assoc, List.singleton_append,
      Text.infix_append_cons_iff hneedle] at h
    rw [Text.infix_append_cons_iff hneedle]
    exact h.imp (·.trans hx.isInfix) (ih hxs)

theorem forall₂_dropIndents (indent : List Char) (lines : List (List Char)) :
    List.Forall₂ (· <:+ ·) (dropIndents indent lines) lines := by
  cases lines with
  | nil => exact .nil
  | cons line lines =>
    refine .cons List.suffix_rfl (List.forall₂_map_left_iff.2 (List.forall₂_same.2 ?_))
    exact fun line _ => dropPrefix_suffix indent line

theorem infix_of_infix_proseOfBlock {indent inner tail : List Char} (hneedle : '\n' ∉ needle)
    (h : needle <:+: proseOfBlock indent inner tail) : needle <:+: inner := by
  have hinner : ∀ {x}, needle <:+: ['\n'].intercalate (dropIndents indent (Text.fields '\n' x)) →
      needle <:+: x := infix_of_infix_intercalate (forall₂_dropIndents indent _) hneedle
  have hcut := (isPrefix_dropLastSpace (Text.dropPrefix [' '] inner)).isInfix.trans
    (dropPrefix_suffix [' '] inner).isInfix
  unfold proseOfBlock at h
  simp only at h
  split at h
  · rcases (Text.infix_append_cons_iff hneedle).1 h with h | h
    · exact (hinner h).trans hcut
    · exact h.trans List.nil_infix
  · exact (hinner h).trans hcut

/-- What stands on one line of the prose of a comment stands in the source of the comment. -/
theorem infix_of_parse? {p : Profile} {raw : String} {comment : DocComment}
    (h : parse? p raw = some comment) (hneedle : '\n' ∉ needle)
    (hcontents : needle <:+: comment.contents.toList) : needle <:+: raw.toList := by
  rw [← String.ofList_toList (s := raw), Grammar.parse?_ofList p []] at h
  split at h
  · cases h
    rw [String.toList_ofList] at hcontents
    exact infix_of_infix_flatMap_lines (proseOfLine_suffix _ _) hneedle hcontents
  · obtain ⟨b, -, hfound⟩ := Option.bind_eq_some_iff.1 h
    obtain ⟨⟨inner, tail⟩, hsplit, rfl⟩ := Option.map_eq_some_iff.1 hfound
    rw [String.toList_ofList] at hcontents
    refine (infix_of_infix_proseOfBlock hneedle hcontents).trans ?_
    have hbody := Text.append_of_splitLast? hsplit
    have hwithin : inner <:+: (Grammar.unindented raw.toList).drop b.opening.length := by
      rw [hbody, List.append_assoc]
      exact (List.prefix_append inner _).isInfix
    exact hwithin.trans
      ((List.drop_suffix _ _).isInfix.trans (List.dropWhile_suffix _).isInfix)

end DocComment

namespace Document

/-- The text of a block, or the prose of its comment, with the line endings that it has. -/
theorem toList_shownText (p : Profile) (b : Block) :
    (shownText p b).toList =
      LineEnding.toLf (((b.comment? p).map (·.contents)).getD b.content).toList :=
  LineEnding.toList_convert .lf _

theorem infix_of_shown {needle : List Char} {p : Profile} {b : Block} (hneedle : '\n' ∉ needle)
    (h : needle <:+: (((b.comment? p).map (·.contents)).getD b.content).toList) :
    needle <:+: b.content.toList := by
  cases hcomment : b.comment? p with
  | none => rwa [hcomment, Option.map_none, Option.getD_none] at h
  | some comment =>
    rw [hcomment, Option.map_some, Option.getD_some] at h
    rw [Block.comment?] at hcomment
    split at hcomment
    · cases hcomment
    · exact DocComment.infix_of_parse? hcomment hneedle h

/-- What a view shows has carriage returns before line feeds just where the prose or the code has
    two of them there. -/
theorem crlf_infix_shown_iff (d : Document) :
    (∀ v ∈ d.rendered, ¬ LineEnding.crlf.chars <:+: v.content.toList) ↔
      ∀ b ∈ d.blocks, ¬ '\r' :: LineEnding.crlf.chars <:+:
        (((b.comment? d.profile).map (·.contents)).getD b.content).toList := by
  rw [rendered, List.forall_mem_map]
  refine forall₂_congr fun b _ => ?_
  rw [toList_shownText, LineEnding.crlf_infix_toLf_iff]

theorem not_crlf_infix_rendered {d : Document} (h : ¬ ['\r', '\r'] <:+: d.text.toList) :
    ∀ v ∈ d.rendered, ¬ LineEnding.crlf.chars <:+: v.content.toList := by
  refine d.crlf_infix_shown_iff.2 fun b hb hdoubled => h ?_
  have hreturns : ['\r', '\r'] <:+: '\r' :: LineEnding.crlf.chars :=
    (List.prefix_append ['\r', '\r'] ['\n']).isInfix
  rw [toList_text]
  exact (infix_of_shown (by decide) (hreturns.trans hdoubled)).trans
    (List.infix_of_mem_flatten (List.mem_map_of_mem hb))

end Document

namespace LineEnding

/-- The style that a text is written in is found again, unless the first line ending has two
    carriage returns and is to have none. -/
theorem detect_convert {text : String} {line rest : List Char} (e : LineEnding)
    (htext : text.toList = line ++ '\n' :: rest) (hline : '\n' ∉ line) :
    detect (e.convert text) = e ↔ (e = .lf → ¬ ['\r', '\r'] <:+ line) := by
  obtain ⟨u, hu, hfeed, hends⟩ := exists_toLf_line hline rest
  rw [detect, toList_convert, convertChars_eq, htext, hu]
  cases e with
  | lf =>
    rw [spread_lf, ofChars_line hfeed, ← hends]
    by_cases hreturn : ['\r'] <:+ u <;> simp [hreturn]
  | crlf =>
    have hreturned := DocComment.not_mem_append_returns .crlf hfeed
    rw [DocComment.spread_line .crlf hfeed, ofChars_line hreturned, DocComment.returns,
      if_pos (List.suffix_append u ['\r'])]
    simp

theorem convert_convert (e : LineEnding) (text : String) :
    e.convert (e.convert text) = e.convert text ↔
      (e = .lf → ¬ '\r' :: crlf.chars <:+: text.toList) := by
  rw [← String.toList_inj, toList_convert, toList_convert]
  cases e with
  | lf => simp [convertChars, toLf_eq_self_iff, crlf_infix_toLf_iff]
  | crlf => simp [convertChars_eq, toLf_spread_crlf]

/-- Text that is written in a style is written in it for good, has that style and has no other
    line endings, unless two carriage returns stand before a line feed: then one of them is left in
    the style of plain line feeds, and what a view shows of such a text holds it. -/
theorem convert_normalizes (e : LineEnding) (text : String) :
    (e.convert (e.convert text) = e.convert text ↔
      (e = .lf → ¬ '\r' :: crlf.chars <:+: text.toList)) ∧
    (crlf.chars <:+: (lf.convert text).toList ↔ '\r' :: crlf.chars <:+: text.toList) ∧
    (∀ before after, (crlf.convert text).toList = before ++ '\n' :: after →
      before.getLast? = some '\r') ∧
    (∀ line rest, text.toList = line ++ '\n' :: rest → '\n' ∉ line →
      (detect (e.convert text) = e ↔ (e = .lf → ¬ ['\r', '\r'] <:+ line))) ∧
    lf.convert (crlf.convert text) = lf.convert text ∧
    ∀ d : Document,
      ((∀ v ∈ d.rendered, ¬ crlf.chars <:+: v.content.toList) ↔
        ∀ b ∈ d.blocks, ¬ '\r' :: crlf.chars <:+:
          (((b.comment? d.profile).map (·.contents)).getD b.content).toList) ∧
      (¬ ['\r', '\r'] <:+: d.text.toList →
        ∀ v ∈ d.rendered, ¬ crlf.chars <:+: v.content.toList) := by
  refine ⟨convert_convert e text, ?_, fun before after h => ?_,
    fun line rest htext hline => detect_convert e htext hline, ?_,
    fun d => ⟨d.crlf_infix_shown_iff, Document.not_crlf_infix_rendered⟩⟩
  · rw [toList_convert, convertChars]
    exact crlf_infix_toLf_iff _
  · rw [toList_convert, convertChars_eq] at h
    exact getLast?_of_spread_crlf h
  · rw [← String.toList_inj, toList_convert, toList_convert, toList_convert, convertChars_eq .crlf,
      convertChars, toLf_spread_crlf, convertChars]

/-- Of two carriage returns before a line feed one is left, which a second run removes. A comment
    that closes behind two of them shows one, although it has none before a line feed. -/
theorem convert_normalizes_doubled_return :
    let text := "a\r\r\nb\r\n"
    let p : Profile :=
      { id := "c", lineComments := ["//"], blockComments := [⟨"/*", "*/"⟩],
        strings := [.escaped "\""] }
    let d : Document := ⟨[⟨⟨"b1"⟩, .doc, "/* a\r\r */\n"⟩], 0, p, ⟨none, 1⟩⟩
    let plain : Document := ⟨[⟨⟨"b1"⟩, .doc, "// a\r\n//\r\n"⟩], 0, p, ⟨none, 1⟩⟩
    lf.convert text = "a\r\nb\n" ∧ lf.convert (lf.convert text) ≠ lf.convert text ∧
      detect (lf.convert text) ≠ .lf ∧ detect (crlf.convert text) = .crlf ∧
      "a\r\r".toList.getLast? = some '\r' ∧ Document.ofText p d.text = .ok d ∧
      ¬ '\r' :: crlf.chars <:+: d.text.toList ∧
      (¬ ∀ v ∈ d.rendered, ¬ crlf.chars <:+: v.content.toList) ∧
      ¬ ['\r', '\r'] <:+: plain.text.toList ∧
      ∀ v ∈ plain.rendered, ¬ crlf.chars <:+: v.content.toList := by
  intro text p d plain
  have hline : text.toList = "a\r\r".toList ++ '\n' :: "b\r\n".toList := by decide +kernel
  have hplain : ¬ ['\r', '\r'] <:+: plain.text.toList := by decide +kernel
  refine ⟨by decide +kernel, ?_, ?_, ?_, ?_, by decide +kernel, by decide +kernel, ?_, hplain, ?_⟩
  · exact fun h => (convert_normalizes .lf text).1.1 h rfl (by decide +kernel)
  · exact fun h => ((convert_normalizes .lf text).2.2.2.1 _ _ hline (by decide +kernel)).1 h rfl
      (by decide +kernel)
  · exact ((convert_normalizes .crlf text).2.2.2.1 _ _ hline (by decide +kernel)).2
      fun h => by cases h
  · exact (convert_normalizes .crlf text).2.2.1 "a\r\r".toList "b\r\n".toList (by decide +kernel)
  · exact fun h => ((convert_normalizes .lf text).2.2.2.2.2 d).1.1 h _ List.mem_cons_self
      (by decide +kernel)
  · exact ((convert_normalizes .lf text).2.2.2.2.2 plain).2 hplain

end LineEnding

end LiterateSync
