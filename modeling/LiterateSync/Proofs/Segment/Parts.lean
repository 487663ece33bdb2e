import LiterateSync.Proofs.Segment.RunLocality
import LiterateSync.Proofs.Segment.Tiling
import LiterateSync.Proofs.Text.PatternReader

namespace LiterateSync

namespace Segment

/-- A segment with its place counted from `start` bytes before. -/
def behind (start : Nat) (s : Segment) : Segment :=
  { s with range := ⟨start + s.range.start, start + s.range.stop⟩ }

theorem place_add (start offset : Nat) (spans : List Span) :
    place (start + offset) spans = (place offset spans).map (·.behind start) := by
  induction spans generalizing offset with
  | nil => rfl
  | cons x spans ih =>
    rw [place, place, List.map_cons, behind]
    simp only [Nat.add_assoc, ih]

/-- Segments are cut in two where the spans that they place can be. -/
theorem exists_of_place_eq_append {start : Nat} {spans : List Span} {left right : List Segment}
    (h : place start spans = left ++ right) :
    ∃ first second, spans = first ++ second ∧ place start first = left ∧
      place (start + Text.byteLength (first.map (·.chars)).flatten) second = right := by
  induction left generalizing start spans with
  | nil => exact ⟨[], spans, rfl, rfl, h⟩
  | cons s left ih =>
    cases spans with
    | nil => cases h
    | cons x spans =>
      rw [place, List.cons_append, List.cons.injEq] at h
      obtain ⟨first, second, rfl, hfirst, hsecond⟩ := ih h.2
      refine ⟨x :: first, second, rfl, by rw [place, hfirst, h.1], ?_⟩
      rw [← hsecond, List.map_cons, List.flatten_cons, byteLength_append, Nat.add_assoc]

end Segment

namespace Grammar

variable {g : Grammar} {line rest s t r : List Char}

/-- The closing delimiter of a block comment does not end a line, so that the rest of the line is
    behind the comment. -/
theorem ne_nil_of_cutBlockComment {b : BlockComment} {text behind : List Char}
    (hclosing : b.closing ≠ "" ∧ '\n' ∉ b.closing.toList) (hs : EndsLine s)
    (hopens : b.opening.toList <+: s) (h : cutBlockComment b s = .ok (text, behind)) :
    behind ≠ [] := by
  rintro rfl
  obtain ⟨body, inside, -, -, htext⟩ := exists_of_cutBlockComment hopens h
  have happend := append_of_cutBlockComment h
  rw [List.append_nil] at happend
  rw [← happend, htext] at hs
  exact hclosing.2 (hs.of_append (by simpa using hclosing.1)).mem

/-- Where no doc run starts, none starts when the text is cut behind a line. A block comment that
    is closed behind the cut is no longer closed. -/
theorem IsOneLine.cutDocRun?_cut (hg : g.IsOneLine)
    (hclosing : ∀ b ∈ g.blockComments, b.closing ≠ "" ∧ '\n' ∉ b.closing.toList)
    (ht : EndsLine t) (h : g.cutDocRun? (t ++ r) = .ok none) :
    g.cutDocRun? t = .ok none ∨
      ∃ rest, ∃ b ∈ g.blockComments, g.cutDocRun? t = .error (.unclosed rest b) := by
  obtain ⟨hmem, -, hunindented⟩ := indent_append_of_mem ht.mem r
  have hline : EndsLine (unindented t) := by
    rw [← indent_append_unindented t] at ht
    exact ht.of_append (List.ne_nil_of_mem hmem)
  simp only [cutDocRun?, hunindented, hg.docDelimiter?_append hmem,
    hg.blockComment?_append hmem] at h ⊢
  split at h
  · cases h
  · split at h
    · exact .inl rfl
    · rename_i b hb
      have hb' := List.mem_of_find?_eq_some hb
      rw [isSeparated_drop_append (hg.opening b hb') (prefix_of_blockComment? hb) hmem] at h
      split at h
      · rename_i hseparated
        rw [if_pos hseparated]
        cases hcut : cutBlockComment b (unindented t) with
        | error fault =>
          obtain ⟨body, hbody⟩ := prefix_of_blockComment? hb
          rw [← hbody] at hcut
          exact .inr ⟨_, b, hb', by rw [(cutBlockComment_eq_error hcut).1, Except.map]⟩
        | ok found =>
          obtain ⟨text, behind⟩ := found
          have happend := append_of_cutBlockComment hcut
          have hbehind := ne_nil_of_cutBlockComment (hclosing b hb') hline
            (prefix_of_blockComment? hb) hcut
          rw [← happend] at hline hcut
          have hopens := happend ▸ prefix_of_blockComment? hb
          rw [← happend, List.append_assoc, cutBlockComment_replace hopens hcut] at h
          simp only [Except.map, Except.ok.injEq, Option.map_eq_none_iff,
            cutLineEnd?_append (hline.of_append hbehind).mem] at h
          exact .inl (by simp only [Except.map, h, Option.map_none])
      · rename_i hseparated
        rw [if_neg hseparated]
        exact .inl rfl

/-- The spans that the start of a text makes up are its spans when nothing follows it. Only where
    a delimiter begins with a blank, a block comment in the indent of code may be left open. -/
theorem IsOneLine.spans_cut (hg : g.IsOneLine) (hpatterns : g.FindsPatterns)
    (hclosing : ∀ b ∈ g.blockComments, b.closing ≠ "" ∧ '\n' ∉ b.closing.toList)
    {first second : List Span}
    (h : g.spans ((first.map (·.chars)).flatten ++ r) = .ok (first ++ second)) (hr : r ≠ []) :
    g.spans (first.map (·.chars)).flatten = .ok first ∨
      ¬ g.LeavesBlanks ∧ ∃ rest, ∃ b ∈ g.blockComments,
        g.spans (first.map (·.chars)).flatten = .error (.unclosed rest b) := by
  induction first with
  | nil => exact .inl (by rw [List.map_nil, List.flatten_nil, spans])
  | cons x first ih =>
    rw [List.map_cons, List.flatten_cons] at h ⊢
    rw [List.append_assoc] at h
    obtain ⟨-, rest, happend, hrest, hx⟩ := spans_eq_ok_cons h
    obtain rfl := List.append_cancel_left happend
    have hne : (first.map (·.chars)).flatten ++ r ≠ [] := by simp [hr]
    have hagree := (hpatterns.heredocsAgree_nil r).append (first.map (·.chars)).flatten
    have hnext : (first.map (·.chars)).flatten ++ [] ≠ [] → g.SameFront
        ((first.map (·.chars)).flatten ++ r) ((first.map (·.chars)).flatten ++ []) :=
      hg.sameFront_of_spans hr (absurd rfl) hrest
    rw [List.append_nil] at hagree hnext
    by_cases hnone : x.kind = .code →
        g.cutDocRun? (x.chars ++ (first.map (·.chars)).flatten) = .ok none
    · rw [hg.spans_cons_replace hagree hne hnext h hnone]
      refine (ih hrest).imp (fun hok => ?_) (And.imp_right ?_)
      · rw [hok, Except.map]
      · rintro ⟨rest, b, hb, herror⟩
        exact ⟨rest, b, hb, by rw [herror, Except.map]⟩
    · obtain ⟨hkind, hnone⟩ := Classical.not_imp.1 hnone
      rw [hkind] at hx
      have hline : EndsLine ((x :: first).map (·.chars)).flatten :=
        endsLine_flatten_of_spans (by simpa [List.append_assoc] using h) hr
          (List.cons_ne_nil x first)
      rw [List.map_cons, List.flatten_cons] at hline
      have hcut := hx.1
      rw [← List.append_assoc] at hcut
      obtain ⟨rest, b, hb, herror⟩ := (hg.cutDocRun?_cut hclosing hline hcut).resolve_left hnone
      exact .inr ⟨fun hblank => hnone (hblank.cutDocRun?_eq_none hg hne hx.1 hx.2 _), rest, b, hb,
        spans_of_cutDocRun?_error herror hline.ne_nil⟩

/-- Neighbouring spans of a text are the spans of the text that they make up, unless a block
    comment in the indent of code is left open there. -/
theorem IsOneLine.spans_part (hg : g.IsOneLine) (hpatterns : g.FindsPatterns)
    (hclosing : ∀ b ∈ g.blockComments, b.closing ≠ "" ∧ '\n' ∉ b.closing.toList)
    {before part after : List Span} (h : g.spans s = .ok (before ++ part ++ after)) :
    g.spans (part.map (·.chars)).flatten = .ok part ∨
      ¬ g.LeavesBlanks ∧ ∃ rest, ∃ b ∈ g.blockComments,
        g.spans (part.map (·.chars)).flatten = .error (.unclosed rest b) := by
  rw [List.append_assoc] at h
  obtain ⟨t, -, ht⟩ := spans_append_eq_ok h
  obtain ⟨r, rfl, hr⟩ := spans_append_eq_ok ht
  by_cases hnil : r = []
  · subst hnil
    rw [spans] at hr
    cases hr
    simpa using Or.inl ht
  · exact hg.spans_cut hpatterns hclosing ht hnil

end Grammar

theorem Profile.exists_blank_of_not_leavesBlanks [RegexLibrary] {p : Profile}
    (hfault : p.fault? = none) (h : ¬ p.grammar.LeavesBlanks) :
    ∃ d ∈ p.openings, ∃ c ∈ d.toList.head?, Text.isBlank c = true := by
  by_contra hnone
  push Not at hnone
  refine h (Grammar.leavesBlanks_of_openings fun d hd => ?_)
  have hd := mem_openings_of_grammar hd
  obtain ⟨c, rest, hc⟩ := List.exists_cons_of_ne_nil fun hnil =>
    (ne_empty_of_fault? hfault).1 d hd (String.toList_eq_nil_iff.1 hnil)
  exact ⟨c, by simp [hc], by simpa using hnone d hd c (by simp [hc])⟩

/-- Neighbouring segments of a text are places of neighbouring spans. -/
theorem exists_spans_of_segment [RegexLibrary] {p : Profile} {text : String}
    {first inner last : List Segment} (h : segment p text = .ok (first ++ inner ++ last)) :
    p.fault? = none ∧ ∃ before part after,
      p.grammar.spans text.toList = .ok (before ++ part ++ after) ∧
        inner = Segment.place (Text.byteLength (before.map (·.chars)).flatten) (joinCode part) := by
  obtain ⟨hfault, all, hall, hplace⟩ := segment_eq_ok_iff.1 h
  obtain ⟨ab, c, hjoined, hab, -⟩ := Segment.exists_of_place_eq_append hplace.symm
  obtain ⟨a, b, rfl, -, rfl⟩ := Segment.exists_of_place_eq_append hab
  obtain ⟨ab', after, rfl, hab', -⟩ := exists_of_joinCode_eq_append hjoined
  obtain ⟨before, part, rfl, rfl, rfl⟩ := exists_of_joinCode_eq_append hab'
  exact ⟨hfault, before, part, after, hall, by rw [flatten_joinCode, Nat.zero_add]⟩

/-- Each doc segment starts a line, and is the doc run that the scan cuts there. -/
theorem exists_cutDocRun?_of_segment [RegexLibrary] {p : Profile} {text : String}
    {segments : List Segment} {x : Segment} (h : segment p text = .ok segments) (hx : x ∈ segments)
    (hdoc : x.kind = .doc) :
    ∃ before after, text = before ++ x.text ++ after ∧ before.utf8ByteSize = x.range.start ∧
      (before ≠ "" → EndsLine before.toList) ∧ x.text.toList ++ after.toList ≠ [] ∧
      p.grammar.cutDocRun? (x.text.toList ++ after.toList) =
        .ok (some (x.text.toList, after.toList)) := by
  obtain ⟨-, all, hall, hplace⟩ := segment_eq_ok_iff.1 h
  obtain ⟨left, right, rfl⟩ := List.append_of_mem hx
  obtain ⟨before, behind, hjoined, -, hsecond⟩ := Segment.exists_of_place_eq_append hplace.symm
  cases behind with
  | nil => cases hsecond
  | cons y behind =>
    obtain ⟨kind, run⟩ := y
    rw [Segment.place, List.cons.injEq] at hsecond
    obtain ⟨rfl, -⟩ := hsecond
    obtain rfl : kind = .doc := hdoc
    obtain ⟨t, hne, htext, hstart, hcut⟩ := Grammar.exists_cutDocRun?_of_joinCode hall hjoined
    obtain rfl := Grammar.append_of_cutDocRun? hcut
    refine ⟨String.ofList (before.map (·.chars)).flatten,
      String.ofList (behind.map (·.chars)).flatten, ?_, ?_, fun hbefore => ?_, ?_, ?_⟩
    · rw [← String.toList_inj, htext]
      simp
    · rw [← Segment.byteLength_eq, Nat.zero_add]
    · rw [String.toList_ofList]
      exact hstart (mt (fun hnil => by rw [hnil]) hbefore)
    · simpa using hne
    · simpa using hcut

end LiterateSync
