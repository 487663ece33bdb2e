import LiterateSync.Proofs.Segment.Delimiters
import LiterateSync.Proofs.Segment.Progress
import LiterateSync.Text.Pattern.Library

namespace LiterateSync

namespace Grammar

variable {g : Grammar} {s : List Char} {rest : List Char} {b : BlockComment}

/-- A block comment that stops the scan opens in the text, and is not closed behind that. -/
theorem exists_of_spans_unclosed (h : g.spans s = .error (.unclosed rest b)) :
    ∃ before body, s = before ++ rest ∧ rest = b.opening.toList ++ body ∧
      g.blockComment? rest = some b ∧ ¬ b.closing.toList <:+: body := by
  have hclosing : ∀ {body : List Char}, Text.splitFirst? b.closing.toList body = none →
      ¬ b.closing.toList <:+: body := by
    intro body hnone
    rw [← Text.isSome_splitFirst?_iff, hnone]
    simp
  obtain ⟨t, ht, hrun | ⟨-, hline⟩⟩ := exists_of_spans_eq_error h
  · obtain ⟨b', body, hb, hbody, hnone, hfault⟩ := exists_of_cutDocRun?_eq_error hrun
    cases hfault
    obtain ⟨before, hbefore⟩ := (List.dropWhile_suffix Text.isBlank).trans ht
    exact ⟨before, body, hbefore.symm, hbody, hb, hclosing hnone⟩
  · obtain ⟨u, hu, htoken | hstalled⟩ := exists_of_cutCodeLine_eq_error hline
    · obtain ⟨b', body, hb, hbody, hnone, hfault⟩ := exists_of_token?_eq_error htoken
      cases hfault
      obtain ⟨before, hbefore⟩ := hu.trans ht
      exact ⟨before, body, hbefore.symm, hbody, hb, hclosing hnone⟩
    · cases hstalled

end Grammar

/-- The span of an error lies in a text in which a comment opens there. -/
theorem SegmentError.isValid_span (before : String) {comment : BlockComment} (rest : String)
    (hopening : comment.opening ≠ "") :
    ∃ span ∈ (malformed before.utf8ByteSize comment).span?, span.start < span.stop ∧
      String.Pos.Raw.IsValid (before ++ comment.opening ++ rest) ⟨span.start⟩ ∧
      String.Pos.Raw.IsValid (before ++ comment.opening ++ rest) ⟨span.stop⟩ := by
  have hslice : Segment.IsSlice (before ++ comment.opening ++ rest) ⟨.doc, comment.opening,
      ⟨before.utf8ByteSize, before.utf8ByteSize + comment.opening.utf8ByteSize⟩⟩ :=
    Segment.isSlice_of_append .doc hopening rfl String.utf8ByteSize_append.symm
  exact ⟨_, rfl, hslice.nonempty, hslice.start_isValid, hslice.stop_isValid⟩

theorem segment_ne_unsupported [RegexLibrary] {p : Profile} (hp : p.fault? = none)
    (text language : String) : segment p text ≠ .error (.unsupported language) := by
  intro h
  obtain ⟨fault, hfault, -⟩ | ⟨-, fault, -, hfault⟩ := segment_eq_error_iff.1 h
  · rw [hp] at hfault
    cases hfault
  · cases fault <;> cases hfault

/-- A malformed comment opens where the error says, and is not closed behind that. -/
theorem exists_of_segment_malformed [RegexLibrary] {p : Profile} {text : String} {offset : Nat}
    {comment : BlockComment} (h : segment p text = .error (.malformed offset comment)) :
    comment ∈ p.blockComments ∧ ∃ before body,
      text = before ++ comment.opening ++ String.ofList body ∧ before.utf8ByteSize = offset ∧
        p.grammar.blockComment? (comment.opening.toList ++ body) = some comment ∧
        ¬ comment.closing.toList <:+: body := by
  obtain ⟨fault, -, hfault⟩ | ⟨-, fault, hspans, hfault⟩ := segment_eq_error_iff.1 h
  · cases hfault
  cases fault with
  | stalled rest => cases hfault
  | unclosed rest b =>
    cases hfault
    obtain ⟨before, body, hbefore, rfl, hb, hclosing⟩ := Grammar.exists_of_spans_unclosed hspans
    refine ⟨Profile.mem_grammar_blockComments.1 (List.mem_of_find?_eq_some hb),
      String.ofList before, body, ?_, ?_, hb, hclosing⟩
    · rw [← String.toList_inj, hbefore]
      simp
    · rw [hbefore, Segment.byteLength_append_sub]

/-- The error of a text names a block comment that opens there, by the longest delimiter that opens
    one there, and is closed nowhere behind. Its span lies in the text. Where no block comment opens
    in a text, no error is returned: there are segments, or a loop does not end. -/
theorem segment_fault [RegexLibrary] {p : Profile} (hp : p.fault? = none) (text : String) :
    (∀ language, segment p text ≠ .error (.unsupported language)) ∧
    (∀ offset comment, segment p text = .error (.malformed offset comment) →
      comment ∈ p.blockComments ∧ ∃ before rest,
        text = before ++ comment.opening ++ rest ∧ before.utf8ByteSize = offset ∧
        (∀ b ∈ p.blockComments, b.opening.toList <+: (comment.opening ++ rest).toList →
          b.opening.utf8ByteSize ≤ comment.opening.utf8ByteSize) ∧
        ¬ comment.closing.toList <:+: rest.toList ∧
        ∃ span ∈ (SegmentError.malformed offset comment).span?, span.start < span.stop ∧
          String.Pos.Raw.IsValid text ⟨span.start⟩ ∧ String.Pos.Raw.IsValid text ⟨span.stop⟩) ∧
    ((∀ b ∈ p.blockComments, ¬ b.opening.toList <:+: text.toList) →
      (∃ segments, segment p text = .ok segments) ∨ ∀ n, segmentWithin n p text = none) := by
  refine ⟨segment_ne_unsupported hp text, fun offset comment h => ?_, fun hopens => ?_⟩
  · obtain ⟨hmem, before, body, rfl, rfl, hb, hclosing⟩ := exists_of_segment_malformed h
    have hopening := ((Profile.forall_mem_delimiters.1
      (Profile.ne_empty_of_fault? hp).2).2.1 comment hmem).1
    refine ⟨hmem, before, String.ofList body, rfl, rfl, fun b hb' hstarts => ?_, by simpa,
      SegmentError.isValid_span before _ hopening⟩
    exact Profile.size_le_of_blockComment? hb hb' (by simpa using hstarts)
  · cases h : segment p text with
    | ok segments => exact .inl ⟨segments, rfl⟩
    | error e =>
      cases e with
      | unsupported language => exact absurd h (segment_ne_unsupported hp text language)
      | malformed offset comment =>
        obtain ⟨hmem, before, body, rfl, -, -, -⟩ := exists_of_segment_malformed h
        exact absurd ⟨before.toList, body, by simp⟩ (hopens comment hmem)
      | stalled offset => exact .inr (segmentWithin_eq_none h)

/-- A block comment is left open in code within a literal. A shorter delimiter opens one there, too,
    and the comment before it is closed. -/
theorem segment_fault_in_interpolation :
    let comment : BlockComment := ⟨"/**", "**/"⟩
    let p : Profile :=
      { id := "p", lineComments := ["//"], blockComments := [⟨"/*", "*/"⟩, comment],
        strings := [.interpolated "`"] }
    let text := "é `/* $\x7b/* a */ /** b */\x7d`\n"
    p.fault? = none ∧ segment p text = .error (.malformed 17 comment) ∧
      comment ∈ p.blockComments ∧ ∃ before rest,
        text = before ++ comment.opening ++ rest ∧ before.utf8ByteSize = 17 ∧
        (∀ b ∈ p.blockComments, b.opening.toList <+: (comment.opening ++ rest).toList →
          b.opening.utf8ByteSize ≤ comment.opening.utf8ByteSize) ∧
        ¬ comment.closing.toList <:+: rest.toList ∧
        ∃ span ∈ (SegmentError.malformed 17 comment).span?, span.start < span.stop ∧
          String.Pos.Raw.IsValid text ⟨span.start⟩ ∧ String.Pos.Raw.IsValid text ⟨span.stop⟩ := by
  intro comment p text
  have hp : p.fault? = none := by decide +kernel
  have herror : segment p text = .error (.malformed 17 comment) := by decide +kernel
  exact ⟨hp, herror, (segment_fault hp text).2.1 17 comment herror⟩

end LiterateSync
