import LiterateSync.Proofs.Language.Regular
import LiterateSync.Proofs.Segment.Markup

namespace LiterateSync

open Grammar

variable {s : List Char}

/-- A plain delimiter that a text begins with lies within any start of it that something
    separates. -/
theorem IsPlain.prefix_of_prefix_append {delimiter : String} {t : List Char}
    (h : IsPlain delimiter) (hs : isSeparated s = true) (hstarts : delimiter.toList <+: t ++ s) :
    delimiter.toList <+: t := by
  cases s with
  | nil => rwa [List.append_nil] at hstarts
  | cons c s =>
    have hc : c ∉ delimiter.toList := by
      refine h.not_mem ?_
      simpa [isSeparated, or_assoc] using hs
    rw [List.append_cons, Text.prefix_append_iff hc (by simp), List.prefix_concat_iff] at hstarts
    rcases hstarts with heq | hstarts
    · rw [heq] at hc
      simp at hc
    · exact hstarts

theorem eq_of_prefix_of_utf8ByteSize_le {d d' : String} (h : d.toList <+: d'.toList)
    (hsize : d'.utf8ByteSize ≤ d.utf8ByteSize) : d = d' := by
  obtain ⟨t, ht⟩ := h
  have heq : d' = d ++ String.ofList t := by
    rw [← String.toList_inj, String.toList_append, String.toList_ofList, ht]
  rw [heq, String.utf8ByteSize_append] at hsize
  have hempty : String.ofList t = "" := String.utf8ByteSize_eq_zero_iff.1 (by omega)
  rw [heq, hempty, String.append_empty]

/-- Of plain delimiters, the longest that opens a text which begins with one of them and goes on
    separated is that one. -/
theorem exists_find?_longestFirst {α : Type} (delimiter : α → String) {xs : List α} {x : α}
    (hplain : ∀ y ∈ xs, IsPlain (delimiter y)) (hx : x ∈ xs) (hs : isSeparated s = true) :
    ∃ y ∈ xs, delimiter y = delimiter x ∧
      (Text.longestFirst (fun y => (delimiter y).utf8ByteSize) xs).find?
        (fun y => opens (delimiter y) ((delimiter x).toList ++ s)) = some y ∧
      xs.find? (fun y => delimiter y = delimiter x) = some y := by
  have hsame : (Text.longestFirst (fun y => (delimiter y).utf8ByteSize) xs).find?
      (fun y => delimiter y = delimiter x) = xs.find? (fun y => delimiter y = delimiter x) :=
    Text.find?_longestFirst fun y _ z _ hy hz => by
      rw [of_decide_eq_true hy, of_decide_eq_true hz]
  have hopens : opens (delimiter x) ((delimiter x).toList ++ s) = true :=
    opens_iff.2 (List.prefix_append _ s)
  obtain ⟨y, hy⟩ : ∃ y, (Text.longestFirst (fun y => (delimiter y).utf8ByteSize) xs).find?
      (fun y => opens (delimiter y) ((delimiter x).toList ++ s)) = some y :=
    Option.isSome_iff_exists.1 (List.find?_isSome.2 ⟨x, Text.mem_longestFirst.2 hx, hopens⟩)
  have hmem := Text.mem_longestFirst.1 (List.mem_of_find?_eq_some hy)
  obtain ⟨hyopens, first, second, hsplit, hfirst⟩ := List.find?_eq_some_iff_append.1 hy
  have hstarts := (hplain y hmem).prefix_of_prefix_append hs (opens_iff.1 hyopens)
  have hsize := Text.size_le_of_find?_longestFirst hy hx hopens
  have heq := eq_of_prefix_of_utf8ByteSize_le hstarts hsize
  refine ⟨y, hmem, heq, hy, ?_⟩
  rw [← hsame, List.find?_eq_some_iff_append]
  refine ⟨by simpa using heq, first, second, hsplit, fun z hz => ?_⟩
  have hnot := hfirst z hz
  simp only [Bool.not_eq_true', decide_eq_false_iff_not] at hnot ⊢
  rintro hzx
  rw [hzx, hopens] at hnot
  cases hnot

namespace Profile

variable {p : Profile} {k : List (Heredoc × Regex)}

/-- Of the line comments that open at one place, the one with the longest delimiter counts. -/
theorem size_le_of_lineComment? {d d' : String} (h : (p.grammarWith k).lineComment? s = some d)
    (hd' : d' ∈ p.lineComments) (hopens : d'.toList <+: s) :
    d'.utf8ByteSize ≤ d.utf8ByteSize := by
  have hfind : (Text.longestFirst (·.utf8ByteSize) p.lineComments).find?
      (fun d => opens d s) = some d := h
  exact Text.size_le_of_find?_longestFirst hfind hd' (opens_iff.2 hopens)

/-- Of the block comments that open at one place, the one with the longest delimiter counts. -/
theorem size_le_of_blockComment? {b b' : BlockComment}
    (h : (p.grammarWith k).blockComment? s = some b) (hb' : b' ∈ p.blockComments)
    (hopens : b'.opening.toList <+: s) :
    b'.opening.utf8ByteSize ≤ b.opening.utf8ByteSize := by
  have hfind : (Text.longestFirst (·.opening.utf8ByteSize) p.blockComments).find?
      (fun b => opens b.opening s) = some b := h
  have hsize := Text.size_le_of_find?_longestFirst hfind hb' (opens_iff.2 hopens)
  exact hsize

end Profile

namespace Profile.HasPlainComments

variable {p : Profile} {k : List (Heredoc × Regex)}

theorem lineComment?_append (hp : p.HasPlainComments) {d : String} (hd : d ∈ p.lineComments)
    (hs : isSeparated s = true) : (p.grammarWith k).lineComment? (d.toList ++ s) = some d := by
  obtain ⟨y, -, rfl, hy, -⟩ := exists_find?_longestFirst (fun d => d) hp.line hd hs
  exact hy

theorem docDelimiter?_append (hp : p.HasPlainComments) {d : String} (hd : d ∈ p.lineComments)
    (hs : isSeparated s = true) : (p.grammarWith k).docDelimiter? (d.toList ++ s) = some d := by
  simp only [docDelimiter?, hp.lineComment?_append hd hs, List.drop_left' String.length_toList, hs,
    if_true]

theorem lineComment?_eq_none (hp : p.HasPlainComments) {b : BlockComment}
    (hb : b ∈ p.blockComments) (hs : isSeparated s = true) :
    (p.grammarWith k).lineComment? (b.opening.toList ++ s) = none := by
  rw [lineComment?, List.find?_eq_none]
  intro d hd hopens
  have hd := Text.mem_longestFirst.1 hd
  exact hp.apart b hb d hd ((hp.line d hd).prefix_of_prefix_append hs (opens_iff.1 hopens))

theorem isLineComment_opening (hp : p.HasPlainComments) {b : BlockComment}
    (hb : b ∈ p.blockComments) : p.isLineComment b.opening = false := by
  rw [← Bool.not_eq_true, isLineComment, List.contains_iff_mem]
  exact fun hmem => hp.apart b hb b.opening hmem (List.prefix_refl _)

theorem isPlain_of_closingFor? (hp : p.HasPlainComments) {opening closing : String}
    (h : p.closingFor? opening = some closing) : IsPlain closing := by
  obtain ⟨b, hb, rfl⟩ := Option.map_eq_some_iff.1 h
  exact hp.closing b (List.mem_of_find?_eq_some hb)

theorem blockComment?_append (hp : p.HasPlainComments) {b : BlockComment}
    (hb : b ∈ p.blockComments) (hs : isSeparated s = true) :
    ∃ b' ∈ p.blockComments, b'.opening = b.opening ∧
      (p.grammarWith k).blockComment? (b.opening.toList ++ s) = some b' ∧
      p.closingFor? b.opening = some b'.closing := by
  obtain ⟨b', hb', heq, hopens, hfirst⟩ :=
    exists_find?_longestFirst BlockComment.opening hp.opening hb hs
  exact ⟨b', hb', heq, hopens, by rw [closingFor?, hfirst]; rfl⟩

end Profile.HasPlainComments

end LiterateSync
