import LiterateSync.Proofs.Segment.Faults
import LiterateSync.Proofs.Segment.SourceLines
import LiterateSync.Proofs.Text.Digits
import LiterateSync.Segment.Report
import LiterateSync.Text.Pattern.Library

namespace LiterateSync

namespace Excerpt

variable {source before : List Char} {stop column : Nat} {l : Line}

/-- The row that names a place of a file. -/
def placeRow (digits : Nat) (filename : List Char) (number column : Nat) : List Char :=
  List.replicate (digits + 2) ' ' ++ "╭─[".toList ++ filename ++ ':' :: (toString number).toList ++
    ':' :: (toString column).toList ++ [']']

/-- Whether characters up to and without `stop`, which begin in a line of a source, are shown with
    the line. They are if the source has as many, or just one less and a line below. -/
def IsShown (source : List Char) (l : Line) (stop : Nat) : Prop :=
  stop ≤ source.length ∨ stop = source.length + 1 ∧ l.number < (sourceLines source).length

theorem isShown_iff {l' : Line} {column' : Nat} (h : IsPlace source before l column)
    (h' : IsPlace source (source.take (stop - 1)) l' column') (hstart : before.length < stop)
    (hstop : stop ≤ source.length + 1) :
    IsShown source l stop ↔ l.number < l'.number ∨ stop ≤ l.stop := by
  have htake : (source.take (stop - 1)).length = stop - 1 := by
    rw [List.length_take]
    omega
  constructor
  · intro hshown
    by_cases hlt : l.number < l'.number
    · exact .inl hlt
    · have hle := h.number_le h' (by omega)
      obtain rfl := h.eq_of_number_eq h' (by omega)
      rcases h'.lt_stop_or with hlt' | ⟨-, hend, hnumber⟩
      · omega
      · rcases hshown with hshown | ⟨-, hshown⟩ <;> omega
  · rintro (hlt | hle)
    · have := h'.number_le_length
      rw [IsShown]
      omega
    · exact .inl (Nat.le_trans hle h.stop_le_length)

/-- The rows of a frame around characters that begin at a place of a source. -/
theorem frame?_eq (h : IsPlace source before l column) (hstart : before.length < stop)
    (hstop : stop ≤ source.length + 1) (filename label : String) :
    ∃ l' column', IsPlace source (source.take (stop - 1)) l' column' ∧ ∃ digits others bottom,
      frame? filename label before.length stop source =
        some (placeRow digits filename.toList l.number column ::
          (List.replicate (digits + 2) ' ' ++ ['│']) ::
          (if l'.number ≤ l.number then underline digits l before.length stop label
            else bracket digits l others stop label) ++ bottom) := by
  obtain ⟨l', column', h'⟩ := exists_isPlace h.ne_nil (List.take_prefix (stop - 1) source)
  refine ⟨l', column', h', (toString l'.number).length, (lines source).filter fun m =>
    l.number < m.number && m.number ≤ l'.number,
    [List.replicate ((toString l'.number).length + 2) '─' ++ ['╯']], ?_⟩
  have hlast := h'.lineAt?_eq
  rw [List.length_take, Nat.min_eq_left (by omega)] at hlast
  have hothers : ((lines source).filter fun m =>
      l.number < m.number && m.number ≤ l'.number).isEmpty = decide (l'.number ≤ l.number) := by
    by_cases hle : l'.number ≤ l.number
    · simp only [hle, decide_true, List.isEmpty_iff, List.filter_eq_nil_iff, Bool.and_eq_true,
        decide_eq_true_eq]
      omega
    · simp only [hle, decide_false, List.isEmpty_eq_false_iff]
      refine List.ne_nil_of_mem (List.mem_filter.2 ⟨mem_of_lineAt? hlast, ?_⟩)
      simpa using hle
  have hcolumn : before.length - l.start + 1 = column := by
    have := h.start_le
    have := h.start_add
    omega
  have hmax : max before.length (stop - 1) = stop - 1 := by omega
  rw [frame?, h.lineAt?_eq, hmax, hlast]
  simp only [Option.bind_eq_bind, Option.bind_some, hothers, decide_eq_true_eq, hcolumn]
  simp [placeRow]
  rfl

/-- A frame shows the line where the characters begin, or there is a bar in the line's place. -/
theorem frame?_cases (h : IsPlace source before l column) (hstart : before.length < stop)
    (filename label : String) :
    (IsShown source l stop ∧ ∃ digits gutter rest, (gutter = [] ∨ gutter = "╭─▶ ".toList) ∧
      frame? filename label before.length stop source =
        some (placeRow digits filename.toList l.number column ::
          (List.replicate (digits + 2) ' ' ++ ['│']) ::
          (margin digits (toString l.number) '│' ++ gutter ++ l.shown) :: rest)) ∨
    (¬ IsShown source l stop ∧ (frame? filename label before.length stop source = none ∨
      ∃ digits rest, frame? filename label before.length stop source =
        some (placeRow digits filename.toList l.number column ::
          (List.replicate (digits + 2) ' ' ++ ['│']) :: margin digits "" '│' :: rest))) := by
  rcases Nat.lt_or_ge (source.length + 1) stop with hlong | hstop
  · refine .inr ⟨by rw [IsShown]; omega, .inl ?_⟩
    have hmax : max before.length (stop - 1) = stop - 1 := by omega
    rw [frame?, h.lineAt?_eq, hmax, lineAt?_eq_none h.ne_nil (by omega)]
    rfl
  · obtain ⟨l', column', h', digits, others, bottom, hframe⟩ :=
      frame?_eq h hstart hstop filename label
    rw [isShown_iff h h' hstart hstop, hframe]
    by_cases hle : l'.number ≤ l.number
    · rw [if_pos hle, underline]
      split_ifs with hbar
      · exact .inr ⟨by omega, .inr ⟨digits, bottom, rfl⟩⟩
      · refine .inl ⟨by omega, digits, [], ?_⟩
        simp only [List.append_nil, List.cons_append, true_or, true_and]
        exact ⟨_, rfl⟩
    · rw [if_neg hle, bracket]
      refine .inl ⟨by omega, digits, "╭─▶ ".toList, ?_⟩
      simp only [List.cons_append, or_true, true_and]
      exact ⟨_, rfl⟩

end Excerpt

namespace Text

variable {s : List Char}

theorem length_le_byteLength (s : List Char) : s.length ≤ byteLength s := by
  induction s with
  | nil => exact Nat.zero_le _
  | cons c s ih =>
    have hsize := c.utf8Size_pos
    simp only [byteLength, List.map_cons, total, List.foldr_cons, List.length_cons] at ih ⊢
    omega

/-- A text has as many bytes as characters if none of its characters takes more than one. -/
theorem byteLength_eq_length_iff : byteLength s = s.length ↔ ∀ c ∈ s, c.utf8Size = 1 := by
  induction s with
  | nil => simp [byteLength, total]
  | cons c s ih =>
    have hle := length_le_byteLength s
    have hsize := c.utf8Size_pos
    rw [List.forall_mem_cons, ← ih]
    simp only [byteLength, List.map_cons, total, List.foldr_cons, List.length_cons] at hle ⊢
    omega

end Text

namespace Excerpt

variable {digits digits' number number' column column' : Nat} {filename r u : List Char}

theorem replicate_append_inj {c d : Char} {a b : Nat} (hc : c ≠ ' ') (hd : d ≠ ' ')
    (h : List.replicate a ' ' ++ c :: r = List.replicate b ' ' ++ d :: u) :
    a = b ∧ c = d ∧ r = u := by
  obtain ⟨hreplicate, hrest⟩ := Text.append_cons_inj (p := (· = ' ')) (by simp) (by simp)
    (by simpa using hc) (by simpa using hd) h
  exact ⟨by simpa using congrArg List.length hreplicate, hrest⟩

theorem placeRow_append_inj
    (h : placeRow digits filename number column ++ r =
      placeRow digits' filename number' column' ++ u) :
    digits = digits' ∧ number = number' ∧ column = column' ∧ r = u := by
  simp only [placeRow, List.append_assoc, List.cons_append, List.nil_append] at h
  obtain ⟨hdigits, -, h⟩ := replicate_append_inj (by decide) (by decide) h
  obtain ⟨hnumber, h⟩ := Text.toString_append_inj (by decide)
    (List.cons.inj (List.append_cancel_left (List.append_cancel_left h))).2
  obtain ⟨hcolumn, h⟩ := Text.toString_append_inj (by decide) h
  exact ⟨by omega, hnumber, hcolumn, h⟩

/-- A row with the number of a line is not one with a bar alone. -/
theorem margin_append_ne (digits number : Nat) :
    margin digits (toString number) '│' ++ r ≠ margin digits "" '│' ++ u := by
  intro h
  obtain ⟨d, ds, hdigit, hd⟩ := Text.exists_digit_toDigits number
  rw [margin, margin, Text.toList_toString, hdigit] at h
  -- the bar follows blanks alone in the second row, and a digit in the first
  have hblank : List.replicate digits ' ' ++ ' ' :: '│' :: ' ' :: u =
      List.replicate (digits + 1) ' ' ++ '│' :: ' ' :: u := by
    simp [List.replicate_succ']
  simp only [List.append_assoc, List.cons_append, List.nil_append, List.cons.injEq, true_and,
    String.toList_empty, String.length_empty, Nat.sub_zero, hblank] at h
  have hne : d ≠ ' ' := fun heq => by simp [heq] at hd
  obtain ⟨-, rfl, -⟩ := replicate_append_inj hne (by decide) h
  exact absurd hd (by decide)

end Excerpt

namespace SegmentError

variable {comment : BlockComment} {source filename : String} {offset column : Nat}
  {before : List Char} {l : Excerpt.Line}

/-- Whether the report on an error in a file shows a column of a line: it names the number of the
    line and the column, and the line stands below with its number, maybe in a bracket. -/
def Shows (e : SegmentError) (source filename : String) (l : Excerpt.Line) (column : Nat) : Prop :=
  ∃ digits gutter rest, (gutter = [] ∨ gutter = "╭─▶ ".toList) ∧
    (e.report source filename).toList =
      [Text.uncoloured s!"Error: {e.userMessage}: {e.message}".toList,
        Excerpt.placeRow digits (Text.uncoloured filename.toList) l.number column,
        List.replicate (digits + 2) ' ' ++ ['│'],
        Excerpt.margin digits (toString l.number) '│' ++ gutter ++ l.shown].flatMap (· ++ ['\n']) ++
          rest

theorem toList_report_malformed : ((malformed offset comment).report source filename).toList =
    Text.uncoloured s!"Error: {(malformed offset comment).userMessage}: {
      (malformed offset comment).message}".toList ++ '\n' ::
      ((Excerpt.frame? (String.ofList (Text.uncoloured filename.toList))
        (String.ofList (Text.uncoloured (malformed offset comment).label.toList)) offset
        (offset + comment.opening.utf8ByteSize) source.toList).getD []).flatMap (· ++ ['\n']) := by
  simp [report, span?]

/-- The report on a comment that is not closed shows the place behind as many characters as there
    are bytes before the comment. -/
theorem shows_malformed (hopening : comment.opening ≠ "")
    (h : Excerpt.IsPlace source.toList before l column)
    (hshown : Excerpt.IsShown source.toList l (before.length + comment.opening.utf8ByteSize)) :
    (malformed before.length comment).Shows source filename l column := by
  have hpos := Nat.pos_of_ne_zero (mt String.utf8ByteSize_eq_zero_iff.1 hopening)
  obtain ⟨-, digits, gutter, rest, hgutter, hframe⟩ | ⟨hnot, -⟩ :=
    Excerpt.frame?_cases h (Nat.lt_add_of_pos_right hpos)
      (String.ofList (Text.uncoloured filename.toList))
      (String.ofList (Text.uncoloured (malformed before.length comment).label.toList))
  · refine ⟨digits, gutter, rest.flatMap (· ++ ['\n']), hgutter, ?_⟩
    rw [toList_report_malformed, hframe]
    simp
  · exact absurd hshown hnot

/-- A place that the report shows stands behind as many characters as there are bytes before the
    comment. -/
theorem exists_of_shows_malformed (hopening : comment.opening ≠ "") (hsource : source ≠ "")
    (h : (malformed offset comment).Shows source filename l column) :
    ∃ before l', before.length = offset ∧ Excerpt.IsPlace source.toList before l' column ∧
      l'.number = l.number ∧
      Excerpt.IsShown source.toList l' (offset + comment.opening.utf8ByteSize) := by
  have hpos := Nat.pos_of_ne_zero (mt String.utf8ByteSize_eq_zero_iff.1 hopening)
  have hne : source.toList ≠ [] := mt String.toList_eq_nil_iff.1 hsource
  obtain ⟨digits, gutter, rest, -, hreport⟩ := h
  rw [toList_report_malformed] at hreport
  simp only [List.flatMap_cons, List.flatMap_nil, List.append_assoc, List.cons_append,
    List.nil_append, List.append_cancel_left_eq, List.cons.injEq, true_and] at hreport
  by_cases hlength : offset ≤ source.toList.length
  · obtain ⟨l', column', hplace⟩ :=
      Excerpt.exists_isPlace hne (List.take_prefix offset source.toList)
    have htake : (source.toList.take offset).length = offset := List.length_take_of_le hlength
    have hcases := Excerpt.frame?_cases hplace (htake.trans_lt (Nat.lt_add_of_pos_right hpos))
      (String.ofList (Text.uncoloured filename.toList))
      (String.ofList (Text.uncoloured (malformed offset comment).label.toList))
    rw [htake] at hcases
    obtain ⟨hshown, digits', gutter', rest', -, hframe⟩ | ⟨-, hframe | ⟨digits', rest', hframe⟩⟩ :=
      hcases
    · simp only [hframe, Option.getD_some, List.flatMap_cons, List.append_assoc,
        String.toList_ofList] at hreport
      obtain ⟨-, hnumber, hcolumn, -⟩ := Excerpt.placeRow_append_inj hreport
      exact ⟨_, l', htake, hcolumn ▸ hplace, hnumber, hshown⟩
    · simp [hframe, Excerpt.placeRow] at hreport
    · simp only [hframe, Option.getD_some, List.flatMap_cons, List.append_assoc,
        String.toList_ofList] at hreport
      obtain ⟨rfl, -, -, hreport⟩ := Excerpt.placeRow_append_inj hreport
      simp only [List.cons_append, List.nil_append, List.cons.injEq, true_and,
        List.append_cancel_left_eq] at hreport
      exact absurd hreport.symm (Excerpt.margin_append_ne _ _)
  · have hframe (filename label : String) (stop : Nat) :
        Excerpt.frame? filename label offset stop source.toList = none := by
      rw [Excerpt.frame?, Excerpt.lineAt?_eq_none hne (Nat.lt_of_not_le hlength)]
      rfl
    simp [hframe, Excerpt.placeRow] at hreport

theorem shows_malformed_iff (hopening : comment.opening ≠ "")
    (h : Excerpt.IsPlace source.toList before l column) :
    (malformed offset comment).Shows source filename l column ↔ before.length = offset ∧
      Excerpt.IsShown source.toList l (offset + comment.opening.utf8ByteSize) := by
  constructor
  · intro hshows
    have hsource : source ≠ "" := fun hnil => h.ne_nil (by rw [hnil]; rfl)
    obtain ⟨before', l', hlength, h', hnumber, hshown⟩ :=
      exists_of_shows_malformed hopening hsource hshows
    rw [h.before_eq h' hnumber.symm, h.eq_of_number_eq h' hnumber.symm]
    exact ⟨hlength, hshown⟩
  · rintro ⟨rfl, hshown⟩
    exact shows_malformed hopening h hshown

end SegmentError

/-- The report on a comment that is not closed shows the line in which the comment opens and the
    column of the opening delimiter just if all characters before it take one byte, and it does not
    seem to reach over the end of the source. What it shows is the place behind as many characters
    as there are bytes before the comment. -/
theorem report_shows_opener [RegexLibrary] {p : Profile} {source : String} {offset : Nat}
    {comment : BlockComment}
    (h : segment p source = .error (.malformed offset comment)) (filename : String) :
    let stop := offset + comment.opening.utf8ByteSize
    let e := SegmentError.malformed offset comment
    (∃ before rest : String, source = before ++ comment.opening ++ rest ∧
      before.utf8ByteSize = offset ∧ ∃ l column,
        Excerpt.IsPlace source.toList before.toList l column ∧
        (e.Shows source filename l column ↔
          (∀ c ∈ before.toList, c.utf8Size = 1) ∧ Excerpt.IsShown source.toList l stop) ∧
        ((∀ c ∈ (before ++ comment.opening).toList, c.utf8Size = 1) →
          e.Shows source filename l column)) ∧
    ∀ l column, offset ≤ source.length →
      Excerpt.IsPlace source.toList (source.toList.take offset) l column →
        (e.Shows source filename l column ↔ Excerpt.IsShown source.toList l stop) := by
  intro stop e
  obtain ⟨hcomment, before, body, rfl, rfl, -, -⟩ := exists_of_segment_malformed h
  obtain ⟨fault, -, hfault⟩ | ⟨hp, -⟩ := segment_eq_error_iff.1 h
  · cases hfault
  have hopening : comment.opening ≠ "" :=
    ((Profile.forall_mem_delimiters.1 (Profile.ne_empty_of_fault? hp).2).2.1 comment hcomment).1
  have hne : (before ++ comment.opening ++ String.ofList body).toList ≠ [] := by
    simp [hopening]
  have hprefix : before.toList <+: (before ++ comment.opening ++ String.ofList body).toList :=
    ⟨comment.opening.toList ++ body, by simp⟩
  obtain ⟨l, column, hplace⟩ := Excerpt.exists_isPlace hne hprefix
  have hbytes (s : String) : s.toList.length = s.utf8ByteSize ↔ ∀ c ∈ s.toList, c.utf8Size = 1 := by
    rw [← Text.byteLength_eq_length_iff, Segment.byteLength_eq, String.ofList_toList, eq_comm]
  refine ⟨⟨before, String.ofList body, rfl, rfl, l, column, hplace, ?_, fun hsmall => ?_⟩,
    fun l' column' hlength hplace' => ?_⟩
  · rw [← hbytes]
    exact SegmentError.shows_malformed_iff hopening hplace
  · rw [String.toList_append, List.forall_mem_append, ← hbytes, ← hbytes] at hsmall
    refine (SegmentError.shows_malformed_iff hopening hplace).2 ⟨hsmall.1, .inl ?_⟩
    simp [← hsmall.1, ← hsmall.2]
  · rw [SegmentError.shows_malformed_iff hopening hplace', and_iff_right]
    exact List.length_take_of_le hlength

/-- An opening delimiter behind a character of two bytes is not shown where it stands. -/
theorem report_shows_opener_behind_accent :
    let p := Profile.cLike "c_cpp" [".c"] Profile.quotes
    let source := "é\n/* a\n"
    let comment : BlockComment := ⟨"/*", "*/"⟩
    segment p source = .error (.malformed 3 comment) ∧
      ∃ before rest : String, source = before ++ comment.opening ++ rest ∧
        before.utf8ByteSize = 3 ∧ ∃ l column,
          Excerpt.IsPlace source.toList before.toList l column ∧
          ¬ (SegmentError.malformed 3 comment).Shows source "a.c" l column := by
  intro p source comment
  have herror : segment p source = .error (.malformed 3 comment) := by decide +kernel
  obtain ⟨⟨before, rest, heq, hsize, l, column, hplace, hiff, -⟩, -⟩ :=
    report_shows_opener herror "a.c"
  refine ⟨herror, before, rest, heq, hsize, l, column, hplace, fun hshows => ?_⟩
  have hsmall := (hiff.1 hshows).1
  cases hbefore : before.toList with
  | nil => simp [String.toList_eq_nil_iff.1 hbefore] at hsize
  | cons c more =>
    have hhead : source.toList.head? = some 'é' := by decide +kernel
    rw [heq, String.toList_append, String.toList_append, hbefore] at hhead
    obtain rfl : c = 'é' := Option.some.inj hhead
    have hone := hsmall 'é' (hbefore ▸ List.mem_cons_self)
    exact absurd hone (by decide +kernel)

end LiterateSync
