import Mathlib.Data.List.Basic
import LiterateSync.Proofs.Segment.Lines
import LiterateSync.Text.LineEnding

namespace LiterateSync.LineEnding

/-- A text whose line feeds are written as line endings of one style. -/
def spread (e : LineEnding) (s : List Char) : List Char :=
  s.flatMap fun c => if c = '\n' then e.chars else [c]

/-- Whether a carriage return stands right before each line feed, and nowhere else. -/
def isPaired : List Char → Bool
  | '\r' :: '\n' :: s => isPaired s
  | c :: s => c ≠ '\r' && c ≠ '\n' && isPaired s
  | [] => true

/-- Whether all line endings of a text are of one style, and all its carriage returns belong to
    them. -/
def isUniform (e : LineEnding) (s : List Char) : Bool :=
  match e with
  | .lf => !s.contains '\r'
  | .crlf => isPaired s

variable {e : LineEnding} {s t : List Char} {c : Char}

@[simp] theorem spread_nil (e : LineEnding) : spread e [] = [] := rfl

@[simp] theorem spread_feed (e : LineEnding) (s : List Char) :
    spread e ('\n' :: s) = e.chars ++ spread e s := by
  simp [spread]

theorem spread_cons (e : LineEnding) (s : List Char) (hc : c ≠ '\n') :
    spread e (c :: s) = c :: spread e s := by
  simp [spread, hc]

@[simp] theorem spread_append (e : LineEnding) (s t : List Char) :
    spread e (s ++ t) = spread e s ++ spread e t := by
  simp [spread]

theorem spread_of_not_mem (e : LineEnding) (hs : '\n' ∉ s) : spread e s = s := by
  induction s with
  | nil => rfl
  | cons c s ih =>
    rw [List.mem_cons, not_or] at hs
    rw [spread_cons e s (Ne.symm hs.1), ih hs.2]

theorem spread_lf (s : List Char) : spread .lf s = s := by
  induction s with
  | nil => rfl
  | cons c s ih =>
    by_cases hc : c = '\n'
    · rw [hc, spread_feed, ih]
      rfl
    · rw [spread_cons .lf s hc, ih]

theorem toLf_cons (hc : c ≠ '\r') (s : List Char) : toLf (c :: s) = c :: toLf s := by
  rw [toLf]
  rintro s' rfl
  exact absurd rfl hc

theorem toLf_of_not_mem (hs : '\r' ∉ s) : toLf s = s := by
  induction s with
  | nil => rfl
  | cons c s ih =>
    rw [List.mem_cons, not_or] at hs
    rw [toLf_cons (Ne.symm hs.1), ih hs.2]

/-- Text in one style gets its line feeds back, whatever text follows. -/
theorem toLf_spread_append (e : LineEnding) (hs : '\r' ∉ s) (t : List Char) :
    toLf (spread e s ++ t) = s ++ toLf t := by
  induction s with
  | nil => rfl
  | cons c s ih =>
    rw [List.mem_cons, not_or] at hs
    by_cases hc : c = '\n'
    · subst hc
      rw [spread_feed, List.append_assoc, List.cons_append]
      cases e with
      | lf => rw [chars, List.singleton_append, toLf_cons (by decide), ih hs.2]
      | crlf => rw [chars, List.cons_append, List.singleton_append, toLf, ih hs.2]
    · rw [spread_cons e s hc, List.cons_append, toLf_cons (Ne.symm hs.1), ih hs.2,
        List.cons_append]

theorem toLf_spread (e : LineEnding) (hs : '\r' ∉ s) : toLf (spread e s) = s := by
  have h := toLf_spread_append e hs []
  rwa [List.append_nil, toLf, List.append_nil] at h

/-- A text is written in a style by way of plain line feeds. -/
theorem convertChars_eq (e : LineEnding) (s : List Char) :
    convertChars e s = spread e (toLf s) := by
  cases e with
  | lf => rw [convertChars, spread_lf]
  | crlf => rfl

theorem convertChars_of_not_mem (e : LineEnding) (hs : '\r' ∉ s) :
    convertChars e s = spread e s := by
  rw [convertChars_eq, toLf_of_not_mem hs]

theorem count_toLf (s : List Char) : (toLf s).count '\n' = s.count '\n' := by
  fun_induction toLf s with
  | case1 s ih => simpa using ih
  | case2 c s _ ih => simp [List.count_cons, ih]
  | case3 => rfl

theorem count_spread (e : LineEnding) (s : List Char) :
    (spread e s).count '\n' = s.count '\n' := by
  induction s with
  | nil => rfl
  | cons c s ih =>
    by_cases hc : c = '\n'
    · rw [hc, spread_feed, List.count_append, ih, List.count_cons_self, Nat.add_comm]
      cases e <;> rfl
    · rw [spread_cons e s hc, List.count_cons_of_ne hc, List.count_cons_of_ne hc, ih]

theorem endsLine_toLf (hs : EndsLine s) : EndsLine (toLf s) := by
  fun_induction toLf s with
  | case1 s ih =>
    by_cases hnil : s = []
    · rw [hnil]
      rfl
    · exact (ih ((hs.of_cons (List.cons_ne_nil _ s)).of_cons hnil)).append_left ['\n']
  | case2 c s _ ih =>
    by_cases hnil : s = []
    · subst hnil
      exact hs
    · exact (ih (hs.of_cons hnil)).append_left [c]
  | case3 => exact hs

theorem endsLine_spread (e : LineEnding) (hs : EndsLine s) : EndsLine (spread e s) := by
  obtain ⟨t, rfl⟩ := List.getLast?_eq_some_iff.1 hs
  rw [spread_append]
  refine EndsLine.append_left ?_ _
  cases e <;> rfl

theorem toList_convert (e : LineEnding) (text : String) :
    (e.convert text).toList = convertChars e text.toList := by
  rw [convert, String.toList_ofList]

theorem endsLine_convert (e : LineEnding) {text : String} (h : EndsLine text.toList) :
    EndsLine (e.convert text).toList := by
  rw [toList_convert, convertChars_eq]
  exact endsLine_spread e (endsLine_toLf h)

/-- Line endings are neither made nor lost when they are written in another style. -/
theorem count_convert (e : LineEnding) (text : String) :
    (e.convert text).toList.count '\n' = text.toList.count '\n' := by
  rw [toList_convert, convertChars_eq, count_spread, count_toLf]

theorem isPaired_cons (hc : c ≠ '\r') (s : List Char) :
    isPaired (c :: s) = (c ≠ '\n' && isPaired s) := by
  rw [isPaired]
  · simp [hc]
  · rintro s' rfl
    exact absurd rfl hc

theorem isUniform_spread (e : LineEnding) (hs : '\r' ∉ s) : isUniform e (spread e s) = true := by
  cases e with
  | lf => simpa [isUniform, spread_lf] using hs
  | crlf =>
    rw [isUniform]
    induction s with
    | nil => rfl
    | cons c s ih =>
      rw [List.mem_cons, not_or] at hs
      by_cases hc : c = '\n'
      · rw [hc, spread_feed]
        exact ih hs.2
      · rw [spread_cons .crlf s hc, isPaired_cons (Ne.symm hs.1), ih hs.2]
        simpa using hc

/-- A text has line endings of one style if it is a text with line feeds, written in that style. -/
theorem isUniform_iff : isUniform e s = true ↔ ∃ t, '\r' ∉ t ∧ s = spread e t := by
  refine ⟨fun h => ?_, fun ⟨t, ht, heq⟩ => heq ▸ isUniform_spread e ht⟩
  cases e with
  | lf => exact ⟨s, by simpa [isUniform] using h, (spread_lf s).symm⟩
  | crlf =>
    rw [isUniform] at h
    fun_induction isPaired s with
    | case1 s ih =>
      obtain ⟨t, ht, rfl⟩ := ih h
      exact ⟨'\n' :: t, by simp [ht], (spread_feed .crlf t).symm⟩
    | case2 c s _ ih =>
      simp only [Bool.and_eq_true, decide_eq_true_eq] at h
      obtain ⟨t, ht, rfl⟩ := ih h.2
      exact ⟨c :: t, by simp [ht, Ne.symm h.1.1], (spread_cons .crlf t h.1.2).symm⟩
    | case3 => exact ⟨[], by simp, rfl⟩

theorem isPaired_append (hs : EndsLine s) (t : List Char) :
    isPaired (s ++ t) = (isPaired s && isPaired t) := by
  fun_induction isPaired s with
  | case1 s ih =>
    rw [List.cons_append, List.cons_append, isPaired]
    by_cases hnil : s = []
    · rw [hnil]
      simp [isPaired]
    · exact ih ((hs.of_cons (List.cons_ne_nil _ s)).of_cons hnil)
  | case2 c s hnot ih =>
    by_cases hnil : s = []
    · have hc : c = '\n' := by simpa [hnil, EndsLine] using hs
      rw [hnil, hc, List.singleton_append, isPaired_cons (by decide)]
      simp
    · rw [List.cons_append, isPaired]
      · simp only [ih (hs.of_cons hnil), Bool.and_assoc]
      · rintro s' rfl hs'
        obtain ⟨d, s, rfl⟩ := List.exists_cons_of_ne_nil hnil
        rw [List.cons_append, List.cons.injEq] at hs'
        exact hnot s rfl (by rw [hs'.1])
  | case3 => cases hs

/-- Texts that meet behind a line feed have line endings of one style together or not at all. -/
theorem isUniform_append (e : LineEnding) (hs : EndsLine s) (t : List Char) :
    isUniform e (s ++ t) = (isUniform e s && isUniform e t) := by
  cases e with
  | lf => simp [isUniform, Bool.not_or]
  | crlf => exact isPaired_append hs t

/-- A text with line endings of one style is written in that style again. -/
theorem convertChars_toLf (h : isUniform e s = true) : convertChars e (toLf s) = s := by
  obtain ⟨t, ht, rfl⟩ := isUniform_iff.1 h
  rw [toLf_spread e ht, convertChars_of_not_mem e ht]

theorem ofChars_cons (hc : c ≠ '\n') (hs : c = '\r' → s.head? ≠ some '\n') :
    ofChars (c :: s) = ofChars s := by
  rw [ofChars]
  · rintro s' rfl rfl
    exact hs rfl rfl
  · rintro rfl
    exact hc rfl

/-- The style of a text is the one that all its line endings have. -/
theorem ofChars_spread (e : LineEnding) (hs : '\r' ∉ s) :
    ofChars (spread e s) = if '\n' ∈ s then e else .lf := by
  induction s with
  | nil => rfl
  | cons c s ih =>
    rw [List.mem_cons, not_or] at hs
    by_cases hc : c = '\n'
    · rw [hc, spread_feed, if_pos List.mem_cons_self]
      cases e <;> rfl
    · rw [spread_cons e s hc, ofChars_cons hc fun heq => absurd heq.symm hs.1, ih hs.2]
      simp [Ne.symm hc]

theorem isUniform_ofChars (h : isUniform e s = true) : isUniform (ofChars s) s = true := by
  obtain ⟨t, ht, rfl⟩ := isUniform_iff.1 h
  rw [ofChars_spread e ht]
  split
  · exact h
  · rename_i hfeed
    rw [spread_of_not_mem e hfeed]
    simpa [isUniform] using ht

end LiterateSync.LineEnding
