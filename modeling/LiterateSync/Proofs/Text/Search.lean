import Mathlib.Data.List.Infix
import LiterateSync.Text.Basic

namespace LiterateSync.Text

variable {needle s t b r : List Char} {c : Char}

theorem isSome_afterPrefix?_iff : (afterPrefix? needle s).isSome ↔ needle <+: s := by
  rw [Option.isSome_iff_exists]
  exact exists_congr fun r => afterPrefix?_eq_some_iff.trans eq_comm

@[simp] theorem afterPrefix?_append (needle r : List Char) :
    afterPrefix? needle (needle ++ r) = some r :=
  afterPrefix?_eq_some_iff.2 rfl

theorem afterPrefix?_eq_none (h : ¬ needle <+: s) : afterPrefix? needle s = none := by
  rwa [← Option.not_isSome_iff_eq_none, isSome_afterPrefix?_iff]

/-- A prefix without a character ends before that character. -/
theorem prefix_append_iff (hneedle : c ∉ needle) (hs : c ∈ s) (r : List Char) :
    needle <+: s ++ r ↔ needle <+: s := by
  refine ⟨fun h => ?_, fun h => h.trans (List.prefix_append s r)⟩
  rcases List.prefix_or_prefix_of_prefix h (List.prefix_append s r) with h | h
  · exact h
  · exact absurd (h.subset hs) hneedle

/-- A prefix without a character that stands behind a text lies within that text. -/
theorem prefix_append_cons_iff (hneedle : c ∉ needle) : needle <+: s ++ c :: r ↔ needle <+: s := by
  rw [List.append_cons, prefix_append_iff hneedle (by simp), List.prefix_concat_iff]
  refine or_iff_right ?_
  rintro rfl
  simp at hneedle

/-- What is taken of a text while `p` holds does not depend on what stands behind a character
    for which it does not. -/
theorem takeWhile_append_cons {p : Char → Bool} (hc : p c = false) (s r : List Char) :
    (s ++ c :: r).takeWhile p = s.takeWhile p ∧
      (s ++ c :: r).dropWhile p = s.dropWhile p ++ c :: r := by
  induction s with
  | nil => simp [hc]
  | cons d s ih => cases hd : p d <;> simp [hd, ih]

/-- The characters at the start of a text that satisfy `p` end before one that does not. -/
theorem takeWhile_append_of_mem {p : Char → Bool} (hc : p c = false) (hs : c ∈ s) (r : List Char) :
    (s ++ r).takeWhile p = s.takeWhile p ∧ (s ++ r).dropWhile p = s.dropWhile p ++ r ∧
      c ∈ s.dropWhile p := by
  induction s with
  | nil => cases hs
  | cons d s ih =>
    cases hd : p d with
    | false => simpa [hd] using hs
    | true =>
      have hne : c ≠ d := by
        rintro rfl
        rw [hc] at hd
        cases hd
      simpa [hd] using ih (List.mem_of_ne_of_mem hne hs)

@[simp] theorem dropPrefix_append (needle r : List Char) : dropPrefix needle (needle ++ r) = r := by
  rw [dropPrefix, afterPrefix?_append, Option.getD_some]

theorem dropPrefix_of_not_prefix (h : ¬ needle <+: s) : dropPrefix needle s = s := by
  rw [dropPrefix, afterPrefix?_eq_none h, Option.getD_none]

theorem beforeSuffix?_eq_some_iff : beforeSuffix? needle s = some b ↔ s = b ++ needle := by
  simp only [beforeSuffix?, Option.map_eq_some_iff, afterPrefix?_eq_some_iff]
  refine ⟨fun ⟨r, hs, hr⟩ => ?_, fun hs => ⟨b.reverse, by simp [hs], by simp⟩⟩
  rw [← List.reverse_inj, hs, ← hr]
  simp

theorem splitFirst?_of_afterPrefix? (h : afterPrefix? needle s = some r) :
    splitFirst? needle s = some ([], r) := by
  cases s <;> simp [splitFirst?, h]

theorem isSome_splitFirst?_iff : (splitFirst? needle s).isSome ↔ needle <:+: s := by
  induction s with
  | nil => simp [splitFirst?, isSome_afterPrefix?_iff]
  | cons c s ih =>
    rw [splitFirst?, List.infix_cons_iff, ← ih, ← isSome_afterPrefix?_iff]
    split
    · rename_i hsome
      simp [hsome]
    · rename_i hnone
      simp [hnone]

/-- Where a text is first found does not depend on what follows it. -/
theorem splitFirst?_replace (h : splitFirst? needle s = some (b, r)) (t : List Char) :
    splitFirst? needle (b ++ needle ++ t) = some (b, t) := by
  induction s generalizing b with
  | nil =>
    rw [splitFirst?] at h
    obtain ⟨r', -, heq⟩ := Option.map_eq_some_iff.1 h
    cases heq
    exact splitFirst?_of_afterPrefix? (afterPrefix?_append needle t)
  | cons c s ih =>
    have happend := append_of_splitFirst? h
    rw [splitFirst?] at h
    split at h
    · cases h
      exact splitFirst?_of_afterPrefix? (afterPrefix?_append needle t)
    · rename_i hnone
      obtain ⟨⟨b', r'⟩, hsplit, heq⟩ := Option.map_eq_some_iff.1 h
      cases heq
      have hnot : ¬ needle <+: c :: b' ++ needle ++ t := by
        intro hstarts
        have hlen : needle.length ≤ (c :: b' ++ needle).length := by
          rw [List.length_append]
          exact Nat.le_add_left _ _
        have hshort := List.prefix_of_prefix_length_le hstarts (List.prefix_append _ t) hlen
        rw [← Option.not_isSome_iff_eq_none, isSome_afterPrefix?_iff, happend] at hnone
        exact hnone (hshort.trans (List.prefix_append _ r))
      rw [List.cons_append, List.cons_append] at hnot ⊢
      rw [splitFirst?, afterPrefix?_eq_none hnot, ih hsplit]
      rfl

/-- A text is not found before the place where it is first found. -/
theorem not_infix_of_splitFirst? (hneedle : needle ≠ []) (h : splitFirst? needle s = some (b, r)) :
    ¬ needle <:+: b ++ needle.dropLast := by
  have hshort : ¬ needle <:+: needle.dropLast := by
    intro hinfix
    have hlen := hinfix.length_le
    have hpos := List.length_pos_iff.2 hneedle
    rw [List.length_dropLast] at hlen
    omega
  induction s generalizing b with
  | nil =>
    obtain ⟨r', -, heq⟩ := Option.map_eq_some_iff.1 (by rwa [splitFirst?] at h)
    cases heq
    exact hshort
  | cons c s ih =>
    have happend := append_of_splitFirst? h
    rw [splitFirst?] at h
    split at h
    · cases h
      exact hshort
    · rename_i hnone
      obtain ⟨⟨b', r'⟩, hsplit, heq⟩ := Option.map_eq_some_iff.1 h
      cases heq
      rw [List.cons_append, List.infix_cons_iff, not_or]
      refine ⟨fun hstarts => ?_, ih hsplit⟩
      rw [← Option.not_isSome_iff_eq_none, isSome_afterPrefix?_iff, happend] at hnone
      refine hnone (hstarts.trans ?_)
      rw [← List.cons_append, List.append_assoc, List.prefix_append_right_inj]
      exact (List.dropLast_prefix needle).trans (List.prefix_append needle r)

/-- A text is first found at a place that it does not reach from before. -/
theorem splitFirst?_append (h : ¬ needle <:+: b ++ needle.dropLast) (r : List Char) :
    splitFirst? needle (b ++ needle ++ r) = some (b, r) := by
  induction b with
  | nil => exact splitFirst?_of_afterPrefix? (afterPrefix?_append needle r)
  | cons c b ih =>
    have hnot : ¬ needle <+: c :: (b ++ needle ++ r) := by
      intro hstarts
      have hwhole : c :: b ++ needle.dropLast <+: c :: (b ++ needle ++ r) := by
        rw [List.cons_append, List.append_assoc, List.prefix_cons_inj, List.prefix_append_right_inj]
        exact (List.dropLast_prefix needle).trans (List.prefix_append needle r)
      have hlen : needle.length ≤ (c :: b ++ needle.dropLast).length := by
        simp only [List.length_append, List.length_cons, List.length_dropLast]
        omega
      exact h (List.prefix_of_prefix_length_le hstarts hwhole hlen).isInfix
    rw [List.cons_append, List.cons_append, splitFirst?, afterPrefix?_eq_none hnot,
      ih fun hwithin => h (hwithin.trans (List.suffix_cons c _).isInfix)]
    rfl

theorem isSome_splitLast?_iff : (splitLast? needle s).isSome ↔ needle <:+: s := by
  induction s with
  | nil => simp [splitLast?, isSome_afterPrefix?_iff]
  | cons c s ih =>
    rw [splitLast?, List.infix_cons_iff, ← ih, ← isSome_afterPrefix?_iff]
    split
    · rename_i hsome
      simp [hsome]
    · rename_i hnone
      simp [hnone]

theorem append_of_splitLast? (h : splitLast? needle s = some (b, r)) : s = b ++ needle ++ r := by
  induction s generalizing b with
  | nil =>
    simp only [splitLast?, Option.map_eq_some_iff] at h
    obtain ⟨r', hr, heq⟩ := h
    cases heq
    simpa using afterPrefix?_eq_some_iff.1 hr
  | cons c s ih =>
    rw [splitLast?] at h
    split at h
    · rename_i b' r' hsplit
      cases h
      simp [ih hsplit]
    · obtain ⟨r', hr, heq⟩ := Option.map_eq_some_iff.1 h
      cases heq
      simpa using afterPrefix?_eq_some_iff.1 hr

/-- No place where a text is found comes behind the last one. -/
theorem length_le_of_splitLast? {b' r' : List Char} (h : splitLast? needle s = some (b, r))
    (h' : s = b' ++ needle ++ r') : r.length ≤ r'.length := by
  induction s generalizing b b' with
  | nil =>
    have hlen := congrArg List.length (append_of_splitLast? h)
    simp only [List.length_nil, List.length_append] at hlen
    omega
  | cons c s ih =>
    cases b' with
    | nil =>
      have hlen := congrArg List.length (append_of_splitLast? h)
      rw [h', List.nil_append, List.length_append, List.length_append, List.length_append] at hlen
      omega
    | cons d b' =>
      rw [List.cons_append, List.cons_append, List.cons.injEq] at h'
      have hfound : (splitLast? needle s).isSome := by
        rw [isSome_splitLast?_iff, h'.2]
        exact List.infix_append b' needle r'
      obtain ⟨found, hfound⟩ := Option.isSome_iff_exists.1 hfound
      rw [splitLast?, hfound, Option.some.injEq, Prod.mk.injEq] at h
      obtain ⟨-, rfl⟩ := h
      exact ih hfound h'.2

/-- A text is last found at a place behind which it does not begin again. -/
theorem splitLast?_append (hneedle : needle ≠ []) (h : ¬ needle <:+: (needle ++ r).tail)
    (b : List Char) : splitLast? needle (b ++ needle ++ r) = some (b, r) := by
  induction b with
  | nil =>
    obtain ⟨c, rest, rfl⟩ := List.exists_cons_of_ne_nil hneedle
    rw [← isSome_splitLast?_iff, Option.not_isSome_iff_eq_none, List.cons_append,
      List.tail_cons] at h
    rw [List.nil_append, List.cons_append, splitLast?, h, ← List.cons_append,
      afterPrefix?_append]
    rfl
  | cons c b ih => rw [List.cons_append, List.cons_append, splitLast?, ih]

/-- A text without a character is not found across that character. -/
theorem infix_append_cons_iff (hc : c ∉ needle) :
    needle <:+: s ++ c :: t ↔ needle <:+: s ∨ needle <:+: t := by
  refine ⟨fun h => ?_, fun h => h.elim (·.trans (List.prefix_append s _).isInfix)
    fun h => h.trans ((List.suffix_cons c t).trans (List.suffix_append s _)).isInfix⟩
  induction s with
  | nil =>
    rcases List.infix_cons_iff.1 h with h | h
    · cases needle with
      | nil => exact .inl List.nil_infix
      | cons d needle =>
        rw [(List.cons_prefix_cons.1 h).1] at hc
        exact absurd List.mem_cons_self hc
    · exact .inr h
  | cons d s ih =>
    rw [List.cons_append, List.infix_cons_iff] at h
    rcases h with h | h
    · rw [← List.cons_append, prefix_append_cons_iff hc] at h
      exact .inl h.isInfix
    · exact (ih h).imp_left (·.trans (List.suffix_cons d s).isInfix)

/-- A text that is found behind some characters which it does not hold lies behind them. -/
theorem infix_of_infix_append (hs : ∀ c ∈ s, c ∉ needle) (h : needle <:+: s ++ t) :
    needle <:+: t := by
  induction s with
  | nil => exact h
  | cons c s ih =>
    obtain ⟨hc, hs⟩ := List.forall_mem_cons.1 hs
    rw [List.cons_append, ← List.nil_append (c :: (s ++ t)), infix_append_cons_iff hc] at h
    rcases h with h | h
    · exact h.trans List.nil_infix
    · exact ih hs h

end LiterateSync.Text
