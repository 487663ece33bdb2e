import Mathlib.Data.List.Basic
import LiterateSync.Text.Basic

namespace LiterateSync.Text

theorem decimal_eq_ofDigitChars (digits : List Char) :
    decimal digits = Nat.ofDigitChars 10 digits 0 := by
  simp only [decimal, Nat.ofDigitChars_eq_foldl, Nat.mul_comm]

theorem toList_toString (n : Nat) : (toString n).toList = Nat.toDigits 10 n := by
  rw [Nat.toString_eq_repr, Nat.toList_repr]

/-- A number is read back from its digits. -/
theorem decimal_toDigits (n : Nat) : decimal (Nat.toDigits 10 n) = n := by
  rw [decimal_eq_ofDigitChars, Nat.ofDigitChars_ten_toDigits]

theorem all_isDigit_toDigits (n : Nat) : (Nat.toDigits 10 n).all Char.isDigit :=
  List.all_eq_true.2 fun _ hc => Nat.isDigit_of_mem_toDigits (by decide) (by decide) hc

theorem exists_digit_toDigits (n : Nat) :
    ∃ d ds, Nat.toDigits 10 n = d :: ds ∧ d.isDigit := by
  obtain ⟨d, ds, hcons⟩ := List.exists_cons_of_ne_nil (Nat.toDigits_ne_nil (b := 10) (n := n))
  exact ⟨d, ds, hcons, List.all_eq_true.1 (all_isDigit_toDigits n) d (by simp [hcons])⟩

/-- Only the number zero is written with a zero at its start. -/
theorem head?_toDigits (n : Nat) (hn : n ≠ 0) : (Nat.toDigits 10 n).head? ≠ some '0' := by
  induction n using Nat.strongRecOn with
  | ind n ih =>
    by_cases hsmall : n < 10
    · simp [Nat.toDigits_of_lt_base hsmall, hn]
    · have hrest := ih (n / 10) (by omega) (by omega)
      rw [Nat.toDigits_of_base_le (by decide) (by omega)]
      rwa [List.head?_append_of_ne_nil _ Nat.toDigits_ne_nil]

variable {p : Char → Bool} {s t r u : List Char} {c d : Char}

/-- Texts that go on behind all of their first characters of a kind are equal in parts. -/
theorem append_cons_inj (hs : s.all p) (ht : t.all p) (hc : p c = false) (hd : p d = false)
    (h : s ++ c :: r = t ++ d :: u) : s = t ∧ c = d ∧ r = u := by
  have hst : s = t := by
    have htake := congrArg (List.takeWhile p) h
    rwa [List.takeWhile_append_of_pos (List.all_eq_true.1 hs),
      List.takeWhile_cons_of_neg (by simp [hc]),
      List.takeWhile_append_of_pos (List.all_eq_true.1 ht),
      List.takeWhile_cons_of_neg (by simp [hd]), List.append_nil, List.append_nil] at htake
  subst hst
  simpa using h

/-- A number that another character than a digit follows is told from the text. -/
theorem toString_append_inj {n m : Nat} (hc : c.isDigit = false)
    (h : (toString n).toList ++ c :: r = (toString m).toList ++ c :: u) : n = m ∧ r = u := by
  rw [toList_toString, toList_toString] at h
  obtain ⟨hdigits, -, hrest⟩ :=
    append_cons_inj (all_isDigit_toDigits n) (all_isDigit_toDigits m) hc hc h
  rw [← decimal_toDigits n, hdigits, decimal_toDigits]
  exact ⟨rfl, hrest⟩

end LiterateSync.Text
