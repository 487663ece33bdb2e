import Mathlib.Algebra.Order.Ring.Nat
import LiterateSync.Wire.Reader
import LiterateSync.Proofs.Text.Digits

namespace LiterateSync.Json

/-! ### Strings -/

theorem hexValue?_hexDigit : ∀ n < 16, hexValue? (hexDigit n) = some n := by
  decide

theorem unicodeUnit?_control {c : Char} (hc : c.toNat < 0x20) :
    unicodeUnit? '0' '0' (hexDigit (c.toNat / 16)) (hexDigit (c.toNat % 16)) =
      some (.char c) := by
  have hhigh : hexValue? (hexDigit (c.toNat / 16)) = some (c.toNat / 16) :=
    hexValue?_hexDigit _ (by omega)
  have hlow : hexValue? (hexDigit (c.toNat % 16)) = some (c.toNat % 16) :=
    hexValue?_hexDigit _ (by omega)
  have hzero : hexValue? '0' = some 0 := by decide
  have hcode : c.toNat / 16 * 16 + c.toNat % 16 = c.toNat := by omega
  have hunit : unitOfCode c.toNat = .char c := by
    rw [unitOfCode, if_neg (by simp; omega), Char.ofNat_toNat]
  simp [unicodeUnit?, hzero, hhigh, hlow, hcode, hunit]

/-- A character that is written for itself is read as itself. -/
theorem stringUnits?_cons {c : Char} (hquote : c ≠ '"') (hslash : c ≠ '\\')
    (hc : ¬ c.toNat < 0x20) (r : List Char) :
    stringUnits? (c :: r) =
      (stringUnits? r).map fun (units, r) => (.char c :: units, r) := by
  rw [stringUnits?]
  all_goals simp_all

theorem stringUnits?_escape (c : Char) (r : List Char) :
    stringUnits? (escape c ++ r) =
      (stringUnits? r).map fun (units, r) => (.char c :: units, r) := by
  unfold escape
  split
  case h_8 hquote hslash _ _ _ _ _ =>
    split
    case isTrue hc =>
      simp [stringUnits?, unicodeUnit?_control hc, Option.map_eq_bind]
    case isFalse hc => exact stringUnits?_cons hquote hslash hc r
  all_goals simp [stringUnits?, simpleEscape?, Option.map_eq_bind]

theorem stringUnits?_flatMap_escape (s r : List Char) :
    stringUnits? (s.flatMap escape ++ '"' :: r) = some (s.map .char, r) := by
  induction s with
  | nil => simp [stringUnits?]
  | cons c s ih => simp [stringUnits?_escape, ih]

theorem joinUnits?_map_char (s : List Char) : joinUnits? (s.map .char) = some s := by
  induction s with
  | nil => rfl
  | cons c s ih => simp [joinUnits?, ih]

/-- A name or a string is read as it was quoted, whatever characters it has. -/
theorem name?_quote (s : String) (r : List Char) :
    name? (s.toList.flatMap escape ++ '"' :: r) = some (some s, r) := by
  simp [name?, stringUnits?_flatMap_escape, joinUnits?_map_char]

/-! ### Numbers -/

/-- Nothing at the start of a text continues a number that stands before it. -/
def EndsNumber (r : List Char) : Prop :=
  ∀ c ∈ r.head?, c.isDigit = false ∧ c ≠ '.' ∧ c ≠ 'e' ∧ c ≠ 'E'

theorem endsNumber_nil : EndsNumber [] := by
  simp [EndsNumber]

theorem digits?_append {ds r : List Char} (hds : ds.all Char.isDigit) (hne : ds ≠ [])
    (hr : EndsNumber r) : digits? (ds ++ r) = some (ds, r) := by
  have hall : ∀ c ∈ ds, c.isDigit := List.all_eq_true.1 hds
  have htake : r.takeWhile Char.isDigit = [] ∧ r.dropWhile Char.isDigit = r := by
    cases r with
    | nil => simp
    | cons c r => simp [(hr c rfl).1]
  rw [digits?, List.takeWhile_append_of_pos hall, List.dropWhile_append_of_pos hall,
    htake.1, htake.2, List.append_nil]
  cases ds with
  | nil => exact absurd rfl hne
  | cons d ds => rfl

theorem fraction?_of_endsNumber {r : List Char} (hr : EndsNumber r) :
    fraction? r = some ([], r) := by
  cases r with
  | nil => rfl
  | cons c r =>
    rw [fraction?]
    rintro s heq
    exact (hr c rfl).2.1 (List.cons.inj heq).1

theorem exponent?_of_endsNumber {r : List Char} (hr : EndsNumber r) :
    exponent? r = some (none, r) := by
  cases r with
  | nil => rfl
  | cons c r => simp [exponent?, (hr c rfl).2.2]

/-- The significand has room for all digits of a number below the bound. -/
theorem appendDigits_of_lt {ds : List Char} {start : Nat}
    (h : Nat.ofDigitChars 10 ds start < Nat.pow 2 64) :
    appendDigits start ds = (Nat.ofDigitChars 10 ds start, []) := by
  induction ds generalizing start with
  | nil => rfl
  | cons d ds ih =>
    rw [Nat.ofDigitChars_cons, Nat.mul_comm] at h ⊢
    have hgrows : start * 10 + (d.toNat - '0'.toNat) ≤
        Nat.ofDigitChars 10 ds (start * 10 + (d.toNat - '0'.toNat)) := by
      rw [Nat.ofDigitChars_eq_ofDigitChars_zero]
      exact Nat.le_add_right_of_le (Nat.le_mul_of_pos_left _ (Nat.pow_pos (by decide)))
    rw [appendDigits, if_pos (lt_of_le_of_lt hgrows h)]
    exact ih h

theorem nearestDouble_le (n : Nat) : nearestDouble n ≤ 2 * n + 1 := by
  have hunit : Nat.pow 2 (n.log2 - 52) ≤ n + 1 := by
    by_cases hn : n = 0
    · simp [hn]
    · have hlog : Nat.pow 2 (n.log2 - 52) ≤ 2 ^ n.log2 := Nat.pow_le_pow_right (by decide) (by omega)
      have hself : 2 ^ n.log2 ≤ n := Nat.log2_self_le hn
      omega
  have hdown : n / Nat.pow 2 (n.log2 - 52) * Nat.pow 2 (n.log2 - 52) ≤ n := Nat.div_mul_le_self n _
  rw [nearestDouble]
  split
  · omega
  · rw [Nat.succ_mul]
    omega

theorem isFinite_of_lt {n : Nat} (hn : n < Nat.pow 2 64) : (Magnitude.mk n 0).isFinite := by
  have hone : nearestDouble (Nat.pow 10 (0 : Int).toNat) = 1 := by decide
  have hbound : 2 * Nat.pow 2 64 + 1 < Nat.pow 2 1024 - Nat.pow 2 970 := by
    decide +kernel
  have hlt : nearestDouble n < Nat.pow 2 1024 - Nat.pow 2 970 := by
    have := nearestDouble_le n
    omega
  simp only [Magnitude.isFinite, hone, Nat.mul_one, hlt]
  simp

/-- A number of 64 bits is read as it was written. -/
theorem number?_toString {n : Nat} (hn : n < Nat.pow 2 64) {r : List Char} (hr : EndsNumber r) :
    number? ((toString n).toList ++ r) = some (.nat n, r) := by
  have hsize : Magnitude.ofDigits (Nat.toDigits 10 n) [] 0 = ⟨n, 0⟩ := by
    have happend := appendDigits_of_lt (Nat.ofDigitChars_ten_toDigits (n := n) ▸ hn)
    rw [Nat.ofDigitChars_ten_toDigits] at happend
    simp [Magnitude.ofDigits, happend, appendDigits]
  have hsign : (Nat.toDigits 10 n ++ r).head? ≠ some '-' := by
    obtain ⟨d, ds, hcons, hd⟩ := Text.exists_digit_toDigits n
    rintro heq
    obtain rfl : d = '-' := by simpa [hcons] using heq
    simp at hd
  have hzero : ¬ ((Nat.toDigits 10 n).head? = some '0' ∧ 1 < (Nat.toDigits 10 n).length) := by
    rintro ⟨hhead, hlength⟩
    obtain rfl : n = 0 := by_contra fun hn => Text.head?_toDigits n hn hhead
    simp at hlength
  rw [Text.toList_toString, number?]
  simp only [hsign, decide_false, if_false]
  rw [digits?_append (Text.all_isDigit_toDigits n) Nat.toDigits_ne_nil hr]
  simp only [Option.bind_eq_bind, Option.bind_some, Bool.and_eq_true, decide_eq_true_eq, hzero,
    if_false, fraction?_of_endsNumber hr, exponent?_of_endsNumber hr, Option.getD_none, hsize,
    isFinite_of_lt hn, Text.decimal_toDigits]
  simp

end LiterateSync.Json
