import LiterateSync.Text.Basic

namespace LiterateSync.Json

/-- The size of a number: a significand below 2^64 times a power of ten. -/
structure Magnitude where
  significand : Nat
  exponent : Int
  deriving DecidableEq, Repr

/-- Appends digits to a significand as long as it stays below 2^64, and gives the digits that are
    left. -/
def appendDigits (significand : Nat) : List Char → Nat × List Char
  | [] => (significand, [])
  | d :: ds =>
    let longer := significand * 10 + (d.toNat - '0'.toNat)
    if longer < Nat.pow 2 64 then appendDigits longer ds else (significand, d :: ds)

/-- The size of a number with the given digits before and behind its decimal point. Digits that
    the significand has no room for count as zeros. -/
def Magnitude.ofDigits (whole fraction : List Char) (exponent : Int) : Magnitude :=
  let (significand, zeros) := appendDigits 0 whole
  let (significand, rest) := appendDigits significand fraction
  ⟨significand, exponent + zeros.length - (fraction.length - rest.length : Nat)⟩

/-- The number with at most 53 binary digits before its zeros that is nearest to `n`; of two that
    are equally near, the one with the even last digit. -/
def nearestDouble (n : Nat) : Nat :=
  let unit := Nat.pow 2 (n.log2 - 52)
  let quotient := n / unit
  let twice := 2 * (n % unit)
  if twice < unit || (twice = unit && quotient % 2 = 0) then quotient * unit
  else (quotient + 1) * unit

/-- Whether a size is within the range of doubles. The significand and the power of ten are
    rounded before they are multiplied, and the product must not round to 2^1024. -/
def Magnitude.isFinite (m : Magnitude) : Bool :=
  m.significand = 0 || m.exponent < 0 ||
    (m.exponent ≤ 308 &&
      nearestDouble m.significand * nearestDouble (Nat.pow 10 m.exponent.toNat) <
        Nat.pow 2 1024 - Nat.pow 2 970)

end LiterateSync.Json
