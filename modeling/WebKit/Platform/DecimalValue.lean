import WebKit.Platform.DecimalDigits

/-!
# Values of decimal numbers
-/

namespace WebKit.Platform

/-- The factor of a sign. -/
def Sign.toRat : Sign → ℚ
  | .positive => 1
  | .negative => -1

lemma Sign.toRat_invertSign (sign : Sign) : (invertSign sign).toRat = -sign.toRat := by
  cases sign <;> simp [invertSign, Sign.toRat]

namespace Decimal

def magnitude (d : Decimal) : ℚ := d.coefficient.toNat * 10 ^ d.exponent

/-- The rational number that a finite decimal number stands for. -/
def toRat (d : Decimal) : ℚ := d.sign.toRat * d.magnitude

lemma coefficient_lt (d : Decimal) : d.coefficient.toNat < 10 ^ 17 :=
  (le_MaxCoefficient_iff _).mp d.valid.coefficient_le

end Decimal

/-- The coefficient has at most 17 digits before zeros, and the exponent is in range without these
zeros, too. -/
def Fits (exponent : ℤ) (coefficient : ℕ) : Prop :=
  (coefficient = 0 ∨ ExponentMin ≤ exponent) ∧ ∃ zeros : ℕ, 10 ^ zeros ∣ coefficient ∧
    coefficient / 10 ^ zeros < 10 ^ 17 ∧ exponent + zeros ≤ ExponentMax

lemma ten_zpow_pos (e : ℤ) : (0 : ℚ) < 10 ^ e := zpow_pos (by norm_num) e

end WebKit.Platform
