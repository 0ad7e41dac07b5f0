import Mathlib

/-!
# Rounded division

Division of an integer by a positive number with the halves rounded away from zero, as a sequence of
truncated divisions computes it.
-/

namespace WebKit.Rounding

open Int

variable {n k : ℤ} {d : ℕ}

/-- The quotient rounded to the nearest integer, halves away from zero. -/
def roundDiv (n : ℤ) (d : ℕ) : ℤ :=
  if (d : ℤ) ≤ 2 * |n.tmod d| then
    if n.tmod d < 0 then n.tdiv d - 1 else n.tdiv d + 1
  else n.tdiv d

lemma roundDiv_mul_mul {m : ℕ} (hm : 0 < m) (n : ℤ) (d : ℕ) :
    roundDiv (m * n) (m * d : ℕ) = roundDiv n d := by
  have hm' : (0 : ℤ) < m := by exact_mod_cast hm
  have hneg : (m : ℤ) * n.tmod d < 0 ↔ n.tmod d < 0 := by
    rw [mul_neg_iff]
    omega
  have hle : (m : ℤ) * d ≤ 2 * (m * |n.tmod d|) ↔ (d : ℤ) ≤ 2 * |n.tmod d| := by
    rw [mul_left_comm, mul_le_mul_iff_right₀ hm']
  rw [roundDiv, roundDiv, Nat.cast_mul, mul_tdiv_mul_of_pos _ _ hm',
    mul_tmod_mul_of_pos _ _ hm', abs_mul, abs_of_pos hm']
  simp only [hneg, hle]

section

variable (hd : 0 < d)

include hd

lemma tmod_bounds (n : ℤ) :
    (0 ≤ n → 0 ≤ n.tmod d ∧ n.tmod d < d) ∧ (n ≤ 0 → -d < n.tmod d ∧ n.tmod d ≤ 0) := by
  have hd' : (0 : ℤ) < d := by exact_mod_cast hd
  refine ⟨fun hn => ⟨tmod_nonneg _ hn, tmod_lt_of_pos n hd'⟩, fun hn => ?_⟩
  have hneg := tmod_nonneg d (neg_nonneg.2 hn)
  have hneg' := tmod_lt_of_pos (-n) hd'
  rw [neg_tmod] at hneg hneg'
  omega

lemma abs_tmod_lt (n : ℤ) : |n.tmod d| < d := by
  obtain ⟨hpos, hneg⟩ := tmod_bounds hd n
  rcases le_total 0 n with h | h
  · exact abs_lt.2 ⟨by have := (hpos h).1; omega, (hpos h).2⟩
  · exact abs_lt.2 ⟨(hneg h).1, by have := (hneg h).2; omega⟩

/-- The quotient is off by at most one half. -/
lemma two_mul_abs_roundDiv_sub_le (n : ℤ) : 2 * |roundDiv n d * d - n| ≤ d := by
  have hn := mul_tdiv_add_tmod n d
  have hlt := abs_tmod_lt hd n
  rw [roundDiv]
  split_ifs with hhalf hneg
  · rw [show (n.tdiv d - 1) * d - n = -n.tmod d - d by linear_combination hn,
      abs_of_nonpos] <;> rw [abs_of_neg hneg] at * <;> omega
  · rw [show (n.tdiv d + 1) * d - n = d - n.tmod d by linear_combination hn,
      abs_of_nonneg] <;> rw [abs_of_nonneg (not_lt.1 hneg)] at * <;> omega
  · rw [show n.tdiv d * d - n = -n.tmod d by linear_combination hn, abs_neg]
    omega

lemma abs_roundDiv_sub_le (n : ℤ) : |(roundDiv n d : ℚ) - n / d| ≤ 1 / 2 := by
  have hd' : (0 : ℚ) < d := by exact_mod_cast hd
  have h : 2 * |(roundDiv n d : ℚ) * d - n| ≤ d := by
    exact_mod_cast two_mul_abs_roundDiv_sub_le hd n
  rw [show (roundDiv n d : ℚ) - n / d = (roundDiv n d * d - n) / d by field_simp, abs_div,
    abs_of_pos hd', div_le_div_iff₀ hd' two_pos]
  linarith

lemma roundDiv_mul (k : ℤ) : roundDiv (k * d) d = k := by
  have h := two_mul_abs_roundDiv_sub_le hd (k * d)
  have hd' : (0 : ℤ) < d := by exact_mod_cast hd
  rw [← sub_mul, abs_mul, abs_of_pos hd'] at h
  have habs : |roundDiv (k * d) d - k| < 1 := by nlinarith
  rw [abs_lt_one_iff] at habs
  omega

lemma roundDiv_le (h : 2 * n < (2 * k + 1) * d) : roundDiv n d ≤ k := by
  have herr := two_mul_abs_roundDiv_sub_le hd n
  have hself := le_abs_self (roundDiv n d * d - n)
  by_contra hlt
  have hmul : (k + 1) * d ≤ roundDiv n d * d :=
    mul_le_mul_of_nonneg_right (by omega) (by positivity)
  linarith

lemma le_roundDiv (h : (2 * k - 1) * d < 2 * n) : k ≤ roundDiv n d := by
  have herr := two_mul_abs_roundDiv_sub_le hd n
  have hself := neg_abs_le (roundDiv n d * d - n)
  by_contra hlt
  have hmul : roundDiv n d * d ≤ (k - 1) * d :=
    mul_le_mul_of_nonneg_right (by omega) (by positivity)
  linarith

/-- A scaled numerator is divided by dividing the remainder only. -/
lemma tdiv_mul_eq (n : ℤ) (m : ℕ) :
    (n * m).tdiv d = n.tdiv d * m + (n.tmod d * m).tdiv d ∧
      (n * m).tmod d = (n.tmod d * m).tmod d := by
  have hpos : ∀ {n : ℤ}, 0 ≤ n → (n * m).tdiv d = n.tdiv d * m + (n.tmod d * m).tdiv d ∧
      (n * m).tmod d = (n.tmod d * m).tmod d := by
    intro n hn
    have hd' : (d : ℤ) ≠ 0 := by exact_mod_cast hd.ne'
    have hmod : 0 ≤ n % d := emod_nonneg _ hd'
    have hspl : n * m = n % d * m + d * (n / d * m) := by
      linear_combination -m * emod_add_mul_ediv n d
    rw [tdiv_eq_ediv_of_nonneg (by positivity), tdiv_eq_ediv_of_nonneg hn,
      tmod_eq_emod_of_nonneg hn, tdiv_eq_ediv_of_nonneg (by positivity),
      tmod_eq_emod_of_nonneg (by positivity), tmod_eq_emod_of_nonneg (by positivity),
      hspl, add_mul_ediv_left _ _ hd', add_mul_emod_self_left]
    exact ⟨add_comm _ _, rfl⟩
  rcases le_total 0 n with hn | hn
  · exact hpos hn
  · have h := hpos (neg_nonneg.2 hn)
    simp only [neg_mul, Int.neg_tdiv, neg_tmod] at h
    exact ⟨by linarith [h.1], neg_inj.1 h.2⟩

end

end WebKit.Rounding
