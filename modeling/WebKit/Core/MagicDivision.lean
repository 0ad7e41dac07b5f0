import Mathlib

/-!
# Division by multiplication

To divide by `d`, multiply by a number `M` just above `P / d` and divide by `P`. The error of the
product is small as long as `nc * δ < P`, where `δ = M * d - P` and `nc` is the greatest number of
the wanted range with the remainder `d - 1`.
-/

namespace MagicDivision

open Nat

variable {d P M δ nc n : ℕ}

/-- `M` is `P / d` rounded up by `δ / d`, and `nc` bounds the numbers for which this is precise
enough. -/
structure Reciprocal (d P M δ nc : ℕ) : Prop where
  mul_eq : M * d = P + δ
  pos : 0 < δ
  le : δ ≤ d
  dvd : d ∣ nc + 1
  lt : nc * δ < P

namespace Reciprocal

variable (h : Reciprocal d P M δ nc)

include h

lemma divisor_pos : 0 < d := h.pos.trans_le h.le

lemma modulus_pos : 0 < P := zero_lt_of_lt h.lt

lemma multiplier_pos : 0 < M := by
  apply Nat.pos_of_mul_pos_right
  rw [h.mul_eq]
  exact Nat.add_pos_right P h.pos

lemma divisor_le : d ≤ nc + 1 := le_of_dvd (succ_pos _) h.dvd

lemma mul_error_lt (hn : n < nc + d) : n * δ < P * (d - n % d) := by
  have hmod := mod_lt n h.divisor_pos
  rcases Nat.lt_or_ge nc n with hlt | hle
  · -- `n` follows a multiple of `d`, and its remainder is less than `d - 1`
    obtain ⟨r, rfl⟩ := Nat.exists_eq_add_of_le (succ_le_of_lt hlt)
    have hr : (nc + 1 + r) % d = r := by
      obtain ⟨k, hk⟩ := h.dvd
      rw [hk, mul_add_mod, mod_eq_of_lt (by omega)]
    rw [hr]
    have hle : (1 + r) * δ ≤ nc * δ := mul_le_mul_right δ (by have := h.divisor_le; omega)
    have hgap : 2 ≤ d - r := by omega
    calc (nc + 1 + r) * δ = nc * δ + (1 + r) * δ := by ring
      _ < P + P := Nat.add_lt_add h.lt (hle.trans_lt h.lt)
      _ = P * 2 := by ring
      _ ≤ P * (d - r) := mul_le_mul_left P hgap
  · calc n * δ ≤ nc * δ := mul_le_mul_right δ hle
      _ < P * 1 := by rw [Nat.mul_one]; exact h.lt
      _ ≤ P * (d - n % d) := mul_le_mul_left P (by omega)

/-- The next number is precise enough too when it divides `P`. -/
lemma mul_error_le (hn : n ≤ nc + d) (hdvd : n ∣ P) : n * δ ≤ P * (d - n % d) := by
  rcases Nat.lt_or_ge n (nc + d) with hlt | hge
  · exact (h.mul_error_lt hlt).le
  · obtain rfl : n = nc + d := by omega
    obtain ⟨c, hc⟩ := hdvd
    have hmod := mod_lt (nc + d) h.divisor_pos
    have hδ : δ ≤ c := by
      by_contra hcon
      have hsum : d ∣ P + c := by
        obtain ⟨k, hk⟩ := h.dvd
        refine ⟨(k + 1) * c, ?_⟩
        calc P + c = (nc + 1 + d) * c := by rw [hc]; ring
          _ = d * ((k + 1) * c) := by rw [hk]; ring
      have hdiff : d ∣ δ - c := by
        have hP : d ∣ P + δ := ⟨M, by rw [← h.mul_eq, Nat.mul_comm]⟩
        have := dvd_sub hP hsum
        rwa [Nat.add_sub_add_left] at this
      have := le_of_dvd (by omega) hdiff
      have := h.le
      have hcpos : 0 < c := by
        rcases Nat.eq_zero_or_pos c with rfl | hpos
        · have := h.modulus_pos
          omega
        · exact hpos
      omega
    calc (nc + d) * δ ≤ (nc + d) * c := mul_le_mul_left _ hδ
      _ = P * 1 := by rw [Nat.mul_one, hc]
      _ ≤ P * (d - (nc + d) % d) := mul_le_mul_left P (by omega)

lemma div_mul_mul_eq (n : ℕ) : n * M * d = n / d * P * d + (n % d * P + n * δ) := by
  have hn := div_add_mod n d
  calc n * M * d = n * P + n * δ := by rw [Nat.mul_assoc, h.mul_eq]; ring
    _ = (d * (n / d) + n % d) * P + n * δ := by rw [hn]
    _ = _ := by ring

lemma succ_div_mul_mul_eq : (n / d + 1) * P * d =
    n / d * P * d + (n % d * P + P * (d - n % d)) := by
  have hmod := mod_lt n h.divisor_pos
  calc (n / d + 1) * P * d
      = n / d * P * d + P * (n % d + (d - n % d)) := by rw [Nat.add_sub_cancel' hmod.le]; ring
    _ = n / d * P * d + (n % d * P + P * (d - n % d)) := by ring

lemma mul_le_of_error_le (hn : n * δ ≤ P * (d - n % d)) : n * M ≤ (n / d + 1) * P := by
  refine Nat.le_of_mul_le_mul_right ?_ h.divisor_pos
  rw [h.div_mul_mul_eq, h.succ_div_mul_mul_eq]
  gcongr

lemma mul_lt_of_error_lt (hn : n * δ < P * (d - n % d)) : n * M < (n / d + 1) * P := by
  refine Nat.lt_of_mul_lt_mul_right (a := d) ?_
  rw [h.div_mul_mul_eq, h.succ_div_mul_mul_eq]
  gcongr

lemma lt_mul (hn : 0 < n) : n / d * P < n * M := by
  refine Nat.lt_of_mul_lt_mul_right (a := d) ?_
  rw [h.div_mul_mul_eq]
  have : 0 < n * δ := Nat.mul_pos hn h.pos
  omega

/-- Multiplying and dividing rounds down as the division by `d` does. -/
theorem mul_div (hn : n < nc + d) : n * M / P = n / d := by
  rcases Nat.eq_zero_or_pos n with rfl | hpos
  · simp
  · exact Nat.div_eq_of_lt_le (h.lt_mul hpos).le (h.mul_lt_of_error_lt (h.mul_error_lt hn))

/-- For a negative numerator, multiplying and dividing rounds to one less. -/
theorem neg_mul_ediv (hpos : 0 < n) (hn : n < nc + d ∨ n ≤ nc + d ∧ n ∣ P) :
    -(n * M : ℤ) / P = -(n / d : ℕ) - 1 := by
  have hle : n * M ≤ (n / d + 1) * P := by
    rcases hn with hn | ⟨hn, hdvd⟩
    · exact (h.mul_lt_of_error_lt (h.mul_error_lt hn)).le
    · exact h.mul_le_of_error_le (h.mul_error_le hn hdvd)
  have hlt := h.lt_mul hpos
  have hP : (0 : ℤ) < P := by exact_mod_cast h.modulus_pos
  have hle' : (n * M : ℤ) ≤ ((n / d : ℕ) + 1) * P := by exact_mod_cast hle
  have hlt' : ((n / d : ℕ) * P : ℤ) < n * M := by exact_mod_cast hlt
  apply le_antisymm
  · rw [← Int.lt_add_one_iff, Int.ediv_lt_iff_lt_mul hP]
    linarith
  · rw [Int.le_ediv_iff_mul_le hP]
    linarith

end Reciprocal

/-! ### Searching for the modulus -/

lemma two_mul_div (P : ℕ) {a : ℕ} (ha : 0 < a) :
    2 * P / a = if a ≤ 2 * (P % a) then 2 * (P / a) + 1 else 2 * (P / a) := by
  have hP := div_add_mod P a
  have hmod := mod_lt P ha
  have hmul : 2 * P = a * (2 * (P / a)) + 2 * (P % a) := by linarith
  rw [hmul, mul_add_div ha]
  split_ifs with h
  · rw [show 2 * (P % a) / a = 1 from Nat.div_eq_of_lt_le (by omega) (by omega)]
  · simp [div_eq_of_lt (show 2 * (P % a) < a by omega)]

lemma two_mul_mod (P : ℕ) {a : ℕ} (ha : 0 < a) :
    2 * P % a = if a ≤ 2 * (P % a) then 2 * (P % a) - a else 2 * (P % a) := by
  have hmod := mod_lt P ha
  have heq : 2 * P % a = 2 * (P % a) % a := by simp
  rw [heq]
  split_ifs with h
  · rw [mod_eq_sub_mod h, mod_eq_of_lt (by omega)]
  · exact mod_eq_of_lt (by omega)

lemma reciprocal_of_lt (hd : 0 < d) (hdvd : d ∣ nc + 1) (hlt : nc * (d - P % d) < P) :
    Reciprocal d P (P / d + 1) (d - P % d) nc where
  mul_eq := by
    have := div_add_mod P d
    have := mod_lt P hd
    have : (P / d + 1) * d = d * (P / d) + d := by ring
    omega
  pos := Nat.sub_pos_of_lt (mod_lt P hd)
  le := sub_le _ _
  dvd := hdvd
  lt := hlt

/-- The multiplier is less than `2 * B` when half of the modulus was not great enough. -/
lemma Reciprocal.multiplier_lt {B : ℕ} (h : Reciprocal d (2 * P) M (d - 2 * P % d) nc)
    (hprev : P ≤ nc * (d - P % d)) (hnc : nc ≤ B) (hd : d ≤ B) (hodd : nc = B → ¬ d ∣ P) :
    M < 2 * B := by
  have hmod := mod_lt P h.divisor_pos
  have hM := h.mul_eq
  rcases Nat.eq_zero_or_pos (P % d) with hzero | hpos
  · -- `d` divides the modulus, so `nc` is less than `B`
    rw [two_mul_mod P h.divisor_pos, hzero] at hM
    rw [hzero, Nat.sub_zero] at hprev
    have hle : M * d ≤ (2 * nc + 1) * d := by
      rw [if_neg (by omega)] at hM
      calc M * d = 2 * P + d := by rw [hM]; rfl
        _ ≤ 2 * (nc * d) + d := by omega
        _ = (2 * nc + 1) * d := by ring
    have := Nat.le_of_mul_le_mul_right hle h.divisor_pos
    omega
  · obtain ⟨y, hy⟩ := Nat.exists_eq_add_of_le hmod.le
    have hδ : d - 2 * P % d ≤ 2 * y := by
      rw [two_mul_mod P h.divisor_pos]
      split_ifs <;> omega
    rw [show d - P % d = y by omega] at hprev
    refine Nat.lt_of_mul_lt_mul_right (a := d) ?_
    calc M * d ≤ 2 * (nc * y) + 2 * y := by omega
      _ = 2 * ((nc + 1) * y) := by ring
      _ ≤ 2 * ((B + 1) * y) := by gcongr
      _ < 2 * B * d := by nlinarith

end MagicDivision
