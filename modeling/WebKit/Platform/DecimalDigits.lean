import WebKit.Platform.UInt128

/-!
# Digits of a coefficient
-/

namespace WebKit.Platform

lemma toNat_scaleDown (x : UInt64) (n : ℕ) : (scaleDown x n).toNat = x.toNat / 10 ^ n := by
  induction n generalizing x with
  | zero => simp [scaleDown]
  | succ n ih =>
    rw [scaleDown]
    split_ifs with hx
    · simp [hx]
    · rw [ih, toNat_div_ten, Nat.div_div_eq_div_mul, pow_succ']

/-- Squaring keeps the product of the powers, also modulo the word. -/
lemma toNat_scaleUpFrom (x : UInt64) {rounds n : ℕ} (h : n < rounds) (y z : UInt64) :
    (scaleUpFrom x rounds n y z).toNat ≡ x.toNat * (y.toNat * z.toNat ^ n) [MOD 2 ^ 64] := by
  induction rounds generalizing n y z with
  | zero => exact absurd h (Nat.not_lt_zero n)
  | succ rounds ih =>
    have hmul (a b : UInt64) : (a * b).toNat ≡ a.toNat * b.toNat [MOD 2 ^ 64] := by
      exact Nat.mod_modEq _ _
    have hy : (if n % 2 = 1 then y * z else y).toNat ≡ y.toNat * z.toNat ^ (n % 2)
        [MOD 2 ^ 64] := by
      split_ifs with hodd
      · rw [hodd, pow_one]
        exact hmul y z
      · rw [Nat.mod_two_ne_one.mp hodd, pow_zero, mul_one]
    have hn : y.toNat * z.toNat ^ n =
        y.toNat * z.toNat ^ (n % 2) * (z.toNat * z.toNat) ^ (n / 2) := by
      conv_lhs => rw [← Nat.mod_add_div n 2, pow_add, pow_mul, pow_two, ← mul_assoc]
    rw [scaleUpFrom]
    generalize (if n % 2 = 1 then y * z else y) = y' at hy ⊢
    split_ifs with hzero
    · rw [hn, hzero, pow_zero, mul_one]
      exact (hmul x _).trans (hy.mul_left _)
    · have hlt : n / 2 < rounds := by omega
      refine (ih hlt _ _).trans (Nat.ModEq.mul_left _ ?_)
      rw [hn]
      exact hy.mul ((hmul z z).pow _)

variable {x : UInt64}

lemma toNat_scaleUp {n : ℕ} (h : x.toNat * 10 ^ n < 2 ^ 64) :
    (scaleUp x n).toNat = x.toNat * 10 ^ n := by
  have hmod := toNat_scaleUpFrom x (Nat.lt_succ_self n) 1 10
  rw [UInt64.toNat_one, one_mul] at hmod
  exact Nat.ModEq.eq_of_lt_of_lt hmod (UInt64.toNat_lt _) h

lemma countDigitsFrom_spec (hx : x.toNat < 10 ^ 18) {rounds n : ℕ}
    {powerOfTen : UInt64} (hpower : powerOfTen.toNat = 10 ^ n) (hn : n ≤ 18)
    (hrnd : 19 ≤ n + rounds) (hge : n = 0 ∨ 10 ^ (n - 1) ≤ x.toNat) :
    x.toNat < 10 ^ countDigitsFrom x rounds powerOfTen n ∧
      (countDigitsFrom x rounds powerOfTen n = 0 ∨
        10 ^ (countDigitsFrom x rounds powerOfTen n - 1) ≤ x.toNat) := by
  induction rounds generalizing n powerOfTen with
  | zero => omega
  | succ rounds ih =>
    rw [countDigitsFrom]
    by_cases hle : powerOfTen ≤ x
    · rw [if_pos hle]
      rw [UInt64.le_iff_toNat_le, hpower] at hle
      have hlt : n < 18 := (Nat.pow_lt_pow_iff_right (by decide)).mp (Nat.lt_of_le_of_lt hle hx)
      have hpow : 10 ^ n ≤ 10 ^ 17 := Nat.pow_le_pow_right (by decide) (by omega)
      have hsmall : ¬ powerOfTen ≥ 0xFFFFFFFFFFFFFFFF / 10 := by
        rw [ge_iff_le, UInt64.le_iff_toNat_le, hpower, Nat.not_le]
        exact Nat.lt_of_le_of_lt hpow (by decide)
      rw [if_neg hsmall]
      refine ih ?_ (by omega) (by omega) (.inr (by simpa using hle))
      rw [UInt64.toNat_mul, hpower]
      exact Nat.mod_eq_of_lt (by
        have h10 : (10 : UInt64).toNat = 10 := rfl
        rw [h10]
        omega)
    · rw [if_neg hle]
      rw [UInt64.le_iff_toNat_le, hpower] at hle
      exact ⟨Nat.not_le.mp hle, hge⟩

/-- The number of digits. -/
lemma countDigits_spec (hx : x.toNat < 10 ^ 18) :
    x.toNat < 10 ^ countDigits x ∧ (countDigits x = 0 ∨ 10 ^ (countDigits x - 1) ≤ x.toNat) :=
  countDigitsFrom_spec hx rfl (by decide) (by decide) (.inl rfl)

end WebKit.Platform
