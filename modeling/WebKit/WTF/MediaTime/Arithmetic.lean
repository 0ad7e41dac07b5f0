import WebKit.WTF.MediaTime.Rescale

/-!
# Sums and differences of media times

`operator+` and `operator-` take both operands to a common time scale and halve it while the checked
operation fails. The result is right up to rounding as long as the operands stay in the range of
`int64_t` at the common scale and none is rounded twice. An operand that leaves the range becomes
infinite and only the flags of the left operand are returned, so the sum then depends on the order
of the operands.
-/

namespace WebKit.WTF.MediaTime

open ComparisonFlags Rounding Option Nat
open UInt32 hiding mul_one one_mul

variable {a b t : MediaTime} {c : UInt32}

/-! ### What the operators are meant to give -/

/-- A finite time at most one unit of its scale away from the exact result, and equal to it where
`precise` holds, or an infinite time where the exact result leaves the range of `int64_t`. -/
def CorrectResult (result : Option MediaTime) (exact : ℚ) (precise : Prop) : Prop :=
  ∃ t, result = some t ∧
    ((t.IsFinite ∧ t.HasScale ∧ |t.toRat - exact| ≤ 1 / t.timeScale.toNat ∧
        (precise → t.toRat = exact)) ∨
      (t.IsPositiveInfinity ∧ 2 ^ 63 - 1 < exact) ∨ (t.IsNegativeInfinity ∧ exact < -2 ^ 63))

/-- The least common multiple of the scales. -/
def lcmScale (a b : MediaTime) : ℕ := Nat.lcm a.timeScale.toNat b.timeScale.toNat

/-- The scale is not capped and no intermediate value leaves the range of `int64_t`. -/
def Precise (a b : MediaTime) (f : ℤ → ℤ → ℤ) : Prop :=
  lcmScale a b ≤ MaximumTimeScale.toNat ∧ FitsInt64 (a.valueAt (lcmScale a b)) ∧
    FitsInt64 (b.valueAt (lcmScale a b)) ∧
    FitsInt64 (f (a.valueAt (lcmScale a b)) (b.valueAt (lcmScale a b)))

/-- Sums and differences are right up to rounding, and sums do not depend on the order. -/
def ArithmeticLaw (a b : MediaTime) : Prop :=
  CorrectResult (a.add b) (a.toRat + b.toRat) (Precise a b (· + ·)) ∧
    CorrectResult (a.sub b) (a.toRat - b.toRat) (Precise a b (· - ·)) ∧
    ∃ s t, a.add b = some s ∧ b.add a = some t ∧ s.compare t = equalTo

/-! ### Rounding errors -/

variable {n : ℕ}

lemma abs_valueAt_sub_le (ht : t.HasScale) (hn : 0 < n) :
    |(t.valueAt n : ℚ) / n - t.toRat| ≤ 1 / (2 * n) := by
  have hn' : (0 : ℚ) < n := by exact_mod_cast hn
  have h := abs_roundDiv_sub_le ht.pos (t.timeValue.toInt * n)
  push_cast at h
  rw [valueAt, toRat]
  rw [show (roundDiv (t.timeValue.toInt * n) t.timeScale.toNat : ℚ) / n -
      t.timeValue.toInt / t.timeScale.toNat = (roundDiv (t.timeValue.toInt * n) t.timeScale.toNat -
      t.timeValue.toInt * n / t.timeScale.toNat) / n by field_simp, abs_div, abs_of_pos hn',
    div_le_div_iff₀ hn' (by positivity)]
  nlinarith

lemma valueAt_div_eq (ht : t.HasScale) (hn : 0 < n)
    (hdvd : (t.timeScale.toNat : ℤ) ∣ t.timeValue.toInt * n) : (t.valueAt n : ℚ) / n = t.toRat := by
  obtain ⟨k, hk⟩ := hdvd
  have hscale : (t.timeScale.toNat : ℚ) ≠ 0 := by exact_mod_cast ht.pos.ne'
  have hcast : (t.timeValue.toInt : ℚ) * n = t.timeScale.toNat * k := by exact_mod_cast hk
  rw [valueAt, hk, mul_comm, roundDiv_mul ht.pos, toRat, div_eq_div_iff (by positivity) hscale,
    hcast]
  ring

/-- The errors of the operands add up. -/
lemma abs_combined_sub_le {σ x y A B : ℚ} (hσ : |σ| = 1) (hx : |x / n - A| ≤ 1 / (2 * n))
    (hy : |y / n - B| ≤ 1 / (2 * n)) : |(x + σ * y) / n - (A + σ * B)| ≤ 1 / n := by
  calc |(x + σ * y) / n - (A + σ * B)| = |(x / n - A) + σ * (y / n - B)| := by
        congr 1
        ring
    _ ≤ |x / n - A| + |σ * (y / n - B)| := abs_add_le _ _
    _ = |x / n - A| + |y / n - B| := by simp [hσ]
    _ ≤ 1 / (2 * n) + 1 / (2 * n) := add_le_add hx hy
    _ = 1 / n := by ring

/-! ### One pass of the loop -/

/-- A checked operation that gives the sum of its operands, the second one with the sign `σ`,
wherever the sum is acceptable. -/
structure IsChecked (op : Int64 → Int64 → Option Int64) (σ : ℤ) (ok : ℤ → Prop) : Prop where
  abs_eq_one : |σ| = 1
  fits {z : ℤ} : ok z → FitsInt64 z
  ok_of_abs_lt {z : ℤ} : |z| < 2 ^ 63 → ok z
  eq_some (u v : Int64) : ok (u.toInt + σ * v.toInt) →
    op u v = some (Int64.ofInt (u.toInt + σ * v.toInt))
  eq_none (u v : Int64) : ¬ok (u.toInt + σ * v.toInt) → op u v = none

lemma isChecked_safeAdd : IsChecked safeAdd 1 FitsInt64 where
  abs_eq_one := abs_one
  fits h := h
  ok_of_abs_lt h := ⟨(neg_lt_of_abs_lt h).le, lt_of_abs_lt h⟩
  eq_some u v h := by
    rw [one_mul] at h
    simp [safeAdd_eq, if_pos h]
  eq_none u v h := by
    rw [one_mul] at h
    rw [safeAdd_eq, if_neg h]

lemma isChecked_safeSub : IsChecked safeSub (-1) fun z => FitsInt64 z ∧ z ≠ -2 ^ 63 where
  abs_eq_one := by simp
  fits h := h.1
  ok_of_abs_lt h := ⟨⟨(neg_lt_of_abs_lt h).le, lt_of_abs_lt h⟩, (neg_lt_of_abs_lt h).ne'⟩
  eq_some u v h := by
    rw [neg_one_mul, ← sub_eq_add_neg] at h ⊢
    rw [safeSub_eq, if_pos h, Int64.ofInt_sub, Int64.ofInt_toInt, Int64.ofInt_toInt]
  eq_none u v h := by
    rw [neg_one_mul, ← sub_eq_add_neg] at h
    rw [safeSub_eq, if_neg h]

/-! ### Halving the scale -/

section

variable {x : ℤ} {n : ℕ}

/-- The value at half the scale. -/
def halved (n : ℕ) (x : ℤ) : ℤ := roundDiv (x * (n / 2 : ℕ)) n

/-- Half of a 64-bit value has 63 bits. -/
lemma abs_halved_le (hn : 0 < n) (hx : |x| ≤ 2 ^ 63) : |halved n x| ≤ 2 ^ 62 := by
  have hhalf : 2 * ((n / 2 : ℕ) : ℤ) ≤ n := by omega
  have hmul : |x * (n / 2 : ℕ)| * 2 ≤ 2 ^ 63 * n := by
    rw [abs_mul, abs_cast, mul_assoc]
    exact mul_le_mul hx (by linarith) (by positivity) (by positivity)
  have hle := abs_le.1 (le_refl |x * (n / 2 : ℕ)|)
  refine abs_le.2 ⟨le_roundDiv hn ?_, roundDiv_le hn ?_⟩ <;> linarith

/-- At an odd scale the half is smaller. -/
lemma abs_halved_lt (hlt : n < 2 ^ 31) (hodd : n % 2 = 1) (hx : |x| ≤ 2 ^ 63) :
    |halved n x| < 2 ^ 62 := by
  have hmul : |x * (n / 2 : ℕ)| * 2 < (2 ^ 63 - 1) * n := by
    rw [abs_mul, abs_cast]
    have hhalf : ((n / 2 : ℕ) : ℤ) * 2 = n - 1 := by omega
    nlinarith
  have hle := abs_le.1 (le_refl |x * (n / 2 : ℕ)|)
  have hbound : |halved n x| ≤ 2 ^ 62 - 1 :=
    abs_le.2 ⟨le_roundDiv (by omega) (by linarith), roundDiv_le (by omega) (by linarith)⟩
  omega

/-- At an even scale the half of an odd value is rounded away from zero. -/
lemma two_mul_halved (hn : 0 < n) (heven : n % 2 = 0) :
    2 ∣ x ∧ 2 * halved n x = x ∨ ¬2 ∣ x ∧ 0 < x ∧ 2 * halved n x = x + 1 ∨
      ¬2 ∣ x ∧ x < 0 ∧ 2 * halved n x = x - 1 := by
  obtain ⟨k, rfl⟩ := dvd_of_mod_eq_zero heven
  have hdiv := Int.mul_tdiv_add_tmod x (2 : ℕ)
  have hmod := tmod_bounds two_pos x
  rw [halved, Nat.mul_div_cancel_left k two_pos, mul_comm 2 k, mul_comm x,
    roundDiv_mul_mul (by omega), roundDiv]
  rcases abs_cases (x.tmod (2 : ℕ)) with ⟨habs, hsign⟩ | ⟨habs, hsign⟩ <;> rw [habs] <;>
    split_ifs <;> omega

end

lemma abs_toInt_le (x : Int64) : |x.toInt| ≤ 2 ^ 63 := abs_le.2 ⟨x.le_toInt, x.toInt_lt.le⟩

lemma toNat_half (c : UInt32) : (c / 2).toNat = c.toNat / 2 := UInt32.toNat_div c 2

lemma half_pos (hc : 1 ≤ c ∧ c ≤ MaximumTimeScale) (hne : c ≠ 1) :
    1 ≤ c / 2 ∧ c / 2 ≤ MaximumTimeScale := by
  have hne' : c.toNat ≠ 1 := fun h => hne (UInt32.toNat_inj.1 h)
  have h₁ := le_iff_toNat_le.1 hc.1
  have h₂ := le_iff_toNat_le.1 hc.2
  rw [le_iff_toNat_le, le_iff_toNat_le, toNat_half]
  have hone : (1 : UInt32).toNat = 1 := rfl
  omega

lemma exists_setTimeScale (hdbl : ¬t.hasDoubleValue) (ht : t.HasScale)
    (hc : 1 ≤ c ∧ c ≤ MaximumTimeScale) (hfits : FitsInt64 (t.valueAt c.toNat)) :
    ∃ t', t.setTimeScale c .halfAwayFromZero = some t' ∧ t'.timeScale = c ∧
      t'.timeValue.toInt = t.valueAt c.toNat ∧ SameKind t t' := by
  have hr := rescaled_setTimeScale hdbl ht hc
  generalize t.setTimeScale c .halfAwayFromZero = r at hr
  cases hr with
  | value hscale hval hkind => exact ⟨_, rfl, hscale, hval, hkind⟩
  | infinite h => exact absurd hfits h
  | undefined h => exact absurd hfits h

/-- A finite time of the scale `c`. -/
structure AtScale (c : UInt32) (t : MediaTime) : Prop where
  isFinite : t.IsFinite
  hasScale : t.HasScale
  timeScale_eq : t.timeScale = c

/-- A finite time of the scale `c`, at most half a unit away from `q`. -/
structure Near (c : UInt32) (q : ℚ) (t : MediaTime) : Prop extends AtScale c t where
  abs_sub_le : |t.toRat - q| ≤ 1 / (2 * c.toNat)

lemma AtScale.toRat_eq (h : AtScale c t) : t.toRat = t.timeValue.toInt / c.toNat := by
  rw [toRat, h.timeScale_eq]

lemma exists_near (hfin : t.IsFinite) (ht : t.HasScale) (hc : 1 ≤ c ∧ c ≤ MaximumTimeScale)
    (hfits : FitsInt64 (t.valueAt c.toNat)) :
    ∃ t', t.setTimeScale c .halfAwayFromZero = some t' ∧ Near c t.toRat t' ∧
      t'.timeValue.toInt = t.valueAt c.toNat := by
  obtain ⟨t', ht', hscale, hval, hkind⟩ := exists_setTimeScale hfin.2.2.2.2 ht hc hfits
  have hat : AtScale c t' :=
    ⟨hkind.isFinite hfin, by rw [HasScale, hscale]; exact hc, hscale⟩
  refine ⟨t', ht', ⟨hat, ?_⟩, hval⟩
  rw [hat.toRat_eq, hval]
  exact abs_valueAt_sub_le ht (le_iff_toNat_le.1 hc.1)

lemma AtScale.valueAt_half (h : AtScale c t) :
    t.valueAt (c / 2).toNat = halved c.toNat t.timeValue.toInt := by
  rw [valueAt, halved, toNat_half, h.timeScale_eq]

/-- A time at half its scale. -/
lemma AtScale.half (h : AtScale c t) (hne : c ≠ 1) :
    ∃ t', t.setTimeScale (c / 2) .halfAwayFromZero = some t' ∧ Near (c / 2) t.toRat t' ∧
      t'.timeValue.toInt = halved c.toNat t.timeValue.toInt ∧ |t'.timeValue.toInt| ≤ 2 ^ 62 := by
  have hpos : 0 < c.toNat := h.timeScale_eq ▸ h.hasScale.pos
  have habs := abs_halved_le hpos (abs_toInt_le t.timeValue)
  have hle := abs_le.1 habs
  obtain ⟨t', ht', hnear, hval⟩ := exists_near h.isFinite h.hasScale
    (half_pos (h.timeScale_eq ▸ h.hasScale) hne)
    (by rw [h.valueAt_half]; exact ⟨by omega, by omega⟩)
  rw [h.valueAt_half] at hval
  exact ⟨t', ht', hnear, hval, hval ▸ habs⟩

/-- A time that is exact, or has an exact half, is rounded once. -/
lemma Near.half {q : ℚ} (h : Near c q t) (hne : c ≠ 1)
    (honce : t.toRat = q ∨ (c.toNat : ℤ) ∣ t.timeValue.toInt * (c.toNat / 2 : ℕ)) :
    ∃ t', t.setTimeScale (c / 2) .halfAwayFromZero = some t' ∧ Near (c / 2) q t' ∧
      t'.timeValue.toInt = halved c.toNat t.timeValue.toInt ∧ |t'.timeValue.toInt| ≤ 2 ^ 62 := by
  obtain ⟨t', ht', hnear, hval, habs⟩ := h.toAtScale.half hne
  refine ⟨t', ht', ?_, hval, habs⟩
  rcases honce with rfl | hdvd
  · exact hnear
  · have hpos : 0 < (c / 2).toNat := hnear.timeScale_eq ▸ hnear.hasScale.pos
    have heq : t'.toRat = t.toRat := by
      rw [hnear.toRat_eq, hval, ← h.valueAt_half]
      exact valueAt_div_eq h.hasScale hpos (by rwa [h.timeScale_eq])
    refine ⟨hnear.toAtScale, ?_⟩
    rw [heq]
    refine h.abs_sub_le.trans (one_div_le_one_div_of_le (by positivity) ?_)
    have hle : 2 * (c / 2).toNat ≤ 2 * c.toNat := by rw [toNat_half]; omega
    exact_mod_cast hle

section

variable {op : Int64 → Int64 → Option Int64} {σ : ℤ} {ok : ℤ → Prop}

lemma combineValues_of_ok (hop : IsChecked op σ ok)
    (h : ok (a.timeValue.toInt + σ * b.timeValue.toInt)) (fuel : ℕ) :
    combineValues op (fuel + 1) c a b = some { a with
      timeValue := Int64.ofInt (a.timeValue.toInt + σ * b.timeValue.toInt) } := by
  rw [combineValues, hop.eq_some _ _ h]

lemma combineValues_of_not_ok (hop : IsChecked op σ ok)
    (h : ¬ok (a.timeValue.toInt + σ * b.timeValue.toInt)) (fuel : ℕ) :
    combineValues op (fuel + 1) c a b =
      if c = 1 then some (if a.timeValue > 0 then positiveInfiniteTime else negativeInfiniteTime)
      else (a.setTimeScale (c / 2) .halfAwayFromZero).bind fun a =>
        (b.setTimeScale (c / 2) .halfAwayFromZero).bind fun b =>
          combineValues op fuel (c / 2) a b := by
  rw [combineValues, hop.eq_none _ _ h]
  rfl

variable {precise : Prop}

/-- A finite time within one unit. -/
lemma correctResult_of_isFinite {exact : ℚ} (ht : t.IsFinite) (hs : t.HasScale)
    (herr : |t.toRat - exact| ≤ 1 / t.timeScale.toNat) :
    CorrectResult (some t) exact precise ↔ (precise → t.toRat = exact) := by
  refine ⟨?_, fun hprec => ⟨t, rfl, Or.inl ⟨ht, hs, herr, hprec⟩⟩⟩
  rintro ⟨_, ⟨⟩, ⟨-, -, -, hprec⟩ | ⟨hinf, -⟩ | ⟨hinf, -⟩⟩
  · exact hprec
  · exact absurd hinf.2.1 ht.2.1
  · exact absurd hinf.2.1 ht.2.2.1

/-- An infinite time of the right sign. -/
lemma correctResult_infinite {exact : ℚ} {p : Prop} [Decidable p] :
    CorrectResult (some (if p then positiveInfiniteTime else negativeInfiniteTime)) exact precise ↔
      p ∧ 2 ^ 63 - 1 < exact ∨ ¬p ∧ exact < -2 ^ 63 := by
  by_cases hp : p
  · simp only [hp, true_and, not_true, false_and, or_false]
    refine ⟨?_, fun h => ⟨_, rfl, Or.inr (Or.inl ⟨by decide, h⟩)⟩⟩
    rintro ⟨_, ⟨⟩, ⟨hfin, -⟩ | ⟨-, h⟩ | ⟨hinf, -⟩⟩
    · exact absurd hfin (by decide)
    · exact h
    · exact absurd hinf (by decide)
  · simp only [hp, not_false_iff, true_and, false_and, false_or]
    refine ⟨?_, fun h => ⟨_, rfl, Or.inr (Or.inr ⟨by decide, h⟩)⟩⟩
    rintro ⟨_, ⟨⟩, ⟨hfin, -⟩ | ⟨hinf, -⟩ | ⟨-, h⟩⟩
    · exact absurd hfin (by decide)
    · exact absurd hinf (by decide)
    · exact h

variable {A B : ℚ}

/-- Operands whose sum is acceptable give a finite time within one unit. -/
lemma correctResult_of_ok (hop : IsChecked op σ ok) (ha : Near c A a) (hb : Near c B b)
    (h : ok (a.timeValue.toInt + σ * b.timeValue.toInt)) (fuel : ℕ) :
    CorrectResult (combineValues op (fuel + 1) c a b) (A + σ * B) precise ↔
      (precise → ((a.timeValue.toInt + σ * b.timeValue.toInt : ℤ) : ℚ) / c.toNat = A + σ * B) := by
  have hval := (hop.fits h).toInt_ofInt
  have hσ : |(σ : ℚ)| = 1 := by exact_mod_cast hop.abs_eq_one
  have hA := ha.abs_sub_le
  have hB := hb.abs_sub_le
  rw [ha.toRat_eq] at hA
  rw [hb.toRat_eq] at hB
  rw [combineValues_of_ok hop h fuel]
  set t : MediaTime := { a with
    timeValue := Int64.ofInt (a.timeValue.toInt + σ * b.timeValue.toInt) }
  have hrat : t.toRat = ((a.timeValue.toInt + σ * b.timeValue.toInt : ℤ) : ℚ) / c.toNat := by
    rw [toRat, hval, ha.timeScale_eq]
  rw [← hrat]
  refine correctResult_of_isFinite (t := t) ha.isFinite ha.hasScale ?_
  rw [hrat, ha.timeScale_eq]
  push_cast
  exact abs_combined_sub_le hσ hA hB

/-- Operands at scale one whose sum is not acceptable give an infinite time with the sign of the
left one. -/
lemma correctResult_of_one (hop : IsChecked op σ ok)
    (h : ¬ok (a.timeValue.toInt + σ * b.timeValue.toInt)) (hone : c = 1) (fuel : ℕ) {exact : ℚ} :
    CorrectResult (combineValues op (fuel + 1) c a b) exact precise ↔
      0 < a.timeValue.toInt ∧ 2 ^ 63 - 1 < exact ∨ ¬0 < a.timeValue.toInt ∧ exact < -2 ^ 63 := by
  rw [combineValues_of_not_ok hop h, if_pos hone, correctResult_infinite, gt_iff_lt,
    Int64.lt_iff_toInt_lt, toInt_zero]

/-- One pass that halves the scale of operands that are not rounded for the second time. -/
lemma exists_halves (hop : IsChecked op σ ok) (ha : Near c A a) (hb : Near c B b)
    (h : ¬ok (a.timeValue.toInt + σ * b.timeValue.toInt)) (hne : c ≠ 1)
    (ha' : a.toRat = A ∨ (c.toNat : ℤ) ∣ a.timeValue.toInt * (c.toNat / 2 : ℕ))
    (hb' : b.toRat = B ∨ (c.toNat : ℤ) ∣ b.timeValue.toInt * (c.toNat / 2 : ℕ)) (fuel : ℕ) :
    ∃ a' b', combineValues op (fuel + 1) c a b = combineValues op fuel (c / 2) a' b' ∧
      Near (c / 2) A a' ∧ Near (c / 2) B b' ∧
      a'.timeValue.toInt = halved c.toNat a.timeValue.toInt ∧
      b'.timeValue.toInt = halved c.toNat b.timeValue.toInt := by
  obtain ⟨a', hsa, hna, hva, -⟩ := ha.half hne ha'
  obtain ⟨b', hsb, hnb, hvb, -⟩ := hb.half hne hb'
  refine ⟨a', b', ?_, hna, hnb, hva, hvb⟩
  rw [combineValues_of_not_ok hop h, if_neg hne, hsa, hsb]
  rfl

end

/-! ### Sums in either order -/

lemma compare_of_alike (ha : a.IsFinite) (hb : b.IsFinite) (hval : a.timeValue = b.timeValue)
    (hscale : a.timeScale = b.timeScale) : a.compare b = equalTo := by
  rw [compare_of_isFinite ha hb, compareValues]
  simp [hval, hscale]

lemma fits_comm {x y : ℤ} : FitsInt64 (x + 1 * y) ↔ FitsInt64 (y + 1 * x) := by
  simp [add_comm]

/-- The loop gives the same time for both orders of two finite operands at the same scale. -/
lemma combineValues_comm {fuel : ℕ} (ha : AtScale c a) (hb : AtScale c b)
    (hfuel : c.toNat < 2 ^ fuel) :
    ∃ s t, combineValues safeAdd fuel c a b = some s ∧ combineValues safeAdd fuel c b a = some t ∧
      s.compare t = equalTo := by
  induction fuel generalizing a b c with
  | zero =>
    have hpos : 0 < c.toNat := ha.timeScale_eq ▸ ha.hasScale.pos
    omega
  | succ fuel ih =>
    have hop := isChecked_safeAdd
    by_cases h : FitsInt64 (a.timeValue.toInt + 1 * b.timeValue.toInt)
    · refine ⟨_, _, combineValues_of_ok hop h fuel, combineValues_of_ok hop (fits_comm.1 h) fuel,
        compare_of_alike ha.isFinite hb.isFinite ?_ (ha.timeScale_eq.trans hb.timeScale_eq.symm)⟩
      simp only [one_mul]
      rw [add_comm]
    · rw [combineValues_of_not_ok hop h, combineValues_of_not_ok hop (mt fits_comm.2 h)]
      by_cases hone : c = 1
      · -- both operands have the sign of the sum
        have hsign : a.timeValue > 0 ↔ b.timeValue > 0 := by
          have := fitsInt64_toInt a.timeValue
          have := fitsInt64_toInt b.timeValue
          rw [gt_iff_lt, gt_iff_lt, Int64.lt_iff_toInt_lt, Int64.lt_iff_toInt_lt, toInt_zero]
          simp only [FitsInt64] at *
          omega
        rw [if_pos hone, if_pos hone]
        refine ⟨_, _, rfl, rfl, ?_⟩
        simp only [hsign]
        split_ifs <;> decide
      · obtain ⟨a', ha', hsa, -⟩ := ha.half hone
        obtain ⟨b', hb', hsb, -⟩ := hb.half hone
        rw [if_neg hone, if_neg hone, ha', hb']
        refine ih hsa.toAtScale hsb.toAtScale ?_
        rw [toNat_half]
        omega

/-! ### The operators on finite times -/

/-- The scale both operands are taken to. -/
def commonScale (a b : MediaTime) : UInt32 := commonTimeScale a.timeScale b.timeScale

lemma toNat_commonScale (a b : MediaTime) :
    (commonScale a b).toNat = min (lcmScale a b) MaximumTimeScale.toNat :=
  toNat_commonTimeScale _ _

lemma commonScale_comm (a b : MediaTime) : commonScale a b = commonScale b a := by
  rw [← UInt32.toNat_inj, toNat_commonScale, toNat_commonScale, lcmScale, lcmScale, lcm_comm]

lemma lcmScale_pos (ha : a.HasScale) (hb : b.HasScale) : 0 < lcmScale a b := lcm_pos ha.pos hb.pos

lemma commonScale_bounds (ha : a.HasScale) (hb : b.HasScale) :
    1 ≤ commonScale a b ∧ commonScale a b ≤ MaximumTimeScale := by
  have hpos := lcmScale_pos ha hb
  have hone : (1 : UInt32).toNat = 1 := rfl
  have hmax : MaximumTimeScale.toNat = 2 ^ 31 - 1 := rfl
  rw [le_iff_toNat_le, le_iff_toNat_le, toNat_commonScale]
  omega

lemma add_eq_combine (ha : a.IsFinite) (hb : b.IsFinite) : a.add b = combine safeAdd a b := by
  simp only [IsFinite] at ha hb
  simp [add, isInvalid, ha, hb]

lemma sub_eq_combine (ha : a.IsFinite) (hb : b.IsFinite) : a.sub b = combine safeSub a b := by
  simp only [IsFinite] at ha hb
  simp [sub, isInvalid, ha, hb]

lemma combine_eq (op : Int64 → Int64 → Option Int64) (a b : MediaTime) : combine op a b =
    (a.setTimeScale (commonScale a b) .halfAwayFromZero).bind fun a' =>
      (b.setTimeScale (commonScale a b) .halfAwayFromZero).bind fun b' =>
        combineValues op 32 (commonScale a b) a' b' := rfl

/-- Both operands stay in the range of `int64_t` at the common scale. -/
def RescalesInRange (a b : MediaTime) : Prop :=
  FitsInt64 (a.valueAt (commonScale a b).toNat) ∧ FitsInt64 (b.valueAt (commonScale a b).toNat)

lemma dvd_commonScale (hlcm : lcmScale a b ≤ MaximumTimeScale.toNat) :
    a.timeScale.toNat ∣ (commonScale a b).toNat ∧ b.timeScale.toNat ∣ (commonScale a b).toNat := by
  rw [toNat_commonScale, min_eq_left hlcm]
  exact ⟨Nat.dvd_lcm_left _ _, Nat.dvd_lcm_right _ _⟩

lemma lcmScale_le_of_lt (h : (commonScale a b).toNat < MaximumTimeScale.toNat) :
    lcmScale a b ≤ MaximumTimeScale.toNat := by
  rw [toNat_commonScale] at h
  omega

/-- The value is rounded at the scale `n` and again when the scale is halved. -/
def RoundedTwice (t : MediaTime) (n : ℕ) : Prop :=
  ¬(t.timeScale.toNat : ℤ) ∣ t.timeValue.toInt * n ∧ ¬(n : ℤ) ∣ t.valueAt n * (n / 2 : ℕ)

lemma not_roundedTwice_of_dvd (h : t.timeScale.toNat ∣ n) : ¬t.RoundedTwice n :=
  fun htwice => htwice.1 ((Int.natCast_dvd_natCast.2 h).mul_left _)

/-- Both operands are at the scale `n`, with the values `x` and `y`. -/
structure Operands (a b : MediaTime) (n : ℕ) (x y : ℤ) : Prop where
  left : a.IsFinite
  right : b.IsFinite
  leftScale : a.HasScale
  rightScale : b.HasScale
  scale_eq : (commonScale a b).toNat = n
  left_eq : a.valueAt n = x
  right_eq : b.valueAt n = y
  fits : FitsInt64 x ∧ FitsInt64 y

namespace Operands

variable {x y : ℤ} (h : Operands a b n x y)

include h

/-- The operands at the common scale. -/
lemma exists_operands : ∃ a' b',
    (∀ op, combine op a b = combineValues op 32 (commonScale a b) a' b') ∧
    (∀ op, combine op b a = combineValues op 32 (commonScale a b) b' a') ∧
    Near (commonScale a b) a.toRat a' ∧ Near (commonScale a b) b.toRat b' ∧
    a'.timeValue.toInt = x ∧ b'.timeValue.toInt = y := by
  obtain ⟨ha, hb, hsa, hsb, rfl, rfl, rfl, hfits⟩ := h
  have hc := commonScale_bounds hsa hsb
  obtain ⟨a', ha', hna, hva⟩ := exists_near ha hsa hc hfits.1
  obtain ⟨b', hb', hnb, hvb⟩ := exists_near hb hsb hc hfits.2
  refine ⟨a', b', fun op => ?_, fun op => ?_, hna, hnb, hva, hvb⟩
  · rw [combine_eq, ha', hb']
    rfl
  · rw [combine_eq, commonScale_comm b a, ha', hb']
    rfl

lemma pos : 0 < n :=
  h.scale_eq ▸ le_iff_toNat_le.1 (commonScale_bounds h.leftScale h.rightScale).1

lemma scale_lt : n < 2 ^ 31 :=
  h.scale_eq ▸ lt_succ_of_le (le_iff_toNat_le.1 (commonScale_bounds h.leftScale h.rightScale).2)

lemma abs_values_le : |x| ≤ 2 ^ 63 ∧ |y| ≤ 2 ^ 63 :=
  ⟨abs_le.2 ⟨h.fits.1.1, h.fits.1.2.le⟩, abs_le.2 ⟨h.fits.2.1, h.fits.2.2.le⟩⟩

/-- At a scale that is not capped no operand is rounded. -/
lemma toRat_eq (hlcm : lcmScale a b ≤ MaximumTimeScale.toNat) :
    a.toRat = x / n ∧ b.toRat = y / n := by
  obtain ⟨hdvd, hdvd'⟩ := dvd_commonScale hlcm
  have hpos := h.pos
  obtain ⟨-, -, hsa, hsb, rfl, rfl, rfl, -⟩ := h
  exact ⟨(valueAt_div_eq hsa hpos ((Int.natCast_dvd_natCast.2 hdvd).mul_left _)).symm,
    (valueAt_div_eq hsb hpos ((Int.natCast_dvd_natCast.2 hdvd').mul_left _)).symm⟩

lemma scale_eq_one : commonScale a b = 1 ↔ n = 1 := by
  rw [← UInt32.toNat_inj, h.scale_eq]
  rfl

section

variable {op : Int64 → Int64 → Option Int64} {σ : ℤ} {ok : ℤ → Prop} {f : ℤ → ℤ → ℤ}

lemma toRat_add_eq (hlcm : lcmScale a b ≤ MaximumTimeScale.toNat) :
    a.toRat + σ * b.toRat = ((x + σ * y : ℤ) : ℚ) / n := by
  rw [(h.toRat_eq hlcm).1, (h.toRat_eq hlcm).2]
  push_cast
  ring

lemma precise_iff (hf : ∀ x y, f x y = x + σ * y) :
    Precise a b f ↔ lcmScale a b ≤ MaximumTimeScale.toNat ∧ FitsInt64 (x + σ * y) := by
  refine and_congr_right fun hlcm => ?_
  have hscale := h.scale_eq
  rw [toNat_commonScale, min_eq_left hlcm] at hscale
  rw [hscale, hf, h.left_eq, h.right_eq]
  exact ⟨fun hfits => hfits.2.2, fun hfits => ⟨h.fits.1, h.fits.2, hfits⟩⟩

lemma correctResult_of_ok (hop : IsChecked op σ ok) (hf : ∀ x y, f x y = x + σ * y)
    (hok : ok (x + σ * y)) :
    CorrectResult (combine op a b) (a.toRat + σ * b.toRat) (Precise a b f) := by
  obtain ⟨a', b', hcmb, -, hna, hnb, rfl, rfl⟩ := h.exists_operands
  rw [hcmb op, MediaTime.correctResult_of_ok hop hna hnb hok]
  intro hprec
  rw [h.toRat_add_eq ((h.precise_iff hf).1 hprec).1, h.scale_eq]

lemma correctResult_of_one (hop : IsChecked op σ ok) (hnot : ¬ok (x + σ * y)) (hone : n = 1)
    {precise : Prop} :
    CorrectResult (combine op a b) (a.toRat + σ * b.toRat) precise ↔
      0 < x ∧ 2 ^ 63 - 1 < x + σ * y ∨ ¬0 < x ∧ x + σ * y < -2 ^ 63 := by
  have hmax : MaximumTimeScale.toNat = 2 ^ 31 - 1 := rfl
  have hlcm := lcmScale_le_of_lt (h.scale_eq ▸ (by omega : n < MaximumTimeScale.toNat))
  have hrat := h.toRat_add_eq hlcm (σ := σ)
  obtain ⟨a', b', hcmb, -, hna, hnb, rfl, rfl⟩ := h.exists_operands
  rw [hcmb op, MediaTime.correctResult_of_one hop hnot (h.scale_eq_one.2 hone), hrat, hone,
    cast_one, div_one]
  norm_cast

/-- The operands after the first pass. -/
lemma exists_halves (hop : IsChecked op σ ok) (hnot : ¬ok (x + σ * y))
    (hne : n ≠ 1) (ha : ¬a.RoundedTwice n) (hb : ¬b.RoundedTwice n) : ∃ a' b',
    combine op a b = combineValues op 31 (commonScale a b / 2) a' b' ∧
    Near (commonScale a b / 2) a.toRat a' ∧ Near (commonScale a b / 2) b.toRat b' ∧
    a'.timeValue.toInt = halved n x ∧ b'.timeValue.toInt = halved n y := by
  obtain ⟨a', b', hcmb, -, hna, hnb, hva, hvb⟩ := h.exists_operands
  have honce : ∀ {t t' : MediaTime} {z : ℤ}, t.HasScale → Near (commonScale a b) t.toRat t' →
      t.valueAt n = z → t'.timeValue.toInt = z → ¬t.RoundedTwice n → t'.toRat = t.toRat ∨
        ((commonScale a b).toNat : ℤ) ∣ t'.timeValue.toInt * ((commonScale a b).toNat / 2 : ℕ) := by
    intro t t' z ht hnear hz hv hround
    rw [h.scale_eq, hv, ← hz]
    rcases not_and_or.1 hround with hdvd | hdvd
    · left
      rw [hnear.toRat_eq, hv, h.scale_eq, ← hz]
      exact valueAt_div_eq ht h.pos (not_not.1 hdvd)
    · exact Or.inr (not_not.1 hdvd)
  obtain ⟨a'', b'', hstep, hna', hnb', hva', hvb'⟩ := MediaTime.exists_halves hop hna hnb
    (by rwa [hva, hvb]) (mt h.scale_eq_one.1 hne) (honce h.leftScale hna h.left_eq hva ha)
    (honce h.rightScale hnb h.right_eq hvb hb) 31
  rw [h.scale_eq, hva] at hva'
  rw [h.scale_eq, hvb] at hvb'
  exact ⟨a'', b'', (hcmb op).trans hstep, hna', hnb', hva', hvb'⟩

lemma toNat_halfScale : (commonScale a b / 2).toNat = n / 2 := by
  rw [toNat_half, h.scale_eq]

lemma correctResult_of_half (hop : IsChecked op σ ok) (hf : ∀ x y, f x y = x + σ * y)
    (hnot : ¬ok (x + σ * y)) (hne : n ≠ 1) (ha : ¬a.RoundedTwice n) (hb : ¬b.RoundedTwice n)
    (hok : ok (halved n x + σ * halved n y)) :
    CorrectResult (combine op a b) (a.toRat + σ * b.toRat) (Precise a b f) ↔
      (lcmScale a b ≤ MaximumTimeScale.toNat → FitsInt64 (x + σ * y) →
        (halved n x + σ * halved n y) * n = (x + σ * y) * (n / 2 : ℕ)) := by
  obtain ⟨a', b', hcmb, hna, hnb, hva, hvb⟩ := h.exists_halves hop hnot hne ha hb
  have hpos := h.pos
  have hhalf : ((n / 2 : ℕ) : ℚ) ≠ 0 := by
    have : n / 2 ≠ 0 := by omega
    exact_mod_cast this
  rw [hcmb, MediaTime.correctResult_of_ok hop hna hnb (by rwa [hva, hvb]), h.precise_iff hf,
    and_imp, hva, hvb, h.toNat_halfScale]
  refine forall_congr' fun hlcm => forall_congr' fun _ => ?_
  rw [h.toRat_add_eq hlcm, div_eq_div_iff hhalf (by positivity)]
  generalize n / 2 = k
  norm_cast

/-- Operands at the ends of the range have halves whose sum is not acceptable either. -/
lemma correctResult_of_two (hop : IsChecked op σ ok) (hnot : ¬ok (x + σ * y)) (htwo : n = 2)
    (ha : ¬a.RoundedTwice n) (hb : ¬b.RoundedTwice n)
    (hnot' : ¬ok (halved n x + σ * halved n y)) {precise : Prop} :
    CorrectResult (combine op a b) (a.toRat + σ * b.toRat) precise ↔
      0 < halved n x ∧ 2 ^ 64 - 2 < x + σ * y ∨ ¬0 < halved n x ∧ x + σ * y < -2 ^ 64 := by
  have hmax : MaximumTimeScale.toNat = 2 ^ 31 - 1 := rfl
  have hlcm := lcmScale_le_of_lt (h.scale_eq ▸ (by omega : n < MaximumTimeScale.toNat))
  have hrat := h.toRat_add_eq hlcm (σ := σ)
  have hone : commonScale a b / 2 = 1 := UInt32.toNat_inj.1 (by rw [h.toNat_halfScale, htwo]; rfl)
  obtain ⟨a', b', hcmb, hna, hnb, hva, hvb⟩ := h.exists_halves hop hnot (by omega) ha hb
  rw [hcmb, MediaTime.correctResult_of_one hop (by rwa [hva, hvb]) hone, hrat, hva, htwo,
    lt_div_iff₀ two_pos, div_lt_iff₀ two_pos]
  norm_num1
  norm_cast

lemma correctResult_of_four (hop : IsChecked op σ ok) (hf : ∀ x y, f x y = x + σ * y)
    (hnot : ¬ok (x + σ * y)) (hfour : 4 ∣ n) (ha : ¬a.RoundedTwice n) (hb : ¬b.RoundedTwice n)
    (hnot' : ¬ok (halved n x + σ * halved n y)) (hfits : ¬FitsInt64 (x + σ * y)) :
    CorrectResult (combine op a b) (a.toRat + σ * b.toRat) (Precise a b f) := by
  have hpos := h.pos
  obtain ⟨a', b', hcmb, hna, hnb, hva, hvb⟩ := h.exists_halves hop hnot (by omega) ha hb
  have hla := abs_halved_le hpos h.abs_values_le.1
  have hlb := abs_halved_le hpos h.abs_values_le.2
  have hsum : 2 ^ 63 ≤ |halved n x| + |halved n y| :=
    calc 2 ^ 63 ≤ |halved n x + σ * halved n y| := not_lt.1 (mt hop.ok_of_abs_lt hnot')
      _ ≤ |halved n x| + |σ * halved n y| := abs_add_le _ _
      _ = |halved n x| + |halved n y| := by rw [abs_mul, hop.abs_eq_one, one_mul]
  have hdvd : ∀ {z : ℤ}, |z| = 2 ^ 62 → ((n / 2 : ℕ) : ℤ) ∣ z * (n / 2 / 2 : ℕ) := by
    intro z hz
    obtain ⟨k, rfl⟩ := hfour
    rw [show 4 * k / 2 = 2 * k by omega, show 2 * k / 2 = k by omega, cast_mul]
    refine mul_dvd_mul_right ?_ _
    rcases eq_or_eq_neg_of_abs_eq hz with rfl | rfl <;> norm_num
  obtain ⟨a'', b'', hstep, hna', hnb', hva', hvb'⟩ := MediaTime.exists_halves hop hna hnb
    (by rwa [hva, hvb]) (fun hone => by
      have := h.toNat_halfScale
      rw [hone] at this
      have hcast : (1 : UInt32).toNat = 1 := rfl
      omega)
    (Or.inr (by rw [hva, h.toNat_halfScale]; exact hdvd (by omega)))
    (Or.inr (by rw [hvb, h.toNat_halfScale]; exact hdvd (by omega))) 30
  have hlt : ∀ {z : ℤ}, |z| = 2 ^ 62 → |halved (n / 2) z| < 2 ^ 62 := by
    intro z hz
    have hhalf : 0 < n / 2 ∧ n / 2 % 2 = 0 := by omega
    have := two_mul_halved (x := z) hhalf.1 hhalf.2
    rw [abs_lt]
    rcases eq_or_eq_neg_of_abs_eq hz with rfl | rfl <;> omega
  have hok : ok (a''.timeValue.toInt + σ * b''.timeValue.toInt) := by
    refine hop.ok_of_abs_lt ((abs_add_le _ _).trans_lt ?_)
    rw [abs_mul, hop.abs_eq_one, one_mul, hva', hvb', h.toNat_halfScale, hva, hvb]
    exact add_lt_add (hlt (by omega)) (hlt (by omega))
  rw [hcmb, hstep, MediaTime.correctResult_of_ok hop hna' hnb' hok]
  exact fun hprec => absurd ((h.precise_iff hf).1 hprec).2 hfits

end

/-- The halves of the values. -/
lemma halved_cases :
    (n % 2 = 1 → -2 ^ 62 < halved n x ∧ halved n x < 2 ^ 62 ∧ -2 ^ 62 < halved n y ∧
      halved n y < 2 ^ 62) ∧
    (n % 2 = 0 → (2 ∣ x ∧ 2 * halved n x = x ∨ ¬2 ∣ x ∧ 0 < x ∧ 2 * halved n x = x + 1 ∨
      ¬2 ∣ x ∧ x < 0 ∧ 2 * halved n x = x - 1) ∧
      (2 ∣ y ∧ 2 * halved n y = y ∨ ¬2 ∣ y ∧ 0 < y ∧ 2 * halved n y = y + 1 ∨
      ¬2 ∣ y ∧ y < 0 ∧ 2 * halved n y = y - 1)) := by
  refine ⟨fun hodd => ?_, fun heven => ⟨two_mul_halved h.pos heven, two_mul_halved h.pos heven⟩⟩
  obtain ⟨hx, hx'⟩ := abs_lt.1 (abs_halved_lt h.scale_lt hodd h.abs_values_le.1)
  exact ⟨hx, hx', abs_lt.1 (abs_halved_lt h.scale_lt hodd h.abs_values_le.2)⟩

lemma fits_halved_add :
    FitsInt64 (halved n x + 1 * halved n y) ↔ (n % 2 = 0 → x + y ≠ 2 ^ 64 - 2) := by
  have hcases := h.halved_cases
  have hfits := h.fits
  simp only [FitsInt64] at *
  omega

lemma correctResult_add_iff
    (honce : FitsInt64 (x + y) ∨ ¬a.RoundedTwice n ∧ ¬b.RoundedTwice n ∧
      (n % 4 = 2 → n ≠ 2 → x + y ≠ 2 ^ 64 - 2)) :
    CorrectResult (a.add b) (a.toRat + b.toRat) (Precise a b (· + ·)) ↔
      (n = 2 → x + y ≠ 2 ^ 64 - 2) := by
  have hop := isChecked_safeAdd
  have hf : ∀ x y : ℤ, x + y = x + 1 * y := by simp
  have hfits := h.fits
  have hhalf := h.fits_halved_add
  rw [add_eq_combine h.left h.right, show a.toRat + b.toRat = a.toRat + (1 : ℤ) * b.toRat by simp]
  by_cases hsum : FitsInt64 (x + 1 * y)
  · refine iff_of_true (h.correctResult_of_ok hop hf hsum) fun _ => ?_
    rw [FitsInt64] at hsum
    omega
  · rw [hf] at honce
    obtain ⟨ha, hb, hends⟩ := honce.resolve_left hsum
    by_cases hone : n = 1
    · rw [h.correctResult_of_one hop hsum hone]
      simp only [FitsInt64] at *
      omega
    · by_cases hsum' : FitsInt64 (halved n x + 1 * halved n y)
      · rw [h.correctResult_of_half hop hf hsum hone ha hb hsum']
        exact iff_of_true (fun _ h => absurd h hsum) fun htwo => hhalf.1 hsum' (by omega)
      · have hmax := mt hhalf.2 hsum'
        by_cases htwo : n = 2
        · rw [h.correctResult_of_two hop hsum htwo ha hb hsum']
          omega
        · refine iff_of_true (h.correctResult_of_four hop hf hsum (by omega) ha hb hsum' hsum)
            fun h => absurd h htwo

/-- The smallest value is the exact half of a difference at an even scale only. -/
lemma halved_sub_iff (hne : n ≠ 1) (hmin : x - y = -2 ^ 63) :
    (halved n x + -1 * halved n y) * n = (x + -1 * y) * (n / 2 : ℕ) ↔ 2 ∣ n ∧ 2 ∣ x := by
  have hpos := h.pos
  have hx := h.fits.1
  have hy := h.fits.2
  rw [FitsInt64] at hx hy
  rcases mod_two_eq_zero_or_one n with heven | hodd
  · have hcases := h.halved_cases.2 heven
    have hn : (n : ℤ) = 2 * (n / 2 : ℕ) := by omega
    have hhalf : ((n / 2 : ℕ) : ℤ) ≠ 0 := by omega
    rw [hn, ← mul_assoc, mul_left_inj' hhalf]
    omega
  · refine iff_of_false (fun heq => ?_) (by omega)
    -- the scale and its half are coprime, so that the scale would be a power of two
    have hdvd : n ∣ 2 ^ 63 * (n / 2) := by
      have : (n : ℤ) ∣ (2 ^ 63 * (n / 2) : ℕ) :=
        ⟨-(halved n x + -1 * halved n y), by
          rw [show x + -1 * y = -2 ^ 63 by omega] at heq
          push_cast at heq ⊢
          linarith⟩
      exact_mod_cast this
    have hcoprime : Nat.Coprime n (n / 2) := by
      generalize hk : n / 2 = k
      rw [show n = k * 2 + 1 by omega]
      simp
    have hpow : Nat.Coprime n (2 ^ 63) := Nat.Coprime.pow_right _ (by
      rw [Nat.coprime_two_right, Nat.odd_iff]
      exact hodd)
    exact hne (Nat.eq_one_of_dvd_coprimes (hpow.mul_right hcoprime) dvd_rfl hdvd)

lemma fits_halved_sub :
    FitsInt64 (halved n x + -1 * halved n y) ∧ halved n x + -1 * halved n y ≠ -2 ^ 63 ↔
      (n % 2 = 0 → (x = 2 ^ 63 - 1 → -(2 ^ 63 - 1) < y) ∧
        (y = 2 ^ 63 - 1 → -(2 ^ 63 - 1) < x)) := by
  have hcases := h.halved_cases
  have hfits := h.fits
  simp only [FitsInt64] at *
  omega

lemma halved_pos_iff (heven : n % 2 = 0) : 0 < halved n x ↔ 0 < x := by
  have hcases := (h.halved_cases.2 heven).1
  omega

lemma correctResult_sub_iff
    (honce : (FitsInt64 (x - y) ∧ x - y ≠ -2 ^ 63) ∨ ¬a.RoundedTwice n ∧ ¬b.RoundedTwice n ∧
      (n % 4 = 2 → n ≠ 2 →
        (x = 2 ^ 63 - 1 → -(2 ^ 63 - 1) < y) ∧ (y = 2 ^ 63 - 1 → -(2 ^ 63 - 1) < x))) :
    CorrectResult (a.sub b) (a.toRat - b.toRat) (Precise a b (· - ·)) ↔
      (x - y = -2 ^ 63 → MaximumTimeScale.toNat < lcmScale a b ∨ 2 ∣ n ∧ 2 ∣ x) ∧
        (n = 1 → x = 0 → y ≠ -2 ^ 63) ∧
        (n = 2 → (x = 2 ^ 63 - 1 → y ≠ -(2 ^ 63 - 1)) ∧ (y = 2 ^ 63 - 1 → -(2 ^ 63 - 1) < x)) := by
  have hop := isChecked_safeSub
  have hf : ∀ x y : ℤ, x - y = x + -1 * y := fun x y => by ring
  have hfits := h.fits
  have hhalf := h.fits_halved_sub
  rw [sub_eq_combine h.left h.right, show a.toRat - b.toRat = a.toRat + (-1 : ℤ) * b.toRat by
    push_cast; ring]
  by_cases hdiff : FitsInt64 (x + -1 * y) ∧ x + -1 * y ≠ -2 ^ 63
  · refine iff_of_true (h.correctResult_of_ok hop hf hdiff) ?_
    simp only [FitsInt64] at hdiff
    omega
  · rw [hf x y] at honce
    obtain ⟨ha, hb, hends⟩ := honce.resolve_left hdiff
    by_cases hone : n = 1
    · have hmax : MaximumTimeScale.toNat = 2 ^ 31 - 1 := rfl
      have hlcm := lcmScale_le_of_lt (h.scale_eq ▸ (by omega : n < MaximumTimeScale.toNat))
      rw [h.correctResult_of_one hop hdiff hone]
      simp only [FitsInt64] at hdiff hfits
      omega
    · by_cases hdiff' : FitsInt64 (halved n x + -1 * halved n y) ∧
          halved n x + -1 * halved n y ≠ -2 ^ 63
      · have hends' := hhalf.1 hdiff'
        rw [h.correctResult_of_half hop hf hdiff hone ha hb hdiff']
        by_cases hmin : x - y = -2 ^ 63
        · have hfits' : FitsInt64 (x + -1 * y) := ⟨by omega, by omega⟩
          rw [h.halved_sub_iff hone hmin]
          simp only [hfits', true_imp_iff]
          omega
        · refine iff_of_true (fun _ hfits' => absurd ⟨hfits', by omega⟩ hdiff) ?_
          omega
      · have hmax := mt hhalf.2 hdiff'
        simp only [FitsInt64] at hfits
        by_cases htwo : n = 2
        · rw [h.correctResult_of_two hop hdiff htwo ha hb hdiff', h.halved_pos_iff (by omega)]
          omega
        · refine iff_of_true (h.correctResult_of_four hop hf hdiff (by omega) ha hb hdiff' ?_) ?_
          · rw [FitsInt64]
            omega
          · omega

lemma add_comm_compare :
    ∃ s t, a.add b = some s ∧ b.add a = some t ∧ s.compare t = equalTo := by
  obtain ⟨a', b', hab, hba, ha', hb', -⟩ := h.exists_operands
  rw [add_eq_combine h.left h.right, add_eq_combine h.right h.left, hab, hba]
  exact combineValues_comm ha'.toAtScale hb'.toAtScale (toNat_lt _)

end Operands

/-! ### An operand that leaves the range -/

lemma infiniteTime_cases (v : Int64) :
    infiniteTimeOfSign v = positiveInfiniteTime ∨ infiniteTimeOfSign v = negativeInfiniteTime := by
  rw [infiniteTimeOfSign]
  split_ifs
  · exact Or.inr rfl
  · exact Or.inl rfl

/-- An infinite and a finite time are never equal. -/
lemma compare_infinite_ne {v : Int64} {s : MediaTime} (hs : SameKind (infiniteTimeOfSign v) s)
    (ht : t.IsFinite) : s.compare t ≠ equalTo ∧ t.compare s ≠ equalTo := by
  simp only [IsFinite, isValid, isPositiveInfinite, isNegativeInfinite, isIndefinite] at ht
  have hvld := congrArg TimeFlags.valid hs
  have hpos := congrArg TimeFlags.positiveInfinite hs
  have hnegative := congrArg TimeFlags.negativeInfinite hs
  rcases infiniteTime_cases v with h | h <;>
    simp [compare, TimeFlags.and, TimeFlags.or, h, hvld, hpos, hnegative, ht,
      positiveInfiniteTime, negativeInfiniteTime, isPositiveInfinite, isNegativeInfinite]

/-- The loop keeps the kind of its left operand, so it is not the same for an infinite operand on
the left and on the right. -/
lemma combineValues_infinite (v : Int64) (hb : AtScale c b) (hne : c ≠ 1) :
    ∃ s t, combineValues safeAdd 32 c (infiniteTimeOfSign v) b = some s ∧
      SameKind (infiniteTimeOfSign v) s ∧
      combineValues safeAdd 32 c b (infiniteTimeOfSign v) = some t ∧ t.IsFinite := by
  have hop := isChecked_safeAdd
  have hi : -1 ≤ (infiniteTimeOfSign v).timeValue.toInt ∧
      (infiniteTimeOfSign v).timeValue.toInt ≤ 0 ∧ (infiniteTimeOfSign v).timeScale = 1 ∧
      ¬(infiniteTimeOfSign v).hasDoubleValue ∧ (infiniteTimeOfSign v).HasScale := by
    rcases infiniteTime_cases v with h | h <;> rw [h] <;> decide
  generalize infiniteTimeOfSign v = i at hi
  obtain ⟨hlow, hhigh, hscale, hdbl, hsi⟩ := hi
  by_cases hfits : FitsInt64 (i.timeValue.toInt + 1 * b.timeValue.toInt)
  · exact ⟨_, _, combineValues_of_ok hop hfits 31, rfl,
      combineValues_of_ok hop (fits_comm.1 hfits) 31, hb.isFinite⟩
  · have hhalf := half_pos (hb.timeScale_eq ▸ hb.hasScale) hne
    have hlt : (c / 2).toNat < 2 ^ 31 := lt_succ_of_le (le_iff_toNat_le.1 hhalf.2)
    -- the infinite operand is treated as the fraction it carries
    have hval : i.valueAt (c / 2).toNat = i.timeValue.toInt * (c / 2).toNat := by
      rw [valueAt, hscale]
      have := roundDiv_mul one_pos (i.timeValue.toInt * (c / 2).toNat)
      rwa [cast_one, mul_one] at this
    have hval' : |i.timeValue.toInt * (c / 2).toNat| < 2 ^ 31 := by
      rw [abs_mul, abs_cast]
      have : |i.timeValue.toInt| ≤ 1 := abs_le.2 ⟨hlow, by omega⟩
      nlinarith [abs_nonneg i.timeValue.toInt]
    have hval'' := abs_lt.1 hval'
    obtain ⟨i', hi', -, hvi, hki⟩ := exists_setTimeScale hdbl hsi hhalf
      (by rw [hval]; exact ⟨by omega, by omega⟩)
    obtain ⟨b', hb', hsb, -, hle⟩ := hb.half hne
    have hle' := abs_le.1 hle
    have hsum : FitsInt64 (i'.timeValue.toInt + 1 * b'.timeValue.toInt) := by
      rw [FitsInt64]
      omega
    rw [combineValues_of_not_ok hop hfits, combineValues_of_not_ok hop (mt fits_comm.2 hfits),
      if_neg hne, if_neg hne, hi', hb']
    exact ⟨_, _, combineValues_of_ok hop hsum 30, hki,
      combineValues_of_ok hop (fits_comm.1 hsum) 30, hsb.isFinite⟩

/-- Two operands that are both taken to another scale have a sum well inside the range. -/
lemma abs_toRat_add_lt (hsa : a.HasScale) (hsb : b.HasScale) (hca : commonScale a b ≠ a.timeScale)
    (hcb : commonScale a b ≠ b.timeScale) : |a.toRat + b.toRat| < 2 ^ 63 - 1 := by
  have hle : ∀ {t : MediaTime} {k : ℕ}, 0 < k → k ≤ t.timeScale.toNat → |t.toRat| ≤ 2 ^ 63 / k := by
    intro t k hk hle
    rw [toRat, abs_div]
    exact div_le_div₀ (by positivity) (by exact_mod_cast abs_toInt_le t.timeValue)
      (by exact_mod_cast hk) (by exact_mod_cast hle)
  have hmin := toNat_commonScale a b
  have hmax : MaximumTimeScale.toNat = 2 ^ 31 - 1 := rfl
  have hpa := hsa.pos
  have hpb := hsb.pos
  have hla := hsa.lt
  have hlb := hsb.lt
  -- neither scale is one, and they are not the same
  have hna : a.timeScale.toNat ≠ 1 := by
    intro h
    rw [lcmScale, h, lcm_one_left] at hmin
    exact hcb (UInt32.toNat_inj.1 (by omega))
  have hnb : b.timeScale.toNat ≠ 1 := by
    intro h
    rw [lcmScale, h, lcm_one_right] at hmin
    exact hca (UInt32.toNat_inj.1 (by omega))
  have hnab : a.timeScale.toNat ≠ b.timeScale.toNat := by
    intro h
    rw [lcmScale, ← h, lcm_self] at hmin
    exact hca (UInt32.toNat_inj.1 (by omega))
  refine (abs_add_le _ _).trans_lt ?_
  rcases lt_or_gt_of_ne hnab with hlt | hlt
  · have h₁ := hle two_pos (show 2 ≤ a.timeScale.toNat by omega)
    have h₂ := hle three_pos (show 3 ≤ b.timeScale.toNat by omega)
    linarith
  · have h₁ := hle three_pos (show 3 ≤ a.timeScale.toNat by omega)
    have h₂ := hle two_pos (show 2 ≤ b.timeScale.toNat by omega)
    linarith

lemma rescalesInRange_of_law (ha : a.IsFinite) (hb : b.IsFinite) (hsa : a.HasScale)
    (hsb : b.HasScale) (h : ArithmeticLaw a b) : RescalesInRange a b := by
  have hop := isChecked_safeAdd
  obtain ⟨⟨r, hr, hcorrect⟩, -, s, t, hs, ht, hcmp⟩ := h
  have hc := commonScale_bounds hsa hsb
  have hone : ∀ {t : MediaTime}, t.HasScale → t.timeScale.toNat ∣ lcmScale a b →
      commonScale a b ≠ t.timeScale → commonScale a b ≠ 1 := by
    intro t ht hdvd hne hone
    have hmin := toNat_commonScale a b
    have hmax : MaximumTimeScale.toNat = 2 ^ 31 - 1 := rfl
    have hcast : (1 : UInt32).toNat = 1 := rfl
    rw [hone] at hmin
    have hlcm : lcmScale a b = 1 := by omega
    rw [hlcm, dvd_one] at hdvd
    exact hne (hone.trans (UInt32.toNat_inj.1 hdvd.symm))
  rw [add_eq_combine ha hb, combine_eq] at hr hs
  rw [add_eq_combine hb ha, combine_eq, commonScale_comm b a] at ht
  have hra := rescaled_setTimeScale ha.2.2.2.2 hsa hc
  have hrb := rescaled_setTimeScale hb.2.2.2.2 hsb hc
  generalize a.setTimeScale (commonScale a b) .halfAwayFromZero = ra at *
  generalize b.setTimeScale (commonScale a b) .halfAwayFromZero = rb at *
  -- with one infinite operand `a + b` and `b + a` differ, with two the exact sum is too small
  cases hra with
  | undefined => simp at hs
  | @value a' hsa' hva hka =>
    cases hrb with
    | undefined => simp at hs
    | value hsb' hvb hkb =>
      exact ⟨hva ▸ fitsInt64_toInt _, hvb ▸ fitsInt64_toInt _⟩
    | infinite hfits hne =>
      obtain ⟨x, y, hx, hkx, hy, hyfinite⟩ := combineValues_infinite b.timeValue
        ⟨hka.isFinite ha, by rw [HasScale, hsa']; exact hc, hsa'⟩
        (hone hsb (Nat.dvd_lcm_right _ _) hne)
      rw [bind_some, bind_some, hy, some_inj] at hs
      rw [bind_some, bind_some, hx, some_inj] at ht
      exact absurd hcmp (hs ▸ ht ▸ (compare_infinite_ne hkx hyfinite).2)
  | infinite hfits hne =>
    cases hrb with
    | undefined => simp at hs
    | @value b' hsb' hvb hkb =>
      obtain ⟨x, y, hx, hkx, hy, hyfinite⟩ := combineValues_infinite a.timeValue
        ⟨hkb.isFinite hb, by rw [HasScale, hsb']; exact hc, hsb'⟩
        (hone hsa (Nat.dvd_lcm_left _ _) hne)
      rw [bind_some, bind_some, hx, some_inj] at hs
      rw [bind_some, bind_some, hy, some_inj] at ht
      exact absurd hcmp (hs ▸ ht ▸ (compare_infinite_ne hkx hyfinite).1)
    | infinite hfits' hne' =>
      have hkind : SameKind (infiniteTimeOfSign a.timeValue) r := by
        rw [bind_some, bind_some, combineValues_of_ok hop, some_inj] at hr
        · rw [← hr]
          rfl
        · rcases infiniteTime_cases a.timeValue with h₁ | h₁ <;>
            rcases infiniteTime_cases b.timeValue with h₂ | h₂ <;> rw [h₁, h₂] <;> decide
      have hlt := abs_lt.1 (abs_toRat_add_lt hsa hsb hne hne')
      rcases hcorrect with ⟨hfin, -⟩ | ⟨-, hlt'⟩ | ⟨-, hlt'⟩
      · exact absurd (compare_of_alike hfin hfin rfl rfl) (compare_infinite_ne hkind hfin).1
      · linarith
      · linarith

/-! ### When the law holds -/

/-- The sum is not one that is taken for infinite at scale one after its operands were rounded. -/
def SumStays (a b : MediaTime) : Prop :=
  let c := (commonScale a b).toNat
  c = 2 → a.valueAt c + b.valueAt c ≠ 2 ^ 64 - 2

/-- The difference is not the smallest value, unless its halves are exact or the scale is capped,
nor one that is taken for infinite with the sign of a zero or after its operands were rounded. -/
def DifferenceStays (a b : MediaTime) : Prop :=
  let c := (commonScale a b).toNat
  (a.valueAt c - b.valueAt c = -2 ^ 63 →
      MaximumTimeScale.toNat < lcmScale a b ∨ 2 ∣ c ∧ 2 ∣ a.valueAt c) ∧
    (c = 1 → a.valueAt c = 0 → b.valueAt c ≠ -2 ^ 63) ∧
    (c = 2 → (a.valueAt c = 2 ^ 63 - 1 → b.valueAt c ≠ -(2 ^ 63 - 1)) ∧
      (b.valueAt c = 2 ^ 63 - 1 → -(2 ^ 63 - 1) < a.valueAt c))

/-- The sum and the difference are found at the common scale, or else no operand is rounded twice.
An odd value at the end of the range is, if the halves have an odd scale and overflow again. -/
def RoundsOnce (a b : MediaTime) : Prop :=
  let c := (commonScale a b).toNat
  (FitsInt64 (a.valueAt c + b.valueAt c) ∧
      FitsInt64 (a.valueAt c - b.valueAt c) ∧ a.valueAt c - b.valueAt c ≠ -2 ^ 63) ∨
    ¬a.RoundedTwice c ∧ ¬b.RoundedTwice c ∧
      (c % 4 = 2 → c ≠ 2 →
        (a.valueAt c = 2 ^ 63 - 1 → |b.valueAt c| < 2 ^ 63 - 1) ∧
          (b.valueAt c = 2 ^ 63 - 1 → |a.valueAt c| < 2 ^ 63 - 1))

/-- The law only holds for operands that stay in the range of `int64_t` at the common scale. Unless
an operand is rounded twice, it holds for these exactly if the sum and the difference stay. -/
theorem arithmeticLaw_iff_stays (ha : a.IsFinite) (hb : b.IsFinite) (hsa : a.HasScale)
    (hsb : b.HasScale) :
    (ArithmeticLaw a b → RescalesInRange a b) ∧
      (RoundsOnce a b →
        (ArithmeticLaw a b ↔ RescalesInRange a b ∧ SumStays a b ∧ DifferenceStays a b)) := by
  refine ⟨rescalesInRange_of_law ha hb hsa hsb, fun honce => ?_⟩
  rw [← and_iff_right_of_imp (rescalesInRange_of_law ha hb hsa hsb)]
  refine and_congr_right fun hrange => ?_
  have h : Operands a b _ _ _ := ⟨ha, hb, hsa, hsb, rfl, rfl, rfl, hrange⟩
  simp only [RoundsOnce, abs_lt] at honce
  rw [ArithmeticLaw, h.correctResult_add_iff, h.correctResult_sub_iff,
    and_iff_left h.add_comm_compare]
  · exact Iff.rfl
  · exact honce.imp And.right (And.imp_right (And.imp_right fun hends hfour htwo => by
      omega))
  · exact honce.imp And.left (And.imp_right (And.imp_right fun hends hfour htwo => by
      have := hrange.1.2
      have := hrange.2.2
      omega))

/-- `-2⁶¹ - 2⁶¹` is found at scale one, since its operands have exact halves. -/
theorem arithmeticLaw_smallest :
    (ofFraction (-2 ^ 62) 2).IsFinite ∧ (ofFraction (-2 ^ 62) 2).HasScale ∧
      ArithmeticLaw (ofFraction (-2 ^ 62) 2) (ofFraction (2 ^ 62) 2) := by
  have hc : (commonScale (ofFraction (-2 ^ 62) 2) (ofFraction (2 ^ 62) 2)).toNat = 2 := by
    rw [toNat_commonScale]
    decide
  refine ⟨by decide, by decide, ((arithmeticLaw_iff_stays (by decide) (by decide) (by decide)
    (by decide)).2 ?_).2 ⟨?_, ?_, ?_⟩⟩
  · rw [RoundsOnce, hc]
    exact Or.inr ⟨not_roundedTwice_of_dvd dvd_rfl, not_roundedTwice_of_dvd dvd_rfl,
      fun _ hne => absurd rfl hne⟩
  · rw [RescalesInRange]
    decide +kernel
  · rw [SumStays]
    decide +kernel
  · rw [DifferenceStays]
    decide +kernel

/-- `2³³` is infinite at the largest scale: added to a fraction from the left it gives an infinite
sum, and from the right the fraction alone. The difference of zero and the smallest value is taken
to be negative infinity. -/
theorem add_depends_on_order :
    (ofFraction (2 ^ 33) 1).add (ofFraction 1 0x7fffffff) =
        some { positiveInfiniteTime with timeValue := 1 } ∧
      (ofFraction 1 0x7fffffff).add (ofFraction (2 ^ 33) 1) = some (ofFraction 1 0x7fffffff) ∧
      ¬ArithmeticLaw (ofFraction (2 ^ 33) 1) (ofFraction 1 0x7fffffff) ∧
      (ofFraction 0 1).sub (ofFraction Int64.minValue 1) = some negativeInfiniteTime := by
  have hscale {a b c : UInt32} (h : min (Nat.lcm a.toNat b.toNat) (2 ^ 31 - 1) = c.toNat) :
      commonTimeScale a b = c := UInt32.toNat_inj.1 ((toNat_commonTimeScale a b).trans h)
  refine ⟨?_, ?_, fun h => ?_, ?_⟩
  · decide +kernel
  · decide +kernel
  · have hrange := (rescalesInRange_of_law (by decide) (by decide) (by decide) (by decide) h).1
    revert hrange
    decide +kernel
  · decide +kernel

end WebKit.WTF.MediaTime
