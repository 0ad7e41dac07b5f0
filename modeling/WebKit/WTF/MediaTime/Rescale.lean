import WebKit.WTF.MediaTime.Compare

/-!
# Rescaling media times

`setTimeScale` takes a value to the new time scale and rounds it as the flags say. Where the
truncated value leaves the range of `int64_t` the time becomes infinite, and where only the rounded
value does there is no result. The branch with 128-bit integers computes the same time.
-/

namespace WebKit.WTF

open Rounding FitsInt64 Int

/-! ### The common time scale -/

lemma toNat_greatestCommonDivisor (a b : UInt32) :
    (greatestCommonDivisor a b).toNat = Nat.gcd a.toNat b.toNat := by
  fun_induction greatestCommonDivisor a b with
  | case1 a => simp
  | case2 a b hb ih => rw [ih, UInt32.toNat_mod, Nat.gcd_comm, ← Nat.gcd_rec, Nat.gcd_comm]

lemma leastCommonMultiple_eq (a b : UInt32) : leastCommonMultiple a b =
    if Nat.lcm a.toNat b.toNat < 2 ^ 32 then some (UInt32.ofNat (Nat.lcm a.toNat b.toNat))
    else none := by
  have hlcm : Nat.lcm a.toNat b.toNat = a.toNat * (b / greatestCommonDivisor a b).toNat := by
    rw [UInt32.toNat_div, toNat_greatestCommonDivisor, Nat.lcm,
      Nat.mul_div_assoc _ (Nat.gcd_dvd_right _ _)]
  rw [leastCommonMultiple, safeMultiplyUnsigned_eq, hlcm, UInt32.ofNat_mul, UInt32.ofNat_toNat,
    UInt32.ofNat_toNat]

namespace MediaTime

lemma toNat_commonTimeScale (a b : UInt32) : (commonTimeScale a b).toNat =
    min (Nat.lcm a.toNat b.toNat) MaximumTimeScale.toNat := by
  have hmax : MaximumTimeScale.toNat = 2 ^ 31 - 1 := rfl
  rw [commonTimeScale, leastCommonMultiple_eq]
  split_ifs with hlt
  · have hcast : (UInt32.ofNat (Nat.lcm a.toNat b.toNat)).toNat = Nat.lcm a.toNat b.toNat :=
      UInt32.toNat_ofNat_of_lt' hlt
    simp only [UInt32.lt_iff_toNat_lt]
    split_ifs with hle
    · omega
    · omega
  · simp only
    omega

variable {t : MediaTime} {c : UInt32}

/-! ### `setTimeScale` -/

/-- The value of a time at another time scale, rounded. -/
def valueAt (t : MediaTime) (timeScale : ℕ) : ℤ :=
  roundDiv (t.timeValue.toInt * timeScale) t.timeScale.toNat

/-- A value moved by `k`, where the result fits. -/
def offset (value : Int64) (k : ℤ) : Option Int64 :=
  if FitsInt64 (value.toInt + k) then some (Int64.ofInt (value.toInt + k)) else none

variable (flags : RoundingFlags) (x : Int64)

lemma offset_zero : offset x 0 = some x := by
  simp [offset, if_pos (fitsInt64_toInt x)]

lemma increment_eq : increment x = offset x 1 := by
  have hlow := x.le_toInt
  have hhigh := x.toInt_lt
  have hmax : x = Int64.maxValue ↔ ¬FitsInt64 (x.toInt + 1) := by
    rw [← Int64.toInt_inj, Int64.toInt_maxValue, FitsInt64]
    omega
  rw [increment, offset, ite_none_eq hmax, Int64.ofInt_add, Int64.ofInt_toInt]
  rfl

lemma decrement_eq : decrement x = offset x (-1) := by
  have hlow := x.le_toInt
  have hhigh := x.toInt_lt
  have hmin : x = Int64.minValue ↔ ¬FitsInt64 (x.toInt - 1) := by
    rw [← Int64.toInt_inj, Int64.toInt_minValue, FitsInt64]
    omega
  rw [decrement, offset, ← sub_eq_add_neg, ite_none_eq hmin, Int64.ofInt_sub, Int64.ofInt_toInt]
  rfl

/-- What the `switch` over the rounding flags adds to a truncated quotient with the remainder `r` of
a division by `d`. -/
def RoundingFlags.adjustment (flags : RoundingFlags) (r : ℤ) (d : ℕ) : ℤ :=
  match flags with
  | .halfAwayFromZero => if d ≤ 2 * |r| then r.sign else 0
  | .towardZero => 0
  | .awayFromZero => r.sign
  | .towardPositiveInfinity => if 0 < r then 1 else 0
  | .towardNegativeInfinity => if r < 0 then -1 else 0

/-- The quotient rounded as the flags say, as it is computed from the truncated one. -/
def RoundingFlags.div (flags : RoundingFlags) (n : ℤ) (d : ℕ) : ℤ :=
  n.tdiv d + flags.adjustment (n.tmod d) d

variable {d : ℕ} {n : ℤ}

lemma RoundingFlags.div_of_tmod_eq_zero (h : n.tmod d = 0) : flags.div n d = n.tdiv d := by
  rw [div, h]
  cases flags <;> simp [adjustment]

lemma roundDiv_eq_div (hd : 0 < d) : roundDiv n d = RoundingFlags.halfAwayFromZero.div n d := by
  simp only [roundDiv, RoundingFlags.div, RoundingFlags.adjustment]
  rcases lt_trichotomy (n.tmod d) 0 with h | h | h
  · rw [sign_eq_neg_one_of_neg h]
    split_ifs <;> omega
  · simp [h, hd.ne']
  · rw [sign_eq_one_of_pos h]
    split_ifs <;> omega

/-- The `switch` over the rounding flags finishes the rounded division. -/
lemma roundValue_eq {r : ℤ} (hr : r ≠ 0) (habs : |r| < d)
    (hlt : d < 2 ^ 31) {value remainder timeScale : Int64} (hrem : remainder.toInt = r)
    (hscale : timeScale.toInt = d) :
    roundValue flags value remainder timeScale = offset value (flags.adjustment r d) := by
  have hneg : remainder < 0 ↔ r < 0 := by
    simp [Int64.lt_iff_toInt_lt, hrem]
  have hpos : remainder > 0 ↔ 0 < r := by
    simp [Int64.lt_iff_toInt_lt, hrem]
  have hhalf : timeScale ≤ (if r < 0 then -remainder else remainder) * 2 ↔ d ≤ 2 * |r| := by
    have habs' : (if r < 0 then -remainder else remainder).toInt = |r| := by
      split_ifs with h
      · rw [Int64.toInt_neg, hrem, abs_of_neg h, bmod_eq]
        rw [abs_of_neg h] at habs
        exact ⟨by omega, by omega⟩
      · rw [hrem, abs_of_nonneg (not_lt.1 h)]
    have htwo : (2 : Int64).toInt = 2 := rfl
    have hnonneg := abs_nonneg r
    rw [Int64.le_iff_toInt_le, hscale, toInt_mul, habs', htwo, mul_comm]
    rw [htwo]
    exact ⟨by omega, by omega⟩
  simp only [roundValue, hhalf, hneg, hpos, increment_eq, decrement_eq]
  rcases lt_or_gt_of_ne hr with h | h
  · cases flags <;> simp only [RoundingFlags.adjustment, sign_eq_neg_one_of_neg h, h, h.not_gt,
      if_true, if_false, offset_zero]
    split_ifs
    exacts [rfl, (offset_zero value).symm]
  · cases flags <;> simp only [RoundingFlags.adjustment, sign_eq_one_of_pos h, h, h.not_gt,
      if_true, if_false, offset_zero]
    split_ifs
    exacts [rfl, (offset_zero value).symm]

lemma tdiv_nonpos (hn : n ≤ 0) : n.tdiv d ≤ 0 := by
  have h := Int.tdiv_nonneg (neg_nonneg.2 hn) (natCast_nonneg d)
  rw [Int.neg_tdiv] at h
  omega

section

variable (hs : t.HasScale) (hc : c.toNat < 2 ^ 31)

include hs

lemma toInt_whole : (t.timeValue / scaleValue t.timeScale).toInt =
    t.timeValue.toInt.tdiv t.timeScale.toNat := by
  rw [toInt_div_of_pos, toInt_scaleValue]
  simpa using hs.pos

include hc

lemma toInt_rest :
    (t.timeValue % scaleValue t.timeScale * scaleValue c / scaleValue t.timeScale).toInt =
      (t.timeValue.toInt.tmod t.timeScale.toNat * c.toNat).tdiv t.timeScale.toNat := by
  rw [toInt_div_of_pos, toInt_scaleValue, toInt_partialRemainder hs hc]
  simpa using hs.pos

lemma toInt_remainder :
    (t.timeValue % scaleValue t.timeScale * scaleValue c % scaleValue t.timeScale).toInt =
      (t.timeValue.toInt * c.toNat).tmod t.timeScale.toNat := by
  simp [toInt_partialRemainder hs hc, (tdiv_mul_eq hs.pos t.timeValue.toInt c.toNat).2]

omit hc

/-- Both parts of the quotient have the sign of the value. -/
lemma quotient_signs :
    (0 ≤ t.timeValue.toInt → 0 ≤ t.timeValue.toInt.tdiv t.timeScale.toNat * c.toNat ∧
      0 ≤ (t.timeValue.toInt.tmod t.timeScale.toNat * c.toNat).tdiv t.timeScale.toNat) ∧
    (t.timeValue.toInt ≤ 0 → t.timeValue.toInt.tdiv t.timeScale.toNat * c.toNat ≤ 0 ∧
      (t.timeValue.toInt.tmod t.timeScale.toNat * c.toNat).tdiv t.timeScale.toNat ≤ 0) := by
  obtain ⟨hpos, hneg⟩ := tmod_bounds hs.pos t.timeValue.toInt
  refine ⟨fun h => ⟨mul_nonneg (Int.tdiv_nonneg h (by positivity)) (by positivity),
      Int.tdiv_nonneg (mul_nonneg (hpos h).1 (by positivity)) (by positivity)⟩,
    fun h => ⟨mul_nonpos_of_nonpos_of_nonneg (tdiv_nonpos h) (by positivity),
      tdiv_nonpos (mul_nonpos_of_nonpos_of_nonneg (hneg h).2 (by positivity))⟩⟩

end

lemma infiniteTimeOfSign_eq {x y : Int64} (hpos : 0 ≤ y.toInt → 0 ≤ x.toInt)
    (hneg : y.toInt ≤ 0 → x.toInt ≤ 0) (hne : x.toInt ≠ 0) :
    infiniteTimeOfSign x = infiniteTimeOfSign y := by
  rw [infiniteTimeOfSign, infiniteTimeOfSign]
  simp only [Int64.lt_iff_toInt_lt, toInt_zero]
  split_ifs <;> first | rfl | omega

/-- A quotient is no further from zero before it is rounded. -/
lemma RoundingFlags.div_bounds (hd : 0 < d) : (0 ≤ n → 0 ≤ n.tdiv d ∧ n.tdiv d ≤ flags.div n d) ∧
      (n ≤ 0 → flags.div n d ≤ n.tdiv d ∧ n.tdiv d ≤ 0) := by
  obtain ⟨hpos, hneg⟩ := tmod_bounds hd n
  have hsign : (0 ≤ n.tmod d → 0 ≤ flags.adjustment (n.tmod d) d) ∧
      (n.tmod d ≤ 0 → flags.adjustment (n.tmod d) d ≤ 0) := by
    have h := sign_nonneg_iff (x := n.tmod d)
    have h' := sign_nonpos_iff (x := n.tmod d)
    cases flags <;> simp only [adjustment] <;> (try split_ifs) <;> omega
  rw [div]
  refine ⟨fun hn => ⟨Int.tdiv_nonneg hn (natCast_nonneg d), ?_⟩, fun hn => ⟨?_, tdiv_nonpos hn⟩⟩
  · omega
  · omega

lemma RoundingFlags.fits_tdiv (hd : 0 < d)
    (h : FitsInt64 (flags.div n d)) : FitsInt64 (n.tdiv d) := by
  obtain ⟨hpos, hneg⟩ := flags.div_bounds (n := n) hd
  rw [FitsInt64] at *
  rcases le_total 0 n with hn | hn
  · omega
  · omega

/-- A time with the rounded quotient of `n` and `d` as its value, where that fits. -/
def withQuotient (t : MediaTime) (c : UInt32) (flags : RoundingFlags) (n : ℤ) (d : ℕ) :
    Option MediaTime :=
  if FitsInt64 (flags.div n d) then
    some ⟨Int64.ofInt (flags.div n d), c, { t.timeFlags with
      hasBeenRounded := t.timeFlags.hasBeenRounded || decide (n.tmod d ≠ 0) }⟩
  else none

/-- The end of `setTimeScale`, from the truncated quotient of `n` and `d` and its remainder. -/
lemma finish_eq (hd : 0 < d) (hlt : d < 2 ^ 31) {value remainder timeScale : Int64}
    (hval : value.toInt = n.tdiv d) (hrem : remainder.toInt = n.tmod d)
    (hscale : timeScale.toInt = d) :
    (if remainder = 0 then some { t with timeValue := value, timeScale := c }
      else (roundValue flags value remainder timeScale).map fun value =>
        { timeValue := value, timeScale := c,
          timeFlags := { t.timeFlags with hasBeenRounded := true } }) =
      t.withQuotient c flags n d := by
  simp only [withQuotient, ← Int64.toInt_inj, hrem, toInt_zero]
  by_cases hzero : n.tmod d = 0
  · rw [flags.div_of_tmod_eq_zero hzero, ← hval, if_pos (fitsInt64_toInt value)]
    simp [hzero]
  · rw [roundValue_eq flags hzero (abs_tmod_lt hd n) hlt hrem hscale, offset,
      hval, ← RoundingFlags.div]
    split_ifs <;> simp [hzero]

/-- What `setTimeScale` computes from the value at the new time scale `c`. -/
def rescale (t : MediaTime) (c : UInt32) (flags : RoundingFlags) : Option MediaTime :=
  let n := t.timeValue.toInt * c.toNat
  let d := t.timeScale.toNat
  if FitsInt64 (n.tdiv d) then t.withQuotient c flags n d
  else some (infiniteTimeOfSign t.timeValue)

lemma rescale_self (hs : t.HasScale) (flags : RoundingFlags) :
    t.rescale t.timeScale flags = some t := by
  have hd : (t.timeScale.toNat : ℤ) ≠ 0 := by exact_mod_cast hs.pos.ne'
  have hmod : (t.timeValue.toInt * t.timeScale.toNat).tmod t.timeScale.toNat = 0 :=
    mul_tmod_left _ _
  simp only [rescale, withQuotient, flags.div_of_tmod_eq_zero hmod, mul_tdiv_cancel _ hd,
    fitsInt64_toInt]
  simp

/-- `std::min(MaximumTimeScale, timeScale)`. -/
def clampTimeScale (timeScale : UInt32) : UInt32 :=
  if timeScale < MaximumTimeScale then timeScale else MaximumTimeScale

lemma toNat_clampTimeScale (c : UInt32) :
    (clampTimeScale c).toNat = min c.toNat MaximumTimeScale.toNat := by
  rw [clampTimeScale]
  split_ifs with h <;> rw [UInt32.lt_iff_toNat_lt] at h <;> omega

lemma clampTimeScale_of_le (h : c ≤ MaximumTimeScale) : clampTimeScale c = c := by
  rw [← UInt32.toNat_inj, toNat_clampTimeScale]
  exact min_eq_left (UInt32.le_iff_toNat_le.1 h)

lemma HasScale.ne_zero (hs : t.HasScale) : t.timeScale ≠ 0 :=
  fun h => absurd hs.pos (by rw [h]; decide)

/-- What `setTimeScale` does to a time without a double. -/
lemma setTimeScale_eq (hdbl : ¬t.hasDoubleValue) (hs : t.HasScale) (c : UInt32)
    (flags : RoundingFlags) : t.setTimeScale c flags = t.rescale (clampTimeScale c) flags := by
  by_cases hne : c = t.timeScale
  · rw [setTimeScale, if_neg hdbl, if_pos hne, hne, clampTimeScale_of_le hs.2, rescale_self hs]
  rw [setTimeScale, if_neg hdbl, if_neg hne, if_neg hs.ne_zero, ← clampTimeScale]
  have hc' : (clampTimeScale c).toNat < 2 ^ 31 := by
    rw [toNat_clampTimeScale]
    exact Nat.lt_succ_of_le (min_le_right _ _)
  generalize clampTimeScale c = c at hc' ⊢
  obtain ⟨htdiv, -⟩ := tdiv_mul_eq hs.pos t.timeValue.toInt c.toNat
  obtain ⟨hpos, hneg⟩ := quotient_signs hs
  have hwhole := toInt_whole hs
  have hrest := toInt_rest hs hc'
  have hrem := toInt_remainder hs hc'
  dsimp only
  rw [safeMultiply_eq, hwhole, toInt_scaleValue]
  simp only [rescale]
  rw [htdiv]
  generalize t.timeValue % scaleValue t.timeScale * scaleValue c / scaleValue t.timeScale =
    rest at *
  generalize hq : t.timeValue.toInt.tdiv t.timeScale.toNat * c.toNat = q at *
  generalize (t.timeValue.toInt.tmod t.timeScale.toNat * c.toNat).tdiv t.timeScale.toNat = r at *
  -- an overflow of the product or of the sum means that the exact quotient is out of range
  by_cases hfits : FitsInt64 q
  · have hprod : (t.timeValue / scaleValue t.timeScale * scaleValue c).toInt = q := by
      rw [toInt_mul, hwhole, toInt_scaleValue, hq]
      rwa [hwhole, toInt_scaleValue, hq]
    rw [if_pos hfits]
    generalize t.timeValue / scaleValue t.timeScale * scaleValue c = prod at *
    simp only [safeAdd_eq, hprod, hrest]
    by_cases hsum : FitsInt64 (q + r)
    · have hval : (prod + rest).toInt = (t.timeValue.toInt * c.toNat).tdiv t.timeScale.toNat := by
        rw [toInt_add, hprod, hrest, htdiv]
        rwa [hprod, hrest]
      rw [if_pos hsum, if_pos hsum]
      exact finish_eq flags hs.pos hs.lt hval hrem (toInt_scaleValue _)
    · rw [if_neg hsum, if_neg hsum]
      have hne : prod.toInt ≠ 0 := by
        intro h
        rw [← hprod, h, zero_add, ← hrest] at hsum
        exact hsum (fitsInt64_toInt rest)
      exact congrArg some (infiniteTimeOfSign_eq (fun h => hprod ▸ (hpos h).1)
        (fun h => hprod ▸ (hneg h).1) hne)
  · have hsum : ¬FitsInt64 (q + r) := by
      rintro ⟨hlow, hhigh⟩
      refine hfits ?_
      rw [FitsInt64]
      rcases le_total 0 t.timeValue.toInt with h | h
      · omega
      · omega
    rw [if_neg hfits, if_neg hsum]
    refine congrArg some (infiniteTimeOfSign_eq ?_ ?_ ?_) <;> rw [hwhole]
    · exact fun h => Int.tdiv_nonneg h (by positivity)
    · exact tdiv_nonpos
    · intro h
      rw [h, zero_mul] at hq
      exact hfits (hq ▸ by decide)

/-- The same time but for its value, its scale and the mark of having been rounded. -/
def SameKind (t t' : MediaTime) : Prop :=
  t'.timeFlags = { t.timeFlags with hasBeenRounded := t'.timeFlags.hasBeenRounded }

lemma SameKind.isFinite {t' : MediaTime} (h : SameKind t t') (ht : t.IsFinite) : t'.IsFinite := by
  simp only [IsFinite, isValid, isPositiveInfinite, isNegativeInfinite, isIndefinite,
    hasDoubleValue] at ht ⊢
  rw [h]
  exact ht

/-- The three outcomes of `setTimeScale`. -/
inductive Rescaled (t : MediaTime) (c : UInt32) : Option MediaTime → Prop
  | value {t' : MediaTime} (hscale : t'.timeScale = c)
      (hvalue : t'.timeValue.toInt = t.valueAt c.toNat) (hkind : SameKind t t') :
      Rescaled t c (some t')
  | infinite (hfits : ¬FitsInt64 (t.valueAt c.toNat)) (hne : c ≠ t.timeScale) :
      Rescaled t c (some (infiniteTimeOfSign t.timeValue))
  | undefined (hfits : ¬FitsInt64 (t.valueAt c.toNat)) : Rescaled t c none

lemma rescaled_setTimeScale (hdbl : ¬t.hasDoubleValue) (hs : t.HasScale)
    (hc : 1 ≤ c ∧ c ≤ MaximumTimeScale) : Rescaled t c (t.setTimeScale c .halfAwayFromZero) := by
  have hval : t.valueAt c.toNat = RoundingFlags.halfAwayFromZero.div
      (t.timeValue.toInt * c.toNat) t.timeScale.toNat := roundDiv_eq_div hs.pos
  rw [setTimeScale_eq hdbl hs, clampTimeScale_of_le hc.2, rescale]
  dsimp only [withQuotient]
  rw [← hval]
  split_ifs with htdiv hfits
  · exact .value rfl (toInt_ofInt hfits) rfl
  · exact .undefined hfits
  · refine .infinite (fun h => htdiv (RoundingFlags.fits_tdiv _ hs.pos (hval ▸ h))) ?_
    rintro rfl
    have hd : (t.timeScale.toNat : ℤ) ≠ 0 := by exact_mod_cast hs.pos.ne'
    rw [mul_tdiv_cancel _ hd] at htdiv
    exact htdiv (fitsInt64_toInt _)

/-! ### Exact rounding -/

lemma setTimeScaleInt128_eq (hdbl : ¬t.hasDoubleValue) (hs : t.HasScale) (c : UInt32)
    (flags : RoundingFlags) :
    t.setTimeScaleInt128 c flags = t.rescale (clampTimeScale c) flags := by
  by_cases hne : c = t.timeScale
  · rw [setTimeScaleInt128, if_neg hdbl, if_pos hne, hne, clampTimeScale_of_le hs.2,
      rescale_self hs]
  rw [setTimeScaleInt128, if_neg hdbl, if_neg hne, if_neg hs.ne_zero, ← clampTimeScale]
  generalize clampTimeScale c = c
  simp only [rescale, Int64.toInt_minValue, Int64.toInt_maxValue]
  generalize hn : t.timeValue.toInt * c.toNat = n
  have hsign : (t.timeValue.toInt < 0 → n.tdiv t.timeScale.toNat ≤ 0) ∧
      (0 ≤ t.timeValue.toInt → 0 ≤ n.tdiv t.timeScale.toNat) := by
    rw [← hn]
    exact ⟨fun h => tdiv_nonpos (mul_nonpos_of_nonpos_of_nonneg h.le (by positivity)),
      fun h => Int.tdiv_nonneg (by positivity) (by positivity)⟩
  have hlt := abs_lt.1 ((abs_tmod_lt hs.pos n).trans (Nat.cast_lt.2 hs.lt))
  have hinfinite : t.timeValue < 0 ↔ t.timeValue.toInt < 0 := by
    simp [Int64.lt_iff_toInt_lt]
  by_cases hfits : FitsInt64 (n.tdiv t.timeScale.toNat)
  · have hrng := hfits
    rw [FitsInt64] at hrng
    rw [if_pos hfits, if_neg (by omega), if_neg (by omega)]
    refine finish_eq flags hs.pos hs.lt (toInt_ofInt hfits) ?_ (toInt_scaleValue _)
    refine toInt_ofInt ⟨?_, ?_⟩ <;> push_cast at hlt <;> omega
  · rw [if_neg hfits, infiniteTimeOfSign]
    simp only [hinfinite]
    rw [FitsInt64] at hfits
    split_ifs <;> first | rfl | omega

/-- A rational rounded as the flags say. -/
def RoundingFlags.round (flags : RoundingFlags) (q : ℚ) : ℤ :=
  match flags with
  | .halfAwayFromZero => if q < 0 then ⌈q - 1 / 2⌉ else ⌊q + 1 / 2⌋
  | .towardZero => if q < 0 then ⌈q⌉ else ⌊q⌋
  | .awayFromZero => if q < 0 then ⌊q⌋ else ⌈q⌉
  | .towardPositiveInfinity => ⌈q⌉
  | .towardNegativeInfinity => ⌊q⌋

lemma RoundingFlags.round_div (hd : 0 < d) : flags.round (n / d) = flags.div n d := by
  have hd' : (0 : ℚ) < d := by exact_mod_cast hd
  obtain ⟨hpos, hneg⟩ := tmod_bounds hd n
  have hpos' : 0 ≤ n → 0 ≤ n.tdiv d := fun h => Int.tdiv_nonneg h (natCast_nonneg d)
  have hneg' : n ≤ 0 → n.tdiv d ≤ 0 := tdiv_nonpos
  -- the quotient is the truncated one and a fraction with the sign of the remainder
  obtain ⟨f, hf⟩ : ∃ f : ℚ, f = n.tmod d / d := ⟨_, rfl⟩
  have hx : n / d = n.tdiv d + f := by
    rw [hf, div_eq_iff hd'.ne', add_mul, div_mul_cancel₀ _ hd'.ne', mul_comm]
    exact_mod_cast (mul_tdiv_add_tmod n d).symm
  rw [hx, div, round.eq_def, adjustment.eq_def]
  generalize n.tdiv d = q at *
  generalize n.tmod d = r at *
  have habs : d ≤ 2 * |r| ↔ 1 ≤ 2 * |f| := by
    rw [hf, abs_div, abs_of_pos hd', ← mul_div_assoc, le_div_iff₀ hd', one_mul]
    exact_mod_cast Iff.rfl
  simp only [habs]
  rcases lt_trichotomy r 0 with hr | rfl | hr
  · have hq : (q : ℚ) ≤ 0 := by exact_mod_cast hneg' (by omega)
    have hf0 : f < 0 := hf ▸ div_neg_of_neg_of_pos (by exact_mod_cast hr) hd'
    have hf1 : -1 < f := by
      rw [hf, lt_div_iff₀ hd', neg_one_mul]
      exact_mod_cast (hneg (by omega)).1
    simp only [hr, sign_eq_neg_one_of_neg hr, abs_of_neg hf0]
    cases flags <;> simp only <;> (try split_ifs) <;>
      simp only [floor_eq_iff, ceil_eq_iff] <;> push_cast <;> constructor <;> linarith
  · have hf0 : f = 0 := by simp [hf]
    cases flags <;> simp only [hf0, lt_self_iff_false, if_false] <;> (try split_ifs) <;>
      simp [ceil_eq_iff] <;> norm_num
  · have hq : (0 : ℚ) ≤ q := by exact_mod_cast hpos' (by omega)
    have hf0 : 0 < f := hf ▸ div_pos (by exact_mod_cast hr) hd'
    have hf1 : f < 1 := by
      rw [hf, div_lt_one hd']
      exact_mod_cast (hpos (by omega)).2
    simp only [hr, sign_eq_one_of_pos hr, abs_of_pos hf0]
    cases flags <;> simp only <;> (try split_ifs) <;>
      simp only [floor_eq_iff, ceil_eq_iff] <;> push_cast <;> constructor <;> linarith

lemma RoundingFlags.cast_div_eq_iff (hd : 0 < d) : (flags.div n d : ℚ) = n / d ↔ n.tmod d = 0 := by
  have hd' : (d : ℚ) ≠ 0 := by exact_mod_cast hd.ne'
  rw [eq_div_iff hd']
  refine ⟨fun h => ?_, fun h => ?_⟩
  · have hn : n = flags.div n d * d := by exact_mod_cast h.symm
    rw [hn]
    exact mul_tmod_left _ _
  · rw [flags.div_of_tmod_eq_zero h]
    exact_mod_cast Int.tdiv_mul_cancel (dvd_of_tmod_eq_zero h)

/-- The time at the time scale `c`: the exact value rounded, infinite where that does not fit. -/
def rescaled (t : MediaTime) (c : UInt32) (flags : RoundingFlags) : MediaTime :=
  let q := t.toRat * c.toNat
  let value := flags.round q
  if FitsInt64 value then
    ⟨Int64.ofInt value, c, { t.timeFlags with
      hasBeenRounded := t.timeFlags.hasBeenRounded || decide ((value : ℚ) ≠ q) }⟩
  else if value < 0 then negativeInfiniteTime
  else positiveInfiniteTime

/-- Both branches of `setTimeScale` give the same time. It is the exact value rounded as the flags
say unless the value fits into `int64_t` only as long as it is truncated. -/
theorem setTimeScale_eq_rescaled_iff (hfin : t.IsFinite) (hs : t.HasScale) (hc : 1 ≤ c)
    (flags : RoundingFlags) :
    t.setTimeScaleInt128 c flags = t.setTimeScale c flags ∧
      (t.setTimeScale c flags = some (t.rescaled (clampTimeScale c) flags) ↔
        (FitsInt64 (RoundingFlags.towardZero.round (t.toRat * (clampTimeScale c).toNat)) →
          FitsInt64 (flags.round (t.toRat * (clampTimeScale c).toNat)))) := by
  have hdouble := hfin.2.2.2.2
  rw [setTimeScaleInt128_eq hdouble hs, setTimeScale_eq hdouble hs]
  refine ⟨rfl, ?_⟩
  have hpos : 0 < (clampTimeScale c).toNat := by
    rw [toNat_clampTimeScale]
    exact lt_min (UInt32.le_iff_toNat_le.1 hc) (by decide)
  generalize clampTimeScale c = c at hpos ⊢
  have hrat : t.toRat * c.toNat = (t.timeValue.toInt * c.toNat : ℤ) / t.timeScale.toNat := by
    rw [toRat]
    push_cast
    ring
  have htoward n d : RoundingFlags.towardZero.div n d = n.tdiv d := add_zero _
  simp only [rescale, withQuotient, rescaled, hrat, RoundingFlags.round_div _ hs.pos, htoward,
    ne_eq, RoundingFlags.cast_div_eq_iff _ hs.pos]
  have hsign : t.timeValue < 0 ↔ t.timeValue.toInt * c.toNat < 0 := by
    have hc : (0 : ℤ) < c.toNat := by exact_mod_cast hpos
    rw [Int64.lt_iff_toInt_lt]
    exact ⟨fun h => mul_neg_of_neg_of_pos h hc, fun h => neg_of_mul_neg_left h hc.le⟩
  generalize t.timeValue.toInt * c.toNat = n at *
  obtain ⟨hge, hle⟩ := flags.div_bounds (n := n) hs.pos
  have hfits := flags.fits_tdiv (n := n) hs.pos
  -- only a quotient that is rounded out of the range makes a difference
  by_cases hdiv : FitsInt64 (flags.div n t.timeScale.toNat)
  · rw [if_pos (hfits hdiv), if_pos hdiv, if_pos hdiv]
    exact iff_of_true rfl fun _ => hdiv
  · by_cases htdiv : FitsInt64 (n.tdiv t.timeScale.toNat)
    · rw [if_pos htdiv, if_neg hdiv]
      exact iff_of_false (by rintro ⟨⟩) fun h => hdiv (h htdiv)
    · rw [if_neg htdiv, if_neg hdiv, infiniteTimeOfSign]
      refine iff_of_true ?_ fun h => absurd h htdiv
      have hzero : flags.div n t.timeScale.toNat ≠ 0 := fun h => hdiv (h ▸ by decide)
      simp only [hsign]
      congr 2
      rw [eq_iff_iff]
      omega

theorem setTimeScale_eq_rescaled_half :
    let t : MediaTime := ⟨-5, 2, .onlyValid⟩
    t.IsFinite ∧ t.HasScale ∧
      t.setTimeScale 3 .halfAwayFromZero =
        some (t.rescaled (clampTimeScale 3) .halfAwayFromZero) := by
  intro t
  have hfin : t.IsFinite := by decide
  have hs : t.HasScale := by decide
  refine ⟨hfin, hs, ((setTimeScale_eq_rescaled_iff hfin hs (by decide) _).2).2 fun _ => ?_⟩
  decide +kernel

/-- The truncated value is the largest `int64_t`, and rounding increments it. -/
theorem setTimeScale_increments_past_range :
    let t : MediaTime := ⟨6148914691236517205, 2, .onlyValid⟩
    t.IsFinite ∧ t.HasScale ∧
      t.rescaled (clampTimeScale 3) .halfAwayFromZero = positiveInfiniteTime ∧
      t.setTimeScale 3 .halfAwayFromZero ≠
        some (t.rescaled (clampTimeScale 3) .halfAwayFromZero) := by
  decide +kernel

end MediaTime

end WebKit.WTF
