import Mathlib

/-!
# Doubles as integers of 32 bits

`toInt32` cuts the result out of the bits of a double: the fraction has the bits 0..51, the biased
exponent the bits 52..62, and the sign is bit 63.
-/

namespace WebKit.JSC

open BitVec

inductive ToInt32Mode where
  | generic
  | afterSensibleConversionAttempt

/-- The bits with the exponent `exp`, from the leading one on. -/
def selectBits (bits : BitVec 64) (exp : BitVec 32) : BitVec 32 :=
  if exp > 52#32 then (bits <<< (exp - 52#32)).setWidth 32
  else (bits >>> (52#32 - exp)).setWidth 32

/-- Whether the leading one is among the bits; after a conversion attempt the exponent is not below
31. -/
def oneIsMissing (exp : BitVec 32) : ToInt32Mode → Bool
  | .generic => exp < 32#32
  | .afterSensibleConversionAttempt => exp = 31#32

/-- The leading one is not stored; the bits above its place are masked out. -/
def insertMissingOne (mode : ToInt32Mode) (exp result : BitVec 32) : BitVec 32 :=
  let missingOne := 1#32 <<< exp
  if oneIsMissing exp mode then (result &&& (missingOne - 1#32)) + missingOne else result

/-- An exponent below zero is a large unsigned number. The signed shifts, the addition of the
missing one and the negation of the least integer are taken to wrap around. -/
def toInt32Internal (mode : ToInt32Mode) (bits : BitVec 64) : BitVec 32 :=
  let exp := ((bits >>> 52).setWidth 32 &&& 0x7ff#32) - 0x3ff#32
  if exp > 83#32 then 0#32
  else
    let result := insertMissingOne mode exp (selectBits bits exp)
    if bits.slt 0#64 then -result else result

def toInt32 (bits : BitVec 64) : BitVec 32 := toInt32Internal .generic bits

/-! ### The number of a pattern -/

variable (bits : BitVec 64) {k : ℕ} {exp : BitVec 32}

def biasedExponent : ℕ := bits.toNat / 2 ^ 52 % 2 ^ 11

def fraction : ℕ := bits.toNat % 2 ^ 52

/-- The fraction with the leading one, which the numbers with the least exponent do not have. -/
def significand : ℕ := if biasedExponent bits = 0 then fraction bits else 2 ^ 52 + fraction bits

/-- The number of a pattern; infinities and NaNs have none. -/
def value : Option ℚ :=
  if biasedExponent bits = 2047 then none
  else
    let magnitude : ℚ := (significand bits * 2 ^ max 1 (biasedExponent bits) : ℕ) /
      (2 ^ (1023 + 52) : ℕ)
    some (if bits.msb then -magnitude else magnitude)

/-- Rounding towards zero. -/
def truncate (q : ℚ) : ℤ := if q < 0 then ⌈q⌉ else ⌊q⌋

/-! ### The bits -/

lemma toNat_exponent : (((bits >>> 52).setWidth 32 &&& 0x7ff#32) - 0x3ff#32).toNat =
    (2 ^ 32 - 1023 + biasedExponent bits) % 2 ^ 32 := by
  have hmod : bits.toNat >>> 52 % 2 ^ 32 &&& 0x7ff = biasedExponent bits := by
    rw [Nat.and_two_pow_sub_one_eq_mod _ 11, Nat.mod_mod_of_dvd _ (Nat.pow_dvd_pow 2 (by decide)),
      Nat.shiftRight_eq_div_pow]
    rfl
  rw [toNat_sub]
  exact congrArg (fun n => (2 ^ 32 - 1023 + n) % 2 ^ 32) hmod

/-- Both shifts are one product. -/
lemma toNat_selectBits (hexp : exp.toNat = k) :
    (selectBits bits exp).toNat = bits.toNat * 2 ^ k / 2 ^ 52 % 2 ^ 32 := by
  unfold selectBits
  split_ifs with h
  · have hlt : 52 < k := hexp ▸ h
    have hsub : (exp - 52#32).toNat = k - 52 := by rw [toNat_sub, hexp, toNat_ofNat]; omega
    rw [toNat_setWidth, shiftLeft_eq', toNat_shiftLeft, hsub, Nat.shiftLeft_eq,
      Nat.mod_mod_of_dvd _ (Nat.pow_dvd_pow 2 (by decide)), ← Nat.sub_add_cancel hlt.le, pow_add,
      ← Nat.mul_assoc, Nat.mul_div_cancel _ (by decide), Nat.add_sub_cancel]
  · have hle : k ≤ 52 := by rw [gt_iff_lt, lt_def, hexp] at h; exact Nat.le_of_not_lt h
    have hsub : (52#32 - exp).toNat = 52 - k := by rw [toNat_sub, hexp, toNat_ofNat]; omega
    rw [toNat_setWidth, ushiftRight_eq', toNat_ushiftRight, hsub, Nat.shiftRight_eq_div_pow,
      ← Nat.mul_div_mul_right _ _ (Nat.two_pow_pos k), ← pow_add, Nat.sub_add_cancel hle]

/-- The bits of the result, when the leading one has the place `k`. -/
def cut (bits : BitVec 64) (k : ℕ) : ℕ := (2 ^ 52 + fraction bits) * 2 ^ k / 2 ^ 52

/-- The bits above the fraction are a multiple of `2 ^ k` after the shift. -/
lemma exists_shifted_eq (k : ℕ) : ∃ high low, low < 2 ^ k ∧
    bits.toNat * 2 ^ k / 2 ^ 52 = high * 2 ^ k + low ∧ cut bits k = 2 ^ k + low := by
  have hlt : fraction bits < 2 ^ 52 := Nat.mod_lt _ (by decide)
  refine ⟨bits.toNat / 2 ^ 52, fraction bits * 2 ^ k / 2 ^ 52, ?_, ?_, ?_⟩
  · rw [Nat.div_lt_iff_lt_mul (by decide), Nat.mul_comm]
    exact Nat.mul_lt_mul_of_pos_left hlt (Nat.two_pow_pos k)
  · have hsplit : bits.toNat = 2 ^ 52 * (bits.toNat / 2 ^ 52) + fraction bits :=
      (Nat.div_add_mod _ _).symm
    conv_lhs => rw [hsplit]
    rw [Nat.add_mul, Nat.mul_assoc, Nat.mul_add_div (by decide)]
  · rw [cut, Nat.add_mul, Nat.mul_add_div (by decide)]

/-- The leading one is put back where it is not cut off. -/
lemma cut_mod (hk : 32 ≤ k) : cut bits k % 2 ^ 32 = bits.toNat * 2 ^ k / 2 ^ 52 % 2 ^ 32 := by
  obtain ⟨high, low, -, hbits, hcut⟩ := exists_shifted_eq bits k
  obtain ⟨j, rfl⟩ := Nat.exists_eq_add_of_le hk
  rw [hbits, hcut, pow_add, Nat.mul_left_comm, Nat.mul_add_mod, Nat.mul_add_mod]

lemma insertMissingOne_selectBits {mode : ToInt32Mode} (hexp : exp.toNat = k)
    (hmode : mode = .afterSensibleConversionAttempt → 31 ≤ k) :
    insertMissingOne mode exp (selectBits bits exp) = BitVec.ofNat 32 (cut bits k) := by
  have hselect := toNat_selectBits bits hexp
  have hmissing : oneIsMissing exp mode ↔ k < 32 := by
    cases mode with
    | generic => simp [oneIsMissing, lt_def, hexp]
    | afterSensibleConversionAttempt =>
      have hle := hmode rfl
      rw [oneIsMissing, decide_eq_true_eq, toNat_eq, hexp, toNat_ofNat]
      omega
  rw [insertMissingOne]
  simp only [hmissing]
  apply eq_of_toNat_eq
  split_ifs with hk
  · obtain ⟨high, low, hlow, hbits, hcut⟩ := exists_shifted_eq bits k
    have hpow : 2 ^ k < 2 ^ 32 := Nat.pow_lt_pow_right (by decide) hk
    have hone : (1#32 <<< exp).toNat = 2 ^ k := by
      rw [shiftLeft_eq', toNat_shiftLeft, hexp, Nat.shiftLeft_eq]
      exact (congrArg (· % 2 ^ 32) (Nat.one_mul _)).trans (Nat.mod_eq_of_lt hpow)
    have hmask : (1#32 <<< exp - 1#32).toNat = 2 ^ k - 1 := by
      rw [toNat_sub, hone, toNat_ofNat]
      omega
    rw [toNat_add, toNat_and, hmask, hone, hselect, Nat.and_two_pow_sub_one_eq_mod,
      Nat.mod_mod_of_dvd _ (Nat.pow_dvd_pow 2 hk.le), hbits, Nat.mul_comm high, Nat.mul_add_mod,
      Nat.mod_eq_of_lt hlow, toNat_ofNat, hcut, Nat.add_comm]
  · rw [hselect, toNat_ofNat, cut_mod bits (Nat.le_of_not_lt hk)]

/-! ### The truncated number -/

lemma truncate_div (n d : ℕ) (negative : Bool) :
    truncate (if negative then -((n : ℚ) / d) else n / d) =
      if negative then -((n / d : ℕ) : ℤ) else (n / d : ℕ) := by
  have hpos : (0 : ℚ) ≤ n / d := by positivity
  have hfloor : ⌊(n : ℚ) / d⌋ = (n / d : ℕ) := Rat.floor_natCast_div_natCast n d
  cases negative with
  | false => rw [if_neg (by decide), if_neg (by decide), truncate, if_neg hpos.not_gt, hfloor]
  | true =>
    rw [if_pos rfl, if_pos rfl, truncate, Int.ceil_neg, hfloor]
    split_ifs with h
    · rfl
    · have hzero : (n : ℚ) / d = 0 := le_antisymm (by linarith) hpos
      rw [hzero] at hfloor ⊢
      simp [← hfloor]

/-- Numbers below one have the result zero. -/
lemma div_eq_cut :
    significand bits * 2 ^ max 1 (biasedExponent bits) / 2 ^ (1023 + 52) =
      if biasedExponent bits < 1023 then 0 else cut bits (biasedExponent bits - 1023) := by
  have hlt : fraction bits < 2 ^ 52 := Nat.mod_lt _ (by decide)
  split_ifs with h
  · have hsig : significand bits < 2 ^ 53 := by
      unfold significand
      split_ifs <;> omega
    refine Nat.div_eq_of_lt ?_
    generalize hn : 1023 + 52 = n
    calc significand bits * 2 ^ max 1 (biasedExponent bits)
        < 2 ^ 53 * 2 ^ max 1 (biasedExponent bits) :=
          Nat.mul_lt_mul_of_pos_right hsig (Nat.two_pow_pos _)
      _ = 2 ^ (53 + max 1 (biasedExponent bits)) := (pow_add 2 53 _).symm
      _ ≤ 2 ^ n := Nat.pow_le_pow_right (by decide) (by omega)
  · obtain ⟨k, hk⟩ := Nat.exists_eq_add_of_le (Nat.le_of_not_lt h)
    rw [significand, if_neg (by omega), hk, max_eq_right (by omega), Nat.add_sub_cancel_left, cut,
      pow_add, pow_add, Nat.mul_left_comm, Nat.mul_div_mul_left _ _ (Nat.two_pow_pos _)]

/-- The number that is truncated and reduced, from the bits that are cut out. -/
lemma ofInt_truncate :
    BitVec.ofInt 32 (((value bits).map truncate).getD 0) =
      if biasedExponent bits < 1023 ∨ biasedExponent bits = 2047 then 0#32
      else
        let result := BitVec.ofNat 32 (cut bits (biasedExponent bits - 1023))
        if bits.msb then -result else result := by
  rw [value]
  by_cases hmax : biasedExponent bits = 2047
  · rw [if_pos hmax, if_pos (.inr hmax)]
    rfl
  · rw [if_neg hmax, Option.map_some, Option.getD_some, truncate_div, div_eq_cut]
    simp only [hmax, or_false]
    cases bits.msb <;> split_ifs <;> simp_all [BitVec.ofInt_neg]

lemma toInt32Internal_eq (mode : ToInt32Mode)
    (hmode : mode = .afterSensibleConversionAttempt → 31 + 1023 ≤ biasedExponent bits) :
    toInt32Internal mode bits = BitVec.ofInt 32 (((value bits).map truncate).getD 0) := by
  have hexp := toNat_exponent bits
  have hlt : biasedExponent bits < 2048 := Nat.mod_lt _ (by decide)
  rw [ofInt_truncate]
  unfold toInt32Internal
  generalize ((bits >>> 52).setWidth 32 &&& 0x7ff#32) - 0x3ff#32 = exp at hexp ⊢
  by_cases hbig : exp > 83#32
  · -- no bit of the number is left in the low 32 ones
    rw [if_pos hbig]
    by_cases hout : biasedExponent bits < 1023 ∨ biasedExponent bits = 2047
    · rw [if_pos hout]
    rw [if_neg hout]
    rw [gt_iff_lt, lt_def, hexp, toNat_ofNat] at hbig
    have hzero : BitVec.ofNat 32 (cut bits (biasedExponent bits - 1023)) = 0#32 := by
      apply eq_of_toNat_eq
      obtain ⟨k, hk⟩ := Nat.exists_eq_add_of_le (show 84 ≤ biasedExponent bits - 1023 by omega)
      rw [toNat_ofNat, cut_mod bits (by omega), hk, show 84 + k = k + 32 + 52 by omega, pow_add,
        ← Nat.mul_assoc, Nat.mul_div_cancel _ (by decide), pow_add, ← Nat.mul_assoc,
        Nat.mul_mod_left]
      rfl
    rw [hzero]
    cases bits.msb <;> rfl
  · rw [if_neg hbig]
    rw [gt_iff_lt, lt_def, hexp, toNat_ofNat] at hbig
    have hk : exp.toNat = biasedExponent bits - 1023 := by omega
    rw [insertMissingOne_selectBits bits hk fun h => by have := hmode h; omega, slt_zero_eq_msb]
    exact (if_neg (by omega)).symm

/-- The result is the truncated number, and both modes agree where the second one is used. -/
theorem toInt32_eq_truncate :
    (toInt32 bits).toInt = (((value bits).map truncate).getD 0).bmod (2 ^ 32) ∧
    (31 + 1023 ≤ biasedExponent bits →
      toInt32Internal .afterSensibleConversionAttempt bits = toInt32 bits) := by
  have hgeneric := toInt32Internal_eq bits .generic (fun h => by cases h)
  refine ⟨?_, fun h => ?_⟩
  · rw [toInt32, hgeneric, toInt_ofInt]
  · rw [toInt32, hgeneric, toInt32Internal_eq bits _ fun _ => h]

/-- The pattern of `-2 ^ 33 - 5`, whose exponent is 33. -/
theorem toInt32_eq_truncate_sample : (toInt32 0xC200000000280000#64).toInt =
      (((value 0xC200000000280000#64).map truncate).getD 0).bmod (2 ^ 32) ∧
    toInt32Internal .afterSensibleConversionAttempt 0xC200000000280000#64 = -5#32 :=
  ⟨(toInt32_eq_truncate _).1, ((toInt32_eq_truncate _).2 (by decide)).trans (by decide)⟩

end WebKit.JSC
