import WebKit.Platform.DecimalValue

/-!
# Differences

The operands are aligned before the coefficients are subtracted. What is lost then is less than a
unit in the 18th digit of the larger operand. A difference is the sum with the inverted sign.
-/

namespace WebKit.Platform

open Decimal

/-! ### Alignment -/

variable {overflow : ℕ}

/-- The coefficient with the larger exponent is scaled without loss, and the other one is cut where
the larger one has 18 digits. -/
lemma scaleOperands_spec {larger smaller : UInt64} (hlarger : larger.toNat < 10 ^ 17) {sh : ℕ}
    {scaled cut : UInt64} (h : Decimal.scaleOperands larger smaller sh = (scaled, cut, overflow)) :
    scaled.toNat * 10 ^ overflow = larger.toNat * 10 ^ sh ∧
      cut.toNat = smaller.toNat / 10 ^ overflow ∧ scaled.toNat < 10 ^ 18 ∧
      overflow ≤ sh ∧ (overflow = 0 ∨ 10 ^ 17 ≤ scaled.toNat) := by
  obtain ⟨hlt, hge⟩ := countDigits_spec (Nat.lt_trans hlarger (by decide))
  rw [scaleOperands] at h
  generalize countDigits larger = digits at hlt hge h
  dsimp only at h
  -- a zero, a shift that keeps 18 digits, a shift that would give more
  split_ifs at h with hzero hovf
  · obtain ⟨rfl, rfl, rfl⟩ : larger = scaled ∧ smaller = cut ∧ 0 = overflow := by simpa using h
    rw [hzero] at hlt
    have hnil : larger.toNat = 0 := by omega
    simp [hnil]
  · obtain ⟨rfl, rfl, rfl⟩ : scaleUp larger sh = scaled ∧ smaller = cut ∧ 0 = overflow := by
      simpa using h
    have hle : larger.toNat * 10 ^ sh < 10 ^ 18 := by
      calc larger.toNat * 10 ^ sh < 10 ^ digits * 10 ^ sh :=
            Nat.mul_lt_mul_of_pos_right hlt (by positivity)
        _ = 10 ^ (digits + sh) := (pow_add 10 digits sh).symm
        _ ≤ 10 ^ 18 := Nat.pow_le_pow_right (by decide) (Nat.le_of_sub_eq_zero hovf)
    rw [toNat_scaleUp (Nat.lt_trans hle (by decide))]
    exact ⟨by simp, by simp, hle, Nat.zero_le _, .inl rfl⟩
  · obtain ⟨rfl, rfl, rfl⟩ : scaleUp larger (sh - (digits + sh - Precision)) =
        scaled ∧ scaleDown smaller (digits + sh - Precision) = cut ∧
          digits + sh - Precision = overflow := by
      simpa using h
    have hdig : digits ≤ 17 := by
      have hge := hge.resolve_left hzero
      have := (Nat.pow_lt_pow_iff_right (by decide)).mp (Nat.lt_of_le_of_lt hge hlarger)
      omega
    simp only [Precision] at hovf ⊢
    have hshift : sh - (digits + sh - 18) = 18 - digits := by omega
    have hle : larger.toNat * 10 ^ (18 - digits) < 10 ^ 18 := by
      calc larger.toNat * 10 ^ (18 - digits) < 10 ^ digits * 10 ^ (18 - digits) :=
            Nat.mul_lt_mul_of_pos_right hlt (by positivity)
        _ = 10 ^ 18 := by rw [← pow_add, Nat.add_sub_cancel' (by omega)]
    have hge : 10 ^ 17 ≤ larger.toNat * 10 ^ (18 - digits) := by
      calc 10 ^ 17 = 10 ^ (digits - 1) * 10 ^ (18 - digits) := by
            rw [← pow_add]
            congr 1
            omega
        _ ≤ larger.toNat * 10 ^ (18 - digits) :=
            Nat.mul_le_mul_right _ (hge.resolve_left hzero)
    rw [hshift, toNat_scaleUp (Nat.lt_trans hle (by decide)), toNat_scaleDown]
    refine ⟨?_, rfl, hle, by omega, .inr hge⟩
    rw [mul_assoc, ← pow_add]
    congr 2
    omega

/-- The magnitude of a number is kept at an exponent, and that of another one is cut there. Then the
first one has 18 digits. -/
structure CutBeside (kept cut : Decimal) (keptCoefficient cutCoefficient : UInt64) (exponent : ℤ)
    (rest : ℚ) : Prop where
  kept_eq : kept.magnitude = keptCoefficient.toNat * 10 ^ exponent
  cut_eq : cut.magnitude = cutCoefficient.toNat * 10 ^ exponent + rest
  nonneg : 0 ≤ rest
  lt : rest < 10 ^ exponent
  kept_lt : keptCoefficient.toNat < 10 ^ 18
  cut_lt : cutCoefficient.toNat < 10 ^ 17
  exponent_le : cut.exponent ≤ kept.exponent ∧ cut.exponent ≤ exponent
  kept_ge : exponent = cut.exponent ∧ rest = 0 ∨
    cut.exponent < exponent ∧ 10 ^ 17 ≤ keptCoefficient.toNat

lemma cutBeside_of_scaleOperands {larger smaller : Decimal} {scaled cut : UInt64}
    (hexp : smaller.exponent < larger.exponent)
    (h : scaleOperands larger.coefficient smaller.coefficient
      (larger.exponent - smaller.exponent).toNat = (scaled, cut, overflow)) :
    (ExponentMin ≤ smaller.exponent + overflow ∧ smaller.exponent + overflow ≤ ExponentMax) ∧
      ∃ rest, CutBeside larger smaller scaled cut (smaller.exponent + overflow) rest := by
  obtain ⟨hsc, hcut, hlt, hovf, hge⟩ := scaleOperands_spec larger.coefficient_lt h
  have hmax : larger.exponent ≤ ExponentMax := larger.valid.exponent_mem.2
  have hmin : ExponentMin ≤ smaller.exponent := smaller.valid.exponent_mem.1
  have hten : (10 : ℚ) ≠ 0 := by norm_num
  have hlow : cut.toNat < 10 ^ 17 := hcut ▸ (Nat.div_le_self _ _).trans_lt smaller.coefficient_lt
  have hle : smaller.exponent ≤ larger.exponent ∧ smaller.exponent ≤ smaller.exponent + overflow :=
    ⟨hexp.le, by omega⟩
  refine ⟨by omega, (smaller.coefficient.toNat % 10 ^ overflow : ℕ) * 10 ^ smaller.exponent,
    ⟨?_, ?_, ?_, ?_, hlt, hlow, hle, ?_⟩⟩
  · have hsc : (scaled.toNat : ℚ) * 10 ^ overflow =
        larger.coefficient.toNat * 10 ^ (larger.exponent - smaller.exponent).toNat := by
      exact_mod_cast hsc
    rw [magnitude, zpow_add₀ hten, zpow_natCast, mul_comm (10 ^ smaller.exponent), ← mul_assoc, hsc,
      ← zpow_natCast, mul_assoc, ← zpow_add₀ hten]
    congr 2
    omega
  · have hspl : (smaller.coefficient.toNat : ℚ) =
        cut.toNat * 10 ^ overflow + (smaller.coefficient.toNat % 10 ^ overflow : ℕ) := by
      rw [hcut]
      exact_mod_cast (Nat.div_add_mod' _ (10 ^ overflow)).symm
    rw [magnitude, zpow_add₀ hten, zpow_natCast]
    nth_rewrite 1 [hspl]
    ring
  · exact mul_nonneg (Nat.cast_nonneg _) (ten_zpow_pos _).le
  · rw [zpow_add₀ hten, mul_comm]
    refine mul_lt_mul_of_pos_left ?_ (ten_zpow_pos _)
    exact_mod_cast Nat.mod_lt _ (by positivity)
  · rcases Nat.eq_zero_or_pos overflow with rfl | hovf
    · left
      simp [Nat.mod_one]
    · exact .inr ⟨by omega, hge.resolve_left hovf.ne'⟩

lemma alignOperands_spec {lhs rhs : Decimal} {aligned : AlignedOperands}
    (h : alignOperands lhs rhs = aligned) :
    (ExponentMin ≤ aligned.exponent ∧ aligned.exponent ≤ ExponentMax) ∧ ∃ rest,
      CutBeside lhs rhs aligned.lhsCoefficient aligned.rhsCoefficient aligned.exponent rest ∨
      CutBeside rhs lhs aligned.rhsCoefficient aligned.lhsCoefficient aligned.exponent rest := by
  subst h
  rw [alignOperands]
  by_cases hgt : lhs.exponent > rhs.exponent
  · rw [if_pos hgt, min_eq_right hgt.le]
    rcases hscale : scaleOperands lhs.coefficient rhs.coefficient
      (lhs.exponent - rhs.exponent).toNat with ⟨scaled, cut, overflow⟩
    obtain ⟨hmem, rest, hcut⟩ := cutBeside_of_scaleOperands hgt hscale
    exact ⟨hmem, rest, .inl hcut⟩
  rw [if_neg hgt]
  by_cases hlt : lhs.exponent < rhs.exponent
  · rw [if_pos hlt, min_eq_left hlt.le]
    rcases hscale : scaleOperands rhs.coefficient lhs.coefficient
      (rhs.exponent - lhs.exponent).toNat with ⟨scaled, cut, overflow⟩
    obtain ⟨hmem, rest, hcut⟩ := cutBeside_of_scaleOperands hlt hscale
    exact ⟨hmem, rest, .inr hcut⟩
  · have heq : lhs.exponent = rhs.exponent := by omega
    rw [if_neg hlt, heq, min_self]
    refine ⟨rhs.valid.exponent_mem, 0, .inl ⟨?_, (add_zero _).symm, le_rfl, ten_zpow_pos _,
      lhs.coefficient_lt.trans (by decide), rhs.coefficient_lt, ⟨heq.ge, le_rfl⟩,
      .inl ⟨rfl, rfl⟩⟩⟩
    rw [magnitude, heq]

lemma magnitude_nonneg (d : Decimal) : 0 ≤ d.magnitude :=
  mul_nonneg (Nat.cast_nonneg _) (ten_zpow_pos _).le

variable {keptCoefficient cutCoefficient : UInt64}

section

variable {kept cut : Decimal} {rest : ℚ} {e : ℤ}
  (h : CutBeside kept cut keptCoefficient cutCoefficient e rest)

include h

end

lemma toInt_toInt64 (x : UInt64) :
    x.toInt64.toInt = if x.toNat < 2 ^ 63 then (x.toNat : ℤ) else x.toNat - 2 ^ 64 := by
  rw [← Int64.toInt_toBitVec, UInt64.toBitVec_toInt64, BitVec.toInt_eq_toNat_cond,
    UInt64.toNat_toBitVec]
  split_ifs <;> omega

/-- The sign and the coefficient that the code takes from the two's complement. -/
lemma exists_ofResult_eq (sign : Sign) (e : ℤ) (result : UInt64) :
    ∃ sign' c, ofResult sign e result = ofParts sign' e c ∧
      c.toNat = result.toInt64.toInt.natAbs ∧
      sign'.toRat * c.toNat = sign.toRat * result.toInt64.toInt := by
  have hlt := result.toNat_lt
  have hint := toInt_toInt64 result
  rw [ofResult]
  split_ifs with hsign
  · rw [Int64.le_iff_toInt_le, Int64.toInt_zero] at hsign
    have hnat : result.toInt64.toInt = result.toNat := by
      split_ifs at hint <;> omega
    exact ⟨sign, result, rfl, by rw [hnat, Int.natAbs_natCast], by simp [hnat]⟩
  · rw [Int64.le_iff_toInt_le, Int64.toInt_zero] at hsign
    have hneg : ((-result.toInt64).toUInt64.toNat : ℤ) = -result.toInt64.toInt := by
      rw [Int64.toUInt64_neg, UInt64.toUInt64_toInt64, UInt64.toNat_neg]
      simp only [UInt64.size]
      split_ifs at hint <;> omega
    refine ⟨_, _, rfl, by omega, ?_⟩
    have hneg : ((-result.toInt64).toUInt64.toNat : ℚ) = -result.toInt64.toInt := by
      exact_mod_cast hneg
    rw [hneg, Sign.toRat_invertSign, neg_mul_neg]

/-- The sum and the difference of aligned coefficients do not wrap around. -/
lemma toInt_add_sub {x y : UInt64} (hx : x.toNat < 10 ^ 18) (hy : y.toNat < 10 ^ 18) :
    (x + y).toInt64.toInt = x.toNat + y.toNat ∧ (x - y).toInt64.toInt = x.toNat - y.toNat := by
  rw [toInt_toInt64, toInt_toInt64, UInt64.toNat_add, UInt64.toNat_sub]
  constructor <;> split_ifs <;> omega

/-- The sum of the aligned coefficients, without its sign, where the right operand has this sign. -/
def alignedSum (lhs rhs : Decimal) (rhsSign : Sign) : ℕ :=
  let aligned := Decimal.alignOperands lhs rhs
  if lhs.sign = rhsSign then aligned.lhsCoefficient.toNat + aligned.rhsCoefficient.toNat
  else ((aligned.lhsCoefficient.toNat : ℤ) - aligned.rhsCoefficient.toNat).natAbs

lemma Sign.toRat_of_ne {sign sign' : Sign} (h : sign ≠ sign') : sign'.toRat = -sign.toRat := by
  cases sign <;> cases sign' <;> simp_all [Sign.toRat]

variable {lhs rhs : Decimal}

/-- The sign and the coefficient of the sum are computed from the aligned coefficients, where the
right operand has this sign. -/
def IsSum (lhs rhs : Decimal) (rhsSign : Sign) (sum : Decimal) : Prop :=
  ∃ sign c, sum = ofParts sign (alignOperands lhs rhs).exponent c ∧
    c.toNat = alignedSum lhs rhs rhsSign ∧
    sign.toRat * c.toNat = lhs.sign.toRat * (alignOperands lhs rhs).lhsCoefficient.toNat +
      rhsSign.toRat * (alignOperands lhs rhs).rhsCoefficient.toNat

variable {rhsSign : Sign}

lemma isSum_of_eq {result : UInt64} {isPositiveZero : Prop}
    [Decidable isPositiveZero] (hzero : isPositiveZero → result = 0)
    (hres : result = if lhs.sign = rhsSign
      then (alignOperands lhs rhs).lhsCoefficient + (alignOperands lhs rhs).rhsCoefficient
      else (alignOperands lhs rhs).lhsCoefficient - (alignOperands lhs rhs).rhsCoefficient) :
    IsSum lhs rhs rhsSign (if isPositiveZero
      then ofParts .positive (alignOperands lhs rhs).exponent 0
      else ofResult lhs.sign (alignOperands lhs rhs).exponent result) := by
  obtain ⟨-, rest, hcut⟩ := alignOperands_spec (rfl : alignOperands lhs rhs = _)
  have hlt : (alignOperands lhs rhs).lhsCoefficient.toNat < 10 ^ 18 ∧
      (alignOperands lhs rhs).rhsCoefficient.toNat < 10 ^ 18 := by
    rcases hcut with hcut | hcut
    · exact ⟨hcut.kept_lt, hcut.cut_lt.trans (by decide)⟩
    · exact ⟨hcut.cut_lt.trans (by decide), hcut.kept_lt⟩
  obtain ⟨hadd, hsub⟩ := toInt_add_sub hlt.1 hlt.2
  have hsigned : lhs.sign.toRat * result.toInt64.toInt =
      lhs.sign.toRat * (alignOperands lhs rhs).lhsCoefficient.toNat +
        rhsSign.toRat * (alignOperands lhs rhs).rhsCoefficient.toNat := by
    rw [hres]
    split_ifs with hsign
    · rw [hadd, ← hsign]
      push_cast
      ring
    · rw [hsub, Sign.toRat_of_ne hsign]
      push_cast
      ring
  have habs : result.toInt64.toInt.natAbs = alignedSum lhs rhs rhsSign := by
    rw [alignedSum, hres]
    split_ifs
    · rw [hadd, ← Nat.cast_add, Int.natAbs_natCast]
    · rw [hsub]
  rw [IsSum, ← hsigned, ← habs]
  split_ifs with hpos
  · refine ⟨_, _, rfl, ?_⟩
    rw [hzero hpos]
    simp
  · exact exists_ofResult_eq _ _ _

lemma toRat_sub_toRat : lhs.toRat - rhs.toRat =
    lhs.sign.toRat * lhs.magnitude + (invertSign rhs.sign).toRat * rhs.magnitude := by
  rw [Sign.toRat_invertSign, neg_mul, ← sub_eq_add_neg]
  rfl

section

variable (hlhs : lhs.isFinite = true) (hrhs : rhs.isFinite = true)

include hlhs hrhs

lemma handle_of_isFinite : handle lhs rhs = (.bothFinite, lhs) := by
  rw [handle, hlhs, hrhs]
  rfl

lemma isSum_sub : IsSum lhs rhs (invertSign rhs.sign) (lhs.sub rhs) := by
  rw [sub, handle_of_isFinite hlhs hrhs]
  refine isSum_of_eq (fun h => h.2.2) ?_
  cases lhs.sign <;> cases rhs.sign <;> rfl

end

end WebKit.Platform
