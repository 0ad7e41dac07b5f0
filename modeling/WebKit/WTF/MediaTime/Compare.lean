import WebKit.Core.Rounding
import WebKit.WTF.MediaTime.Basic

/-!
# The order of media times

`compare` orders the times that are neither negative nor infinite as the rationals they stand for.
Two negative times it orders by their values first and then by their scales, whatever the rationals
are, since each of its shortcuts is written for numerators that are not negative. The result is a
total preorder all the same.
-/

namespace WebKit.WTF.MediaTime

open ComparisonFlags Rounding Int64

def ComparisonFlags.ofOrdering : Ordering → ComparisonFlags
  | .lt => lessThan
  | .eq => equalTo
  | .gt => greaterThan

def ComparisonFlags.reverse : ComparisonFlags → ComparisonFlags
  | lessThan => greaterThan
  | equalTo => equalTo
  | greaterThan => lessThan

section

variable {α : Type*} [LinearOrder α] {x y : α}

lemma ofOrdering_cmp (x y : α) : ofOrdering (cmp x y) =
    if x < y then lessThan else if x = y then equalTo else greaterThan := by
  rcases lt_trichotomy x y with h | rfl | h
  · rw [if_pos h, cmp_eq_lt_iff x y |>.2 h, ofOrdering]
  · simp [ofOrdering]
  · rw [if_neg h.not_gt, if_neg h.ne', cmp_eq_gt_iff x y |>.2 h, ofOrdering]

lemma reverse_ofOrdering (o : Ordering) : (ofOrdering o).reverse = ofOrdering o.swap := by
  cases o <;> rfl

lemma ofOrdering_cmp_of_lt (h : x < y) : ofOrdering (cmp x y) = lessThan := by
  rw [ofOrdering_cmp, if_pos h]

lemma ofOrdering_cmp_of_gt (h : y < x) : ofOrdering (cmp x y) = greaterThan := by
  rw [ofOrdering_cmp, if_neg h.not_gt, if_neg h.ne']

lemma ofOrdering_ne_greaterThan : ofOrdering (cmp x y) ≠ greaterThan ↔ x ≤ y := by
  rw [ofOrdering_cmp]
  split_ifs with hlt heq
  · simp [hlt.le]
  · simp [heq]
  · simp [lt_of_le_of_ne (not_lt.1 hlt) (Ne.symm heq)]

end

/-! ### The order of the finite times -/

/-- What decides between two finite times: for a negative one the value and then the scale, for
another one the rational. -/
def rank (t : MediaTime) : ℚ ×ₗ ℤ :=
  if t.timeValue.toInt < 0 then toLex ((t.timeValue.toInt : ℚ), -(t.timeScale.toNat : ℤ))
  else toLex (t.toRat, 0)

@[simp] lemma toInt_scaleValue (s : UInt32) : (scaleValue s).toInt = s.toNat := by
  have hlt := s.toNat_lt
  change s.toUInt64.toBitVec.toInt = s.toNat
  rw [BitVec.toInt_eq_toNat_of_lt]
  · simp
  · simp
    omega

variable {a b : MediaTime}

lemma HasScale.pos (h : a.HasScale) : 0 < a.timeScale.toNat := UInt32.le_iff_toNat_le.1 h.1

lemma HasScale.lt (h : a.HasScale) : a.timeScale.toNat < 2 ^ 31 :=
  Nat.lt_succ_of_le (UInt32.le_iff_toNat_le.1 h.2)

section

variable {v v' : ℤ} {s s' : ℕ}

lemma fitsInt64_tmod_mul (hs : 0 < s) (hlt : s < 2 ^ 31) (hlt' : s' < 2 ^ 31) (v : ℤ) :
    FitsInt64 (v.tmod s * s') := by
  have habs := abs_tmod_lt hs v
  have hle : |v.tmod s * s'| ≤ 2 ^ 31 * 2 ^ 31 := by
    rw [abs_mul]
    exact mul_le_mul (by omega) (by exact_mod_cast hlt'.le) (by positivity) (by positivity)
  rw [abs_le] at hle
  exact ⟨by omega, by omega⟩

/-- Of two values of the same sign the one with the smaller integral part is the smaller one. -/
lemma cross_lt_of_tdiv_lt (hs : 0 < s) (hs' : 0 < s') (hsigns : v < 0 ↔ v' < 0)
    (h : v.tdiv s < v'.tdiv s') : v * s' < v' * s := by
  have hv := Int.mul_tdiv_add_tmod v s
  have hv' := Int.mul_tdiv_add_tmod v' s'
  obtain ⟨hr, hr₀⟩ := tmod_bounds hs v
  obtain ⟨hr', hr₀'⟩ := tmod_bounds hs' v'
  have hdiff : v.tmod s * s' - v'.tmod s' * s < s * s' := by
    rcases lt_or_ge v 0 with hneg | hpos
    · have h₁ := hr₀ hneg.le
      have h₂ := hr₀' (hsigns.1 hneg).le
      nlinarith
    · have h₁ := hr hpos
      have h₂ := hr' (not_lt.1 fun hlt => absurd (hsigns.2 hlt) (not_lt.2 hpos))
      nlinarith
  have hstep : s * s' * v.tdiv s + s * s' ≤ s * s' * v'.tdiv s' := by
    have hss : 0 ≤ s * s' := by positivity
    nlinarith
  calc v * s' = s * s' * v.tdiv s + v.tmod s * s' := by
        linear_combination -s' * hv
    _ < s * s' * v'.tdiv s' + v'.tmod s' * s := by linarith
    _ = v' * s := by
        linear_combination s * hv'

lemma cross_sub_of_tdiv_eq (h : v.tdiv s = v'.tdiv s') :
    v * s' - v' * s = v.tmod s * s' - v'.tmod s' * s := by
  have hv := Int.mul_tdiv_add_tmod v s
  have hv' := Int.mul_tdiv_add_tmod v' s'
  rw [← h] at hv'
  linear_combination s * hv' - s' * hv

/-- The smaller of two negative values with the smaller scale is the smaller time. -/
lemma cross_lt_of_neg (hs : 0 < s) (s' : ℕ) (v v' : ℤ) (hle : s ≤ s') (hle' : v ≤ v')
    (hneg : v' < 0) (hlt : s < s' ∨ v < v') : v * s' < v' * s := by
  rcases hlt with hlt | hlt
  · calc v * s' < v * s := mul_lt_mul_of_neg_left (by exact_mod_cast hlt) (hle'.trans_lt hneg)
      _ ≤ v' * s := mul_le_mul_of_nonneg_right hle' (by positivity)
  · calc v * s' < v' * s' := mul_lt_mul_of_pos_right hlt (by exact_mod_cast hs.trans_le hle)
      _ ≤ v' * s := mul_le_mul_of_nonpos_left (by exact_mod_cast hle) hneg.le

end

/-- The remainder at another time scale. -/
lemma toInt_partialRemainder (ha : a.HasScale) {c : UInt32} (hc : c.toNat < 2 ^ 31) :
    (a.timeValue % scaleValue a.timeScale * scaleValue c).toInt =
      a.timeValue.toInt.tmod a.timeScale.toNat * c.toNat := by
  have hmod : (a.timeValue % scaleValue a.timeScale).toInt =
      a.timeValue.toInt.tmod a.timeScale.toNat := by
    simp
  rw [FitsInt64.toInt_mul, hmod, toInt_scaleValue]
  rw [hmod, toInt_scaleValue]
  exact fitsInt64_tmod_mul ha.pos ha.lt hc _

lemma toRat_nonneg (ht : 0 ≤ a.timeValue.toInt) : 0 ≤ a.toRat :=
  div_nonneg (by exact_mod_cast ht) (by positivity)

lemma rank_of_neg (ht : a.timeValue.toInt < 0) :
    a.rank = toLex ((a.timeValue.toInt : ℚ), -(a.timeScale.toNat : ℤ)) := by
  rw [rank, if_pos ht]

lemma rank_of_nonneg (ht : 0 ≤ a.timeValue.toInt) : a.rank = toLex (a.toRat, 0) := by
  rw [rank, if_neg (not_lt.2 ht)]

lemma rank_lt_of_neg (hva : a.timeValue.toInt < 0) (hvb : 0 ≤ b.timeValue.toInt) :
    a.rank < b.rank := by
  have hlt : a.timeValue.toInt < b.toRat :=
    lt_of_lt_of_le (by exact_mod_cast hva) (toRat_nonneg hvb)
  rw [rank_of_neg hva, rank_of_nonneg hvb, Prod.Lex.toLex_lt_toLex]
  exact Or.inl hlt

section

variable (ha : a.HasScale) (hb : b.HasScale)

include ha hb

lemma toRat_lt_iff : a.toRat < b.toRat ↔
    a.timeValue.toInt * b.timeScale.toNat < b.timeValue.toInt * a.timeScale.toNat := by
  rw [toRat, toRat, div_lt_div_iff₀ (by exact_mod_cast ha.pos) (by exact_mod_cast hb.pos)]
  exact_mod_cast Iff.rfl

lemma toRat_eq_iff : a.toRat = b.toRat ↔
    a.timeValue.toInt * b.timeScale.toNat = b.timeValue.toInt * a.timeScale.toNat := by
  rw [toRat, toRat, div_eq_div_iff (by exact_mod_cast ha.pos.ne') (by exact_mod_cast hb.pos.ne')]
  exact_mod_cast Iff.rfl

section

variable (hsigns : a.timeValue.toInt < 0 ↔ b.timeValue.toInt < 0)

include hsigns

/-- Integral parts and remainders decide as the cross products do. -/
lemma compareWholes_eq :
    compareWholes a b = ofOrdering (cmp (a.timeValue.toInt * b.timeScale.toNat)
      (b.timeValue.toInt * a.timeScale.toNat)) := by
  have hpa : 0 < (scaleValue a.timeScale).toInt := by simpa using ha.pos
  have hpb : 0 < (scaleValue b.timeScale).toInt := by simpa using hb.pos
  rw [ofOrdering_cmp, compareWholes]
  simp only [lt_iff_toInt_lt, ← toInt_inj, toInt_partialRemainder ha hb.lt,
    toInt_partialRemainder hb ha.lt, toInt_div_of_pos _ hpa, toInt_div_of_pos _ hpb,
    toInt_scaleValue]
  rcases lt_trichotomy (a.timeValue.toInt.tdiv a.timeScale.toNat)
    (b.timeValue.toInt.tdiv b.timeScale.toNat) with h | h | h
  · rw [if_neg h.not_gt, if_pos h, if_pos (cross_lt_of_tdiv_lt ha.pos hb.pos hsigns h)]
  · have hsub := cross_sub_of_tdiv_eq h
    split_ifs <;> first | rfl | omega
  · have hlt := cross_lt_of_tdiv_lt hb.pos ha.pos hsigns.symm h
    rw [if_pos h, if_neg hlt.not_gt, if_neg hlt.ne']

lemma compareProducts_eq :
    compareProducts a b = ofOrdering (cmp (a.timeValue.toInt * b.timeScale.toNat)
      (b.timeValue.toInt * a.timeScale.toNat)) := by
  rw [compareProducts, safeMultiply_eq, safeMultiply_eq]
  by_cases hfits : FitsInt64 (a.timeValue.toInt * (scaleValue b.timeScale).toInt) ∧
      FitsInt64 (b.timeValue.toInt * (scaleValue a.timeScale).toInt)
  · rw [if_pos hfits.1, if_pos hfits.2, ofOrdering_cmp]
    simp only [← toInt_inj, lt_iff_toInt_lt, hfits.1.toInt_mul, hfits.2.toInt_mul, toInt_scaleValue]
    split_ifs <;> first | rfl | omega
  · rw [← compareWholes_eq ha hb hsigns]
    split
    next h₁ h₂ =>
      rw [Option.ite_none_right_eq_some] at h₁ h₂
      exact absurd ⟨h₁.1, h₂.1⟩ hfits
    next => rfl

/-- The comparison of the values of two times that agree in sign, as conditions on integers. -/
lemma compareValues_eq :
    compareValues a b =
      if a.timeValue.toInt = 0 ∧ b.timeValue.toInt = 0 then equalTo
      else if a.timeScale.toNat = b.timeScale.toNat then
        ofOrdering (cmp a.timeValue.toInt b.timeValue.toInt)
      else if a.timeValue.toInt = b.timeValue.toInt then
        if a.timeScale.toNat < b.timeScale.toNat then greaterThan else lessThan
      else if a.timeValue.toInt < b.timeValue.toInt ∧ b.timeScale.toNat < a.timeScale.toNat then
        lessThan
      else if b.timeValue.toInt < a.timeValue.toInt ∧ a.timeScale.toNat < b.timeScale.toNat then
        greaterThan
      else ofOrdering (cmp (a.timeValue.toInt * b.timeScale.toNat)
        (b.timeValue.toInt * a.timeScale.toNat)) := by
  rw [← compareProducts_eq ha hb hsigns, ofOrdering_cmp, compareValues]
  simp only [lt_iff_toInt_lt, UInt32.lt_iff_toNat_lt, ← toInt_inj, ← UInt32.toNat_inj,
    toInt_zero, ne_eq, hsigns, not_true_eq_false, if_false]
  split_ifs <;> first | rfl | omega

end

/-- On values that are not negative every shortcut agrees with the cross products. -/
lemma compareValues_of_nonneg (hva : 0 ≤ a.timeValue.toInt) (hvb : 0 ≤ b.timeValue.toInt) :
    compareValues a b = ofOrdering (cmp (a.timeValue.toInt * b.timeScale.toNat)
      (b.timeValue.toInt * a.timeScale.toNat)) := by
  rw [compareValues_eq ha hb (by omega)]
  have hpa := ha.pos
  have hpb := hb.pos
  generalize a.timeValue.toInt = v at *
  generalize b.timeValue.toInt = v' at *
  generalize a.timeScale.toNat = s at *
  generalize b.timeScale.toNat = s' at *
  split_ifs with hzero hscale hval hscales hlt hgt
  · simp [hzero.1, hzero.2, ofOrdering]
  · rw [hscale, cmp_mul_pos_right (by exact_mod_cast hpb)]
  · rw [ofOrdering_cmp_of_gt]
    rw [hval]
    exact mul_lt_mul_of_pos_left (by exact_mod_cast hscales) (by omega)
  · rw [ofOrdering_cmp_of_lt]
    rw [hval]
    exact mul_lt_mul_of_pos_left (by omega) (by omega)
  · rw [ofOrdering_cmp_of_lt]
    have hle : v * s' ≤ v * s := mul_le_mul_of_nonneg_left (by omega) hva
    exact hle.trans_lt (mul_lt_mul_of_pos_right hlt.1 (by exact_mod_cast hpa))
  · rw [ofOrdering_cmp_of_gt]
    have hle : v' * s ≤ v' * s' := mul_le_mul_of_nonneg_left (by omega) hvb
    exact hle.trans_lt (mul_lt_mul_of_pos_right hgt.1 (by exact_mod_cast hpb))
  · rfl

/-- Of two negative values the smaller one is always taken as the smaller time. -/
lemma compareValues_of_neg (hva : a.timeValue.toInt < 0) (hvb : b.timeValue.toInt < 0) :
    compareValues a b = ofOrdering (cmp (toLex (a.timeValue.toInt, -(a.timeScale.toNat : ℤ)))
      (toLex (b.timeValue.toInt, -(b.timeScale.toNat : ℤ)))) := by
  rw [compareValues_eq ha hb (by omega), ofOrdering_cmp (toLex _)]
  simp only [Prod.Lex.toLex_lt_toLex, toLex_inj, Prod.mk.injEq]
  -- where no shortcut is taken the smaller value has no larger scale
  have hcross := cross_lt_of_neg ha.pos b.timeScale.toNat a.timeValue.toInt b.timeValue.toInt
  have hcross' := cross_lt_of_neg hb.pos a.timeScale.toNat b.timeValue.toInt a.timeValue.toInt
  rw [ofOrdering_cmp, ofOrdering_cmp]
  split_ifs <;> first | rfl | omega

/-- The values of two times are compared as their ranks. -/
lemma compareValues_eq_rank : compareValues a b = ofOrdering (cmp a.rank b.rank) := by
  rcases lt_or_ge a.timeValue.toInt 0 with hva | hva <;>
    rcases lt_or_ge b.timeValue.toInt 0 with hvb | hvb
  · rw [compareValues_of_neg ha hb hva hvb, rank_of_neg hva, rank_of_neg hvb, ofOrdering_cmp,
      ofOrdering_cmp]
    simp [Prod.Lex.toLex_lt_toLex]
  · rw [ofOrdering_cmp_of_lt (rank_lt_of_neg hva hvb)]
    simp [compareValues, lt_iff_toInt_lt, hva, hvb.not_gt]
  · rw [ofOrdering_cmp_of_gt (rank_lt_of_neg hvb hva)]
    simp [compareValues, lt_iff_toInt_lt, hvb, hva.not_gt]
  · rw [compareValues_of_nonneg ha hb hva hvb, rank_of_nonneg hva, rank_of_nonneg hvb,
      ofOrdering_cmp, ofOrdering_cmp]
    simp only [Prod.Lex.toLex_lt_toLex, toLex_inj, Prod.mk.injEq, toRat_lt_iff ha hb,
      toRat_eq_iff ha hb, lt_irrefl, and_false, or_false, and_true]

end

/-! ### The order of all proper times -/

/-- A finite time with a scale, or an infinite time. -/
def IsProper (t : MediaTime) : Prop :=
  (t.IsFinite ∧ t.HasScale) ∨ t.IsPositiveInfinity ∨ t.IsNegativeInfinity

instance (t : MediaTime) : Decidable t.IsProper := inferInstanceAs (Decidable (_ ∨ _))

lemma IsProper.hasScale (h : a.IsProper) (hfin : a.IsFinite) : a.HasScale := by
  rcases h with h | h | h
  · exact h.2
  · exact absurd h.2.1 hfin.2.1
  · exact absurd h.2.1 hfin.2.2.1

/-- The rank with the infinite times at the ends. -/
def extendedRank (t : MediaTime) : WithBot (WithTop (ℚ ×ₗ ℤ)) :=
  if t.isNegativeInfinite then ⊥
  else if t.isPositiveInfinite then ⊤
  else WithBot.some (WithTop.some t.rank)

lemma compare_of_isFinite (ha : a.IsFinite) (hb : b.IsFinite) :
    a.compare b = compareValues a b := by
  simp only [IsFinite, isValid, isPositiveInfinite, isNegativeInfinite, isIndefinite,
    hasDoubleValue] at ha hb
  simp [compare, TimeFlags.and, TimeFlags.or, ha, hb]

lemma extendedRank_of_isFinite (ha : a.IsFinite) :
    a.extendedRank = WithBot.some (WithTop.some a.rank) := by
  rw [extendedRank, if_neg ha.2.2.1, if_neg ha.2.1]

lemma compare_eq_rank (ha : a.IsProper) (hb : b.IsProper) :
    a.compare b = ofOrdering (cmp a.extendedRank b.extendedRank) := by
  rw [ofOrdering_cmp]
  rcases ha with ⟨ha, hsa⟩ | ha | ha <;> rcases hb with ⟨hb, hsb⟩ | hb | hb
  · rw [compare_of_isFinite ha hb, extendedRank_of_isFinite ha, extendedRank_of_isFinite hb,
      compareValues_eq_rank hsa hsb, ofOrdering_cmp]
    simp
  all_goals
    simp only [IsFinite, IsPositiveInfinity, IsNegativeInfinity, isValid, isPositiveInfinite,
      isNegativeInfinite, isIndefinite] at ha hb
    simp [compare, TimeFlags.and, TimeFlags.or, extendedRank, isNegativeInfinite,
      isPositiveInfinite, ha, hb]

lemma compare_of_isNegativeInfinity (hb : b.IsProper) (ha : a.IsNegativeInfinity) :
    a.compare b = if b.IsNegativeInfinity then equalTo else lessThan := by
  rcases hb with ⟨hb, -⟩ | hb | hb
  all_goals
    simp only [IsFinite, IsPositiveInfinity, IsNegativeInfinity, isValid, isPositiveInfinite,
      isNegativeInfinite, isIndefinite] at ha hb
    simp [compare, TimeFlags.and, TimeFlags.or, IsNegativeInfinity, isValid, isPositiveInfinite,
      isNegativeInfinite, isIndefinite, ha, hb]

lemma compare_of_isPositiveInfinity (hb : b.IsProper) (ha : a.IsPositiveInfinity) :
    a.compare b = if b.IsPositiveInfinity then equalTo else greaterThan := by
  rcases hb with ⟨hb, -⟩ | hb | hb
  all_goals
    simp only [IsFinite, IsPositiveInfinity, IsNegativeInfinity, isValid, isPositiveInfinite,
      isNegativeInfinite, isIndefinite] at ha hb
    simp [compare, TimeFlags.and, TimeFlags.or, IsPositiveInfinity, isValid, isPositiveInfinite,
      isNegativeInfinite, isIndefinite, ha, hb]

/-- The result of `compare` says how the rationals are ordered. -/
def OrderedAsRationals (a b : MediaTime) : Prop :=
  (a.compare b = lessThan ↔ a.toRat < b.toRat) ∧ (a.compare b = equalTo ↔ a.toRat = b.toRat) ∧
    (a.compare b = greaterThan ↔ b.toRat < a.toRat)

/-- Two negative times of which one has no larger value and a larger scale, but is not the smaller
one. -/
def Misordered (a b : MediaTime) : Prop :=
  a.timeValue < 0 ∧ b.timeValue < 0 ∧
    ((a.timeValue ≤ b.timeValue ∧ b.timeScale < a.timeScale ∧ b.toRat ≤ a.toRat) ∨
      (b.timeValue ≤ a.timeValue ∧ a.timeScale < b.timeScale ∧ a.toRat ≤ b.toRat))

lemma orderedAsRationals_iff : OrderedAsRationals a b ↔
    a.compare b = ofOrdering (cmp a.toRat b.toRat) := by
  rw [OrderedAsRationals, ofOrdering_cmp]
  rcases lt_trichotomy a.toRat b.toRat with h | h | h
  · rw [if_pos h]
    constructor
    · rintro ⟨hless, -, -⟩
      exact hless.2 h
    · intro heq
      simp [heq, h, h.ne, h.le]
  · rw [if_neg h.not_lt, if_pos h]
    constructor
    · rintro ⟨-, hequal, -⟩
      exact hequal.2 h
    · intro heq
      simp [heq, h]
  · rw [if_neg h.not_gt, if_neg h.ne']
    constructor
    · rintro ⟨-, -, hgreater⟩
      exact hgreater.2 h
    · intro heq
      simp [heq, h, h.ne', h.le]

/-- The rationals decide unless both times are negative. -/
lemma compareValues_eq_toRat (ha : a.HasScale) (hb : b.HasScale)
    (hneg : ¬(a.timeValue.toInt < 0 ∧ b.timeValue.toInt < 0)) :
    compareValues a b = ofOrdering (cmp a.toRat b.toRat) := by
  have hrat : ∀ {t : MediaTime}, t.HasScale → t.timeValue.toInt < 0 → t.toRat < 0 :=
    fun ht hv => div_neg_of_neg_of_pos (by exact_mod_cast hv) (by exact_mod_cast ht.pos)
  rw [compareValues_eq_rank ha hb]
  rcases lt_or_ge a.timeValue.toInt 0 with hva | hva <;>
    rcases lt_or_ge b.timeValue.toInt 0 with hvb | hvb
  · exact absurd ⟨hva, hvb⟩ hneg
  · rw [ofOrdering_cmp_of_lt (rank_lt_of_neg hva hvb),
      ofOrdering_cmp_of_lt ((hrat ha hva).trans_le (toRat_nonneg hvb))]
  · rw [ofOrdering_cmp_of_gt (rank_lt_of_neg hvb hva),
      ofOrdering_cmp_of_gt ((hrat hb hvb).trans_le (toRat_nonneg hva))]
  · rw [rank_of_nonneg hva, rank_of_nonneg hvb, ofOrdering_cmp, ofOrdering_cmp]
    simp [Prod.Lex.toLex_lt_toLex]

/-- For two negative times the order of value and scale is the order of the rationals unless they
are misordered. -/
lemma compareValues_of_neg_iff (ha : a.HasScale) (hb : b.HasScale) (hva : a.timeValue.toInt < 0)
    (hvb : b.timeValue.toInt < 0) :
    compareValues a b = ofOrdering (cmp a.toRat b.toRat) ↔ ¬Misordered a b := by
  rw [compareValues_of_neg ha hb hva hvb, ofOrdering_cmp, ofOrdering_cmp]
  simp only [Misordered, le_iff_toInt_le, ← not_lt, Prod.Lex.toLex_lt_toLex, toLex_inj,
    Prod.mk.injEq, lt_iff_toInt_lt, UInt32.lt_iff_toNat_lt, toInt_zero, toRat_lt_iff ha hb,
    toRat_lt_iff hb ha, toRat_eq_iff ha hb]
  have hcross := cross_lt_of_neg ha.pos b.timeScale.toNat a.timeValue.toInt b.timeValue.toInt
  have hcross' := cross_lt_of_neg hb.pos a.timeScale.toNat b.timeValue.toInt a.timeValue.toInt
  have hboth : a.timeValue.toInt = b.timeValue.toInt → a.timeScale.toNat = b.timeScale.toNat →
      a.timeValue.toInt * b.timeScale.toNat = b.timeValue.toInt * a.timeScale.toNat := by
    intro hval hscale
    rw [hval, hscale]
  split_ifs <;> simp only [true_iff, false_iff] <;> omega

theorem compare_order {c : MediaTime} (ha : a.IsProper) (hb : b.IsProper) (hc : c.IsProper) :
    (a.IsFinite → b.IsFinite → (OrderedAsRationals a b ↔ ¬Misordered a b)) ∧
    a.compare a = equalTo ∧ b.compare a = (a.compare b).reverse ∧
    (a.compare b ≠ greaterThan → b.compare c ≠ greaterThan → a.compare c ≠ greaterThan) ∧
    (a.IsNegativeInfinity → a.compare b = if b.IsNegativeInfinity then equalTo else lessThan) ∧
    (a.IsPositiveInfinity →
      a.compare b = if b.IsPositiveInfinity then equalTo else greaterThan) := by
  refine ⟨fun hfa hfb => ?_, ?_, ?_, ?_, compare_of_isNegativeInfinity hb,
    compare_of_isPositiveInfinity hb⟩
  · have hsa := ha.hasScale hfa
    have hsb := hb.hasScale hfb
    rw [orderedAsRationals_iff, compare_of_isFinite hfa hfb]
    by_cases hneg : a.timeValue.toInt < 0 ∧ b.timeValue.toInt < 0
    · exact compareValues_of_neg_iff hsa hsb hneg.1 hneg.2
    · refine iff_of_true ?_ fun h => hneg ⟨lt_iff_toInt_lt.1 h.1, lt_iff_toInt_lt.1 h.2.1⟩
      exact compareValues_eq_toRat hsa hsb hneg
  · rw [compare_eq_rank ha ha, cmp_self_eq_eq]
    rfl
  · rw [compare_eq_rank hb ha, compare_eq_rank ha hb, reverse_ofOrdering, cmp_swap]
  · rw [compare_eq_rank ha hb, compare_eq_rank hb hc, compare_eq_rank ha hc]
    simp only [ofOrdering_ne_greaterThan]
    exact le_trans

/-- A finite time with the given value and scale. -/
def ofFraction (value : Int64) (timeScale : UInt32) : MediaTime :=
  ⟨value, timeScale, .onlyValid⟩

theorem compare_order_thirds :
    (ofFraction (-1) 3).IsProper ∧ (ofFraction 2 3).IsProper ∧ positiveInfiniteTime.IsProper ∧
      (OrderedAsRationals (ofFraction (-1) 3) (ofFraction 2 3) ↔
        ¬Misordered (ofFraction (-1) 3) (ofFraction 2 3)) :=
  have ha : (ofFraction (-1) 3).IsProper := by decide
  have hb : (ofFraction 2 3).IsProper := by decide
  have hc : positiveInfiniteTime.IsProper := by decide
  ⟨ha, hb, hc, (compare_order ha hb hc).1 (by decide) (by decide)⟩

/-- Minus one is taken to be greater than minus one half, and `-4/4` less than `-3/1`. -/
theorem compare_negatives :
    (ofFraction (-1) 1).compare (ofFraction (-1) 2) = greaterThan ∧
      (ofFraction (-1) 1).toRat < (ofFraction (-1) 2).toRat ∧
      (ofFraction (-4) 4).compare (ofFraction (-3) 1) = lessThan ∧
      (ofFraction (-3) 1).toRat < (ofFraction (-4) 4).toRat := by
  refine ⟨by decide, ?_, by decide, ?_⟩
  · rw [toRat_lt_iff (by decide) (by decide)]
    decide
  · rw [toRat_lt_iff (by decide) (by decide)]
    decide

end WebKit.WTF.MediaTime
