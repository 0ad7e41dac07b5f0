import WebKit.B3.Value

/-!
# `IntRange` in `B3ReduceStrength`

An `IntRange` holds the values an integer expression may have. Each operation on ranges is related
here to the operation on values: the right shifts and the checked arithmetic are sound for every
range, a mask unless it is negative and not all ones, and a left shift unless the range overflows
at one end.
-/

namespace WebKit.B3

open BitVec hiding and_assoc not_and not_or
/-! ### `IntRange` -/

structure IntRange where
  min : ℤ
  max : ℤ
  deriving DecidableEq

namespace IntRange

variable {t : IntType}

def Mem (r : IntRange) (x : ℤ) : Prop := r.min ≤ x ∧ x ≤ r.max

instance (r : IntRange) (x : ℤ) : Decidable (r.Mem x) := inferInstanceAs (Decidable (_ ∧ _))

def top (t : IntType) : IntRange := ⟨-2 ^ (t.bits - 1), 2 ^ (t.bits - 1) - 1⟩

/-- The signed `mask + 1` is taken to wrap around at the greatest mask. -/
def rangeForMask (mask : BitVec t.bits) : IntRange :=
  if mask + 1 = 0 then top t else ⟨0, mask.toInt⟩

def rangeForZShr (t : IntType) (shiftAmount : ℕ) : IntRange :=
  rangeForMask (BitVec.allOnes t.bits >>> shiftAmount)

/-- `sumOverflows<T>`, `differenceOverflows<T>` and `productOverflows<T>`, for the operation `f`:
an operand or the result does not fit. -/
def overflows (t : IntType) (f : ℤ → ℤ → ℤ) (x y : ℤ) : Bool :=
  !(t.Fits x && t.Fits y && t.Fits (f x y))

/-- The shape of `couldOverflowAdd`, `couldOverflowSub` and `couldOverflowMul`. -/
def couldOverflow (f : ℤ → ℤ → ℤ) (t : IntType) (r other : IntRange) : Bool :=
  overflows t f r.min other.min || overflows t f r.min other.max
    || overflows t f r.max other.min || overflows t f r.max other.max

def couldOverflowAdd := couldOverflow (· + ·)

def couldOverflowSub := couldOverflow (· - ·)

def couldOverflowMul := couldOverflow (· * ·)

def shl (t : IntType) (r : IntRange) (shiftAmount : ℕ) : IntRange :=
  let min := BitVec.ofInt t.bits r.min
  let max := BitVec.ofInt t.bits r.max
  let newMin := min <<< shiftAmount
  let newMax := max <<< shiftAmount
  ⟨if newMin.sshiftRight shiftAmount ≠ min then (top t).min else newMin.toInt,
    if newMax.sshiftRight shiftAmount ≠ max then (top t).max else newMax.toInt⟩

def sShr (t : IntType) (r : IntRange) (shiftAmount : ℕ) : IntRange :=
  ⟨((BitVec.ofInt t.bits r.min).sshiftRight shiftAmount).toInt,
    ((BitVec.ofInt t.bits r.max).sshiftRight shiftAmount).toInt⟩

def zShr (t : IntType) (r : IntRange) (shiftAmount : ℕ) : IntRange :=
  if shiftAmount = 0 then r
  else if r.min < 0 then rangeForZShr t shiftAmount
  else ⟨(BitVec.ofInt t.bits r.min >>> shiftAmount).toNat,
    (BitVec.ofInt t.bits r.max >>> shiftAmount).toNat⟩

def add (t : IntType) (r other : IntRange) : IntRange :=
  if couldOverflowAdd t r other then top t else ⟨r.min + other.min, r.max + other.max⟩

def sub (t : IntType) (r other : IntRange) : IntRange :=
  if couldOverflowSub t r other then top t else ⟨r.min - other.max, r.max - other.min⟩

def mul (t : IntType) (r other : IntRange) : IntRange :=
  if couldOverflowMul t r other then top t
  else
    ⟨Min.min (Min.min (r.min * other.min) (r.min * other.max))
        (Min.min (r.max * other.min) (r.max * other.max)),
      Max.max (Max.max (r.min * other.min) (r.min * other.max))
        (Max.max (r.max * other.min) (r.max * other.max))⟩

/-! ### The transfer functions -/

lemma mem_top (x : BitVec t.bits) : (top t).Mem x.toInt :=
  ⟨(IntType.fits_toInt x).1, by have := (IntType.fits_toInt x).2; show _ ≤ _ - 1; omega⟩

/-- The ends of the range fit into the type. -/
def Within (t : IntType) (r : IntRange) : Prop := t.Fits r.min ∧ t.Fits r.max

lemma within_top (t : IntType) : (top t).Within t := by
  have hpos : (0 : ℤ) < 2 ^ (t.bits - 1) := by positivity
  refine ⟨⟨le_refl _, ?_⟩, ?_, ?_⟩
  all_goals
    simp only [top]
    omega

lemma within_mk_toInt (x y : BitVec t.bits) : (IntRange.mk x.toInt y.toInt).Within t :=
  ⟨IntType.fits_toInt x, IntType.fits_toInt y⟩

variable {x : BitVec t.bits}

lemma toNat_of_nonneg (h : 0 ≤ x.toInt) : 2 * x.toNat < 2 ^ t.bits ∧ x.toInt = x.toNat := by
  have hlt := x.isLt
  rw [toInt_eq_toNat_cond] at h ⊢
  split at h
  · exact ⟨by assumption, if_pos (by assumption)⟩
  · exfalso
    omega

lemma toInt_and_mem {mask : BitVec t.bits} (h : 0 ≤ mask.toInt) :
    (IntRange.mk 0 mask.toInt).Mem (x &&& mask).toInt := by
  obtain ⟨hmask, heq⟩ := toNat_of_nonneg h
  have hle : (x &&& mask).toNat ≤ mask.toNat := by
    exact Nat.and_le_right
  have hand : (x &&& mask).toInt = (x &&& mask).toNat := toInt_eq_toNat_of_lt (by omega)
  rw [heq, hand]
  exact ⟨Int.natCast_nonneg _, Int.ofNat_le.2 hle⟩

variable (mask : BitVec t.bits)

lemma add_one_eq_zero_iff : mask + 1 = 0 ↔ mask.toInt = -1 := by
  have hone : (BitVec.allOnes t.bits).toInt = -1 := by
    simp [if_pos t.bits_pos]
  have hneg : mask + 1 = 0 ↔ mask = BitVec.allOnes t.bits := by
    rw [← neg_one_eq_allOnes]
    exact add_eq_zero_iff_eq_neg
  rw [hneg, ← toInt_inj, hone]

/-- A mask is handled correctly unless it is negative and not all ones. -/
lemma rangeForMask_mem_iff :
    (∀ x, (rangeForMask mask).Mem (x &&& mask).toInt) ↔ -1 ≤ mask.toInt := by
  unfold rangeForMask
  constructor
  · intro h
    by_contra hlt
    have hmask : ¬ mask + 1 = 0 := by
      rw [add_one_eq_zero_iff]
      omega
    have hmem := (h mask).1
    rw [if_neg hmask, BitVec.and_self] at hmem
    exact absurd hmem (show ¬ 0 ≤ _ by omega)
  · intro h x
    split
    · apply mem_top
    · have hmask : mask.toInt ≠ -1 := by rwa [Ne, ← add_one_eq_zero_iff]
      exact toInt_and_mem (by omega)

lemma within_rangeForMask : (rangeForMask mask).Within t := by
  unfold rangeForMask
  split
  · apply within_top
  · have := within_mk_toInt 0 mask
    rwa [show (0 : BitVec t.bits).toInt = 0 from toInt_zero] at this

/-! #### Right shifts -/

variable {r : IntRange}

lemma sShr_mem (hr : r.Within t) (hx : r.Mem x.toInt)
    (s : ℕ) : (r.sShr t s).Mem (x.sshiftRight s).toInt := by
  have hpos : (0 : ℤ) < 2 ^ s := by positivity
  simp only [sShr, toInt_sshiftRight, hr.1.toInt_ofInt, hr.2.toInt_ofInt, Int.shiftRight_eq_div_pow]
  exact ⟨Int.ediv_le_ediv hpos hx.1, Int.ediv_le_ediv hpos hx.2⟩

variable {s : ℕ}

lemma toNat_ushiftRight_lt (hs : s ≠ 0) : 2 * (x >>> s).toNat < 2 ^ t.bits := by
  rw [toNat_ushiftRight]
  have hle : x.toNat / 2 ^ s ≤ x.toNat / 2 := Nat.div_le_div_left (Nat.le_self_pow hs 2) (by decide)
  omega

lemma toInt_ushiftRight (hs : s ≠ 0) : (x >>> s).toInt = (x >>> s).toNat :=
  toInt_eq_toNat_of_lt (toNat_ushiftRight_lt hs)

lemma ushiftRight_mono {x y : BitVec t.bits} (h : x.toNat ≤ y.toNat) (s : ℕ) :
    (x >>> s).toNat ≤ (y >>> s).toNat := by
  simp only [toNat_ushiftRight, Nat.shiftRight_eq_div_pow]
  exact Nat.div_le_div_right h

lemma rangeForZShr_mem (hs : s ≠ 0) : (rangeForZShr t s).Mem (x >>> s).toInt := by
  have hle : x.toNat ≤ (BitVec.allOnes t.bits).toNat := by
    exact Nat.le_sub_one_of_lt x.isLt
  have hmask : ¬ BitVec.allOnes t.bits >>> s + 1 = 0 := by
    rw [add_one_eq_zero_iff, toInt_ushiftRight hs]
    omega
  rw [rangeForZShr, rangeForMask, if_neg hmask, toInt_ushiftRight hs, toInt_ushiftRight hs]
  exact ⟨Int.natCast_nonneg _, Int.ofNat_le.2 (ushiftRight_mono hle s)⟩

lemma zShr_mem (hr : r.Within t) (hx : r.Mem x.toInt)
    (s : ℕ) : (r.zShr t s).Mem (x >>> s).toInt := by
  unfold zShr
  split_ifs with hs hneg
  · rwa [hs]
  · exact rangeForZShr_mem hs
  · have hmin := toNat_of_nonneg (by rw [hr.1.toInt_ofInt]; omega)
    have hmax := toNat_of_nonneg (by rw [hr.2.toInt_ofInt]; have := hx.1; have := hx.2; omega)
    have hval := toNat_of_nonneg (x := x) (by have := hx.1; omega)
    rw [hr.1.toInt_ofInt] at hmin
    rw [hr.2.toInt_ofInt] at hmax
    rw [toInt_ushiftRight hs]
    refine ⟨Int.ofNat_le.2 (ushiftRight_mono ?_ s), Int.ofNat_le.2 (ushiftRight_mono ?_ s)⟩
    · have := hx.1
      omega
    · have := hx.2
      omega

lemma within_zShr (hr : r.Within t) (s : ℕ) : (r.zShr t s).Within t := by
  unfold zShr
  split_ifs with hs hneg
  · exact hr
  · exact within_rangeForMask _
  · rw [← toInt_ushiftRight hs, ← toInt_ushiftRight hs]
    apply within_mk_toInt

/-! #### Left shifts -/

/-- The values that a left shift does not move out of the type. -/
def shiftable (t : IntType) (s : ℕ) : IntRange :=
  ⟨-2 ^ (t.bits - 1 - s), 2 ^ (t.bits - 1 - s) - 1⟩

/-- The range lies inside of the values that can be shifted, contains them all, or meets none of
them. -/
def ShlExact (t : IntType) (r : IntRange) (s : ℕ) : Prop :=
  ((shiftable t s).min ≤ r.min ∧ r.max ≤ (shiftable t s).max) ∨
    (r.min ≤ (shiftable t s).min ∧ (shiftable t s).max ≤ r.max) ∨
    (shiftable t s).max < r.min ∨ r.max < (shiftable t s).min

instance (r : IntRange) (s : ℕ) : Decidable (ShlExact t r s) :=
  inferInstanceAs (Decidable (_ ∨ _ ∨ _ ∨ _))

lemma toInt_shiftLeft (s : ℕ) : (x <<< s).toInt = (x.toInt * 2 ^ s).bmod (2 ^ t.bits) := by
  rw [BitVec.toInt_shiftLeft, BitVec.toInt_eq_toNat_bmod, Int.bmod_mul_bmod, Nat.shiftLeft_eq]
  rfl

section

variable {s : ℕ} (hs : s < t.bits)

include hs

lemma two_pow_split : (2 : ℤ) ^ (t.bits - 1) = 2 ^ (t.bits - 1 - s) * 2 ^ s := by
  rw [← pow_add]
  congr 1
  omega

lemma two_pow_bits : (2 : ℤ) ^ t.bits = 2 * 2 ^ (t.bits - 1 - s) * 2 ^ s := by
  rw [mul_assoc, ← two_pow_split hs, ← pow_succ', Nat.sub_add_cancel t.bits_pos]

lemma fits_mul_two_pow_iff (x : ℤ) : t.Fits (x * 2 ^ s) ↔ (shiftable t s).Mem x := by
  have hpos : (0 : ℤ) < 2 ^ s := by positivity
  simp only [IntType.Fits, Mem, shiftable, two_pow_split hs, ← neg_mul,
    mul_le_mul_iff_left₀ hpos, mul_lt_mul_iff_left₀ hpos, Int.le_sub_one_iff]

lemma toInt_shiftLeft_of_mem (h : (shiftable t s).Mem x.toInt) :
    (x <<< s).toInt = x.toInt * 2 ^ s := by
  rw [toInt_shiftLeft, ((fits_mul_two_pow_iff hs _).2 h).bmod_eq]

/-- A shifted value is a multiple of `2 ^ s`. -/
lemma exists_toInt_shiftLeft_eq : ∃ q, (x <<< s).toInt = q * 2 ^ s ∧ (shiftable t s).Mem q := by
  have hfits := IntType.fits_toInt (x <<< s)
  have heq : (x <<< s).toInt =
      (x.toInt - 2 * 2 ^ (t.bits - 1 - s) * (x.toInt * 2 ^ s).bdiv (2 ^ t.bits)) * 2 ^ s := by
    rw [toInt_shiftLeft, Int.bmod_eq_self_sub_mul_bdiv]
    push_cast
    rw [two_pow_bits hs]
    ring
  rw [heq, fits_mul_two_pow_iff hs] at hfits
  exact ⟨_, heq, hfits⟩

lemma sshiftRight_shiftLeft_iff (x : BitVec t.bits) :
    (x <<< s).sshiftRight s = x ↔ (shiftable t s).Mem x.toInt := by
  have hpos : (2 : ℤ) ^ s ≠ 0 := by positivity
  rw [← toInt_inj, toInt_sshiftRight, Int.shiftRight_eq_div_pow]
  push_cast
  constructor
  · intro h
    obtain ⟨q, hq, hmem⟩ := exists_toInt_shiftLeft_eq hs
    rwa [← h, hq, Int.mul_ediv_cancel _ hpos]
  · intro h
    simp [toInt_shiftLeft_of_mem hs h]

/-- The value below the shiftable ones wraps to the greatest result, and the one above them to the
least. -/
lemma toInt_shiftLeft_wrap :
    (x.toInt = (shiftable t s).min - 1 → (x <<< s).toInt = (shiftable t s).max * 2 ^ s) ∧
      (x.toInt = (shiftable t s).max + 1 → (x <<< s).toInt = (shiftable t s).min * 2 ^ s) := by
  have hmem : (shiftable t s).Mem (shiftable t s).max ∧
      (shiftable t s).Mem (shiftable t s).min := by
    have hpos : (0 : ℤ) < 2 ^ (t.bits - 1 - s) := by positivity
    refine ⟨⟨?_, le_refl _⟩, le_refl _, ?_⟩ <;> simp only [shiftable] <;> omega
  simp only [← fits_mul_two_pow_iff hs] at hmem
  have hwidth : ((2 ^ t.bits : ℕ) : ℤ) = 2 * 2 ^ (t.bits - 1 - s) * 2 ^ s := by
    rw [← two_pow_bits hs]
    rfl
  constructor
  · intro hx
    rw [toInt_shiftLeft, ← hmem.1.bmod_eq, hx, ← Int.add_bmod_right, hwidth]
    simp only [shiftable]
    ring_nf
  · intro hx
    rw [toInt_shiftLeft, ← hmem.2.bmod_eq, hx, ← Int.sub_bmod_right, hwidth]
    simp only [shiftable]
    ring_nf

lemma shl_end {x : ℤ} (hx : t.Fits x) (bound : ℤ) :
    (if (BitVec.ofInt t.bits x <<< s).sshiftRight s ≠ BitVec.ofInt t.bits x then bound
      else (BitVec.ofInt t.bits x <<< s).toInt) =
      if (shiftable t s).Mem x then x * 2 ^ s else bound := by
  have hiff := sshiftRight_shiftLeft_iff hs (BitVec.ofInt t.bits x)
  rw [hx.toInt_ofInt] at hiff
  by_cases hmem : (shiftable t s).Mem x
  · rw [if_pos hmem, if_neg (not_not.2 (hiff.2 hmem)), toInt_shiftLeft_of_mem hs, hx.toInt_ofInt]
    rwa [hx.toInt_ofInt]
  · rw [if_neg hmem, if_pos (mt hiff.1 hmem)]

lemma shl_eq (hr : r.Within t) :
    r.shl t s = ⟨if (shiftable t s).Mem r.min then r.min * 2 ^ s else (top t).min,
      if (shiftable t s).Mem r.max then r.max * 2 ^ s else (top t).max⟩ := by
  rw [shl, shl_end hs hr.1, shl_end hs hr.2]

/-- A value that is not shifted out stays between the ends, whether they are or not. -/
lemma shl_mem_of_shiftable (hr : r.Within t) (h : (shiftable t s).Mem x.toInt)
    (hx : r.Mem x.toInt) : (r.shl t s).Mem (x <<< s).toInt := by
  have hpos : (0 : ℤ) ≤ 2 ^ s := by positivity
  have htop := mem_top (x <<< s)
  rw [toInt_shiftLeft_of_mem hs h] at htop ⊢
  rw [shl_eq hs hr]
  constructor
  · show ite _ _ _ ≤ _
    split_ifs
    · exact mul_le_mul_of_nonneg_right hx.1 hpos
    · exact htop.1
  · show _ ≤ ite _ _ _
    split_ifs
    · exact mul_le_mul_of_nonneg_right hx.2 hpos
    · exact htop.2

lemma shl_mem (hr : r.Within t) (hex : ShlExact t r s)
    (hx : r.Mem x.toInt) : (r.shl t s).Mem (x <<< s).toInt := by
  obtain ⟨q, hq, hqmin, hqmax⟩ := exists_toInt_shiftLeft_eq hs
  have hpos : (0 : ℤ) ≤ 2 ^ s := by positivity
  obtain ⟨htopMin, htopMax⟩ := mem_top (x <<< s)
  rcases hex with ⟨hmin, hmax⟩ | hex
  · -- nothing in the range overflows
    exact shl_mem_of_shiftable hs hr ⟨hmin.trans hx.1, hx.2.trans hmax⟩ hx
  obtain ⟨hxmin, hxmax⟩ := hx
  rw [shl_eq hs hr]
  rcases hex with ⟨hmin, hmax⟩ | hdis | hdis
  · -- both ends of the result are those of every shifted value
    constructor
    · show ite _ _ _ ≤ _
      split_ifs
      · rw [hq]
        exact mul_le_mul_of_nonneg_right (hmin.trans hqmin) hpos
      · exact htopMin
    · show _ ≤ ite _ _ _
      split_ifs
      · rw [hq]
        exact mul_le_mul_of_nonneg_right (hqmax.trans hmax) hpos
      · exact htopMax
  · rw [if_neg fun h => absurd h.2 (by omega), if_neg fun h => absurd h.2 (by omega)]
    exact ⟨htopMin, htopMax⟩
  · rw [if_neg fun h => absurd h.1 (by omega), if_neg fun h => absurd h.1 (by omega)]
    exact ⟨htopMin, htopMax⟩

/-- The range of a left shift is wrong exactly when one of its ends overflows and the other does
not reach the end of the shifted values. -/
theorem shl_mem_iff (hr : r.Within t) :
    (∀ x : BitVec t.bits, r.Mem x.toInt → (r.shl t s).Mem (x <<< s).toInt) ↔ ShlExact t r s := by
  refine ⟨fun h => ?_, fun h x => shl_mem hs hr h⟩
  have hpos : (0 : ℤ) < 2 ^ s := by positivity
  by_contra hex
  simp only [ShlExact, not_or, not_and] at hex
  obtain ⟨h₁, h₂, h₃, h₄⟩ := hex
  rw [shl_eq hs hr] at h
  by_cases hmin : (shiftable t s).min ≤ r.min
  · -- only the greater end overflows
    have hfit : t.Fits ((shiftable t s).max + 1) := ⟨by have := hr.1.1; omega, by
      have := hr.2.2; have := h₁ hmin; omega⟩
    obtain ⟨hge, -⟩ := h (BitVec.ofInt _ ((shiftable t s).max + 1)) (by
      rw [hfit.toInt_ofInt]
      exact ⟨by omega, by have := h₁ hmin; omega⟩)
    rw [(toInt_shiftLeft_wrap hs).2 hfit.toInt_ofInt, if_pos ⟨hmin, by omega⟩] at hge
    have := le_of_mul_le_mul_right hge hpos
    omega
  · have hfit : t.Fits ((shiftable t s).min - 1) := ⟨by have := hr.1.1; omega, by
      have := hr.2.2; omega⟩
    obtain ⟨-, hle'⟩ := h (BitVec.ofInt _ ((shiftable t s).min - 1)) (by
      rw [hfit.toInt_ofInt]
      exact ⟨by omega, by omega⟩)
    have hmem : (shiftable t s).Mem r.max := ⟨by omega, by omega⟩
    rw [(toInt_shiftLeft_wrap hs).1 hfit.toInt_ofInt, if_pos hmem] at hle'
    have := le_of_mul_le_mul_right hle' hpos
    omega

lemma within_shl (hr : r.Within t) : (r.shl t s).Within t := by
  rw [shl_eq hs hr]
  constructor
  · show t.Fits (ite _ _ _)
    split_ifs with h
    · exact (fits_mul_two_pow_iff hs _).2 h
    · exact (within_top t).1
  · show t.Fits (ite _ _ _)
    split_ifs with h
    · exact (fits_mul_two_pow_iff hs _).2 h
    · exact (within_top t).2

end

theorem shl_unsound : ¬ ∀ x : BitVec 32, Mem ⟨0, 2 ^ 30⟩ x.toInt →
    (shl .int32 ⟨0, 2 ^ 30⟩ 1).Mem (x <<< 1).toInt :=
  mt (shl_mem_iff (t := .int32) (by decide) ⟨by decide, by decide⟩).1 (by decide)

/-! #### Checked arithmetic -/

variable {x y : ℤ} {f : ℤ → ℤ → ℤ}

lemma overflows_eq_false : overflows t f x y = false ↔ t.Fits x ∧ t.Fits y ∧ t.Fits (f x y) := by
  simp [overflows, and_assoc]

variable {r other : IntRange}

lemma couldOverflow_eq_false : couldOverflow f t r other = false →
      t.Fits (f r.min other.min) ∧ t.Fits (f r.min other.max) ∧ t.Fits (f r.max other.min) ∧
        t.Fits (f r.max other.max) := by
  simp only [couldOverflow, Bool.or_eq_false_iff, overflows_eq_false]
  rintro ⟨⟨⟨h₁, h₂⟩, h₃⟩, h₄⟩
  exact ⟨h₁.2.2, h₂.2.2, h₃.2.2, h₄.2.2⟩

lemma fits_of_between {x y z : ℤ} (hx : t.Fits x) (hz : t.Fits z) (hxy : x ≤ y) (hyz : y ≤ z) :
    t.Fits y :=
  ⟨hx.1.trans hxy, hyz.trans_lt hz.2⟩

/-- A product lies between those of the ends of one factor. -/
lemma mul_between {a b x : ℤ} (ha : a ≤ x) (hb : x ≤ b) (y : ℤ) :
    Min.min (a * y) (b * y) ≤ x * y ∧ x * y ≤ Max.max (a * y) (b * y) := by
  rcases le_total 0 y with hy | hy
  · exact ⟨min_le_of_left_le (mul_le_mul_of_nonneg_right ha hy),
      le_max_of_le_right (mul_le_mul_of_nonneg_right hb hy)⟩
  · exact ⟨min_le_of_right_le (mul_le_mul_of_nonpos_right hb hy),
      le_max_of_le_left (mul_le_mul_of_nonpos_right ha hy)⟩

lemma mul_mem_corners (hx : r.Mem x) (hy : other.Mem y) :
    Min.min (Min.min (r.min * other.min) (r.min * other.max))
        (Min.min (r.max * other.min) (r.max * other.max)) ≤ x * y ∧
      x * y ≤ Max.max (Max.max (r.min * other.min) (r.min * other.max))
        (Max.max (r.max * other.min) (r.max * other.max)) := by
  have hxy := mul_between hx.1 hx.2 y
  have hmin := mul_between hy.1 hy.2 r.min
  have hmax := mul_between hy.1 hy.2 r.max
  simp only [mul_comm _ r.min, mul_comm _ r.max] at hmin hmax
  exact ⟨(min_le_min hmin.1 hmax.1).trans hxy.1, hxy.2.trans (max_le_max hmin.2 hmax.2)⟩

lemma fits_add (h : couldOverflowAdd t r other = false)
    (hx : r.Mem x) (hy : other.Mem y) : t.Fits (x + y) := by
  obtain ⟨hmin, -, -, hmax⟩ := couldOverflow_eq_false h
  exact fits_of_between hmin hmax (add_le_add hx.1 hy.1) (add_le_add hx.2 hy.2)

lemma fits_sub (h : couldOverflowSub t r other = false)
    (hx : r.Mem x) (hy : other.Mem y) : t.Fits (x - y) := by
  obtain ⟨-, hmin, hmax, -⟩ := couldOverflow_eq_false h
  exact fits_of_between hmin hmax (sub_le_sub hx.1 hy.2) (sub_le_sub hx.2 hy.1)

lemma fits_min (hx : t.Fits x) (hy : t.Fits y) : t.Fits (Min.min x y) := by
  rcases min_choice x y with h | h <;> rwa [h]

lemma fits_max (hx : t.Fits x) (hy : t.Fits y) : t.Fits (Max.max x y) := by
  rcases max_choice x y with h | h <;> rwa [h]

lemma within_mul (r other : IntRange) : (r.mul t other).Within t := by
  unfold mul
  split_ifs with h
  · apply within_top
  · obtain ⟨h₁, h₂, h₃, h₄⟩ := couldOverflow_eq_false (Bool.not_eq_true _ ▸ h)
    exact ⟨fits_min (fits_min h₁ h₂) (fits_min h₃ h₄), fits_max (fits_max h₁ h₂) (fits_max h₃ h₄)⟩

lemma fits_mul (h : couldOverflowMul t r other = false)
    (hx : r.Mem x) (hy : other.Mem y) : t.Fits (x * y) := by
  obtain ⟨hmin, hmax⟩ := mul_mem_corners hx hy
  have hwin := within_mul (t := t) r other
  rw [mul, if_neg (by rw [h]; decide)] at hwin
  exact fits_of_between hwin.1 hwin.2 hmin hmax

lemma within_add : (r.add t other).Within t := by
  unfold add
  split_ifs with h
  · apply within_top
  · obtain ⟨hmin, -, -, hmax⟩ := couldOverflow_eq_false (Bool.not_eq_true _ ▸ h)
    exact ⟨hmin, hmax⟩

lemma within_sub : (r.sub t other).Within t := by
  unfold sub
  split_ifs with h
  · apply within_top
  · obtain ⟨-, hmin, hmax, -⟩ := couldOverflow_eq_false (Bool.not_eq_true _ ▸ h)
    exact ⟨hmin, hmax⟩

section

variable {r other : IntRange} {x y : BitVec t.bits} (hx : r.Mem x.toInt) (hy : other.Mem y.toInt)

include hx hy

lemma add_mem : (r.add t other).Mem (x + y).toInt := by
  unfold add
  split_ifs with h
  · apply mem_top
  · rw [toInt_add, (fits_add (Bool.not_eq_true _ ▸ h) hx hy).bmod_eq]
    exact ⟨add_le_add hx.1 hy.1, add_le_add hx.2 hy.2⟩

lemma sub_mem : (r.sub t other).Mem (x - y).toInt := by
  unfold sub
  split_ifs with h
  · apply mem_top
  · rw [toInt_sub, (fits_sub (Bool.not_eq_true _ ▸ h) hx hy).bmod_eq]
    exact ⟨sub_le_sub hx.1 hy.2, sub_le_sub hx.2 hy.1⟩

lemma mul_mem : (r.mul t other).Mem (x * y).toInt := by
  unfold mul
  split_ifs with h
  · apply mem_top
  · rw [toInt_mul, (fits_mul (Bool.not_eq_true _ ▸ h) hx hy).bmod_eq]
    exact mul_mem_corners hx hy

end

end IntRange

end WebKit.B3
