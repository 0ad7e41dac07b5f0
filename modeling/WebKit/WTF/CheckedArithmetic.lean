import Mathlib

/-!
# Checked arithmetic

`safeAdd`, `safeSub` and `safeMultiply` of `CheckedArithmetic.h` at the types its callers use: the
signed operations on `int64_t` and the unsigned multiplication on `uint32_t`. A failed operation
leaves its result argument alone, so it is `none` here.
-/

namespace WebKit.WTF

open Int64

/-- The range of `int64_t`. -/
def FitsInt64 (n : ℤ) : Prop := -2 ^ 63 ≤ n ∧ n < 2 ^ 63

instance (n : ℤ) : Decidable (FitsInt64 n) := inferInstanceAs (Decidable (_ ∧ _))

lemma fitsInt64_toInt (x : Int64) : FitsInt64 x.toInt := ⟨x.le_toInt, x.toInt_lt⟩

lemma FitsInt64.toInt_ofInt {n : ℤ} (h : FitsInt64 n) : (Int64.ofInt n).toInt = n :=
  toInt_ofInt_of_le h.1 h.2

lemma FitsInt64.bmod_eq {n : ℤ} (h : FitsInt64 n) : n.bmod (2 ^ 64) = n :=
  Int.bmod_eq_of_le (by have := h.1; simp only [Nat.reducePow] at *; omega)
    (by have := h.2; simp only [Nat.reducePow] at *; omega)

variable {x : Int64} {y : Int64}

lemma FitsInt64.toInt_add (h : FitsInt64 (x.toInt + y.toInt)) :
    (x + y).toInt = x.toInt + y.toInt := by
  rw [Int64.toInt_add, h.bmod_eq]

lemma FitsInt64.toInt_sub (h : FitsInt64 (x.toInt - y.toInt)) :
    (x - y).toInt = x.toInt - y.toInt := by
  rw [Int64.toInt_sub, h.bmod_eq]

lemma FitsInt64.toInt_mul (h : FitsInt64 (x.toInt * y.toInt)) :
    (x * y).toInt = x.toInt * y.toInt := by
  rw [Int64.toInt_mul, h.bmod_eq]

/-! ### Signed operations -/

def signsMatch (lhs rhs : Int64) : Bool := 0 ≤ lhs ^^^ rhs

def safeAdd (lhs rhs : Int64) : Option Int64 :=
  if signsMatch lhs rhs then
    if 0 ≤ lhs then
      if Int64.maxValue - rhs < lhs then none else some (lhs + rhs)
    else
      let temp := lhs - Int64.minValue
      if rhs < -temp then none else some (lhs + rhs)
  else some (lhs + rhs)

def safeSub (lhs rhs : Int64) : Option Int64 :=
  if !signsMatch lhs rhs then
    if 0 ≤ lhs then
      if Int64.maxValue + rhs < lhs then none else some (lhs - rhs)
    else
      if Int64.maxValue + lhs < rhs then none else some (lhs - rhs)
  else some (lhs - rhs)

def safeMultiply (lhs rhs : Int64) : Option Int64 :=
  if signsMatch lhs rhs then
    if 0 ≤ lhs then
      if lhs ≠ 0 ∧ Int64.maxValue / lhs < rhs then none else some (lhs * rhs)
    else if lhs = Int64.minValue ∨ rhs = Int64.minValue then none
    else if Int64.maxValue / -lhs < -rhs then none
    else some (lhs * rhs)
  else if lhs < 0 then
    if rhs ≠ 0 ∧ lhs < Int64.minValue / rhs then none else some (lhs * rhs)
  else
    if lhs ≠ 0 ∧ rhs < Int64.minValue / lhs then none else some (lhs * rhs)

lemma signsMatch_iff (x y : Int64) : signsMatch x y ↔ (x.toInt < 0 ↔ y.toInt < 0) := by
  have hneg : ∀ z : Int64, z.toInt < 0 ↔ z.toBitVec.msb = true := fun z =>
    (BitVec.msb_eq_toInt ▸ by simp)
  rw [signsMatch, decide_eq_true_eq, Int64.le_iff_toInt_le, ← not_lt]
  rw [show (0 : Int64).toInt = 0 from rfl, hneg, hneg, hneg, Int64.toBitVec_xor, BitVec.msb_xor]
  cases x.toBitVec.msb <;> cases y.toBitVec.msb <;> simp

@[simp] lemma toInt_zero : (0 : Int64).toInt = 0 := rfl

/-- A test that is made exactly when the result does not fit. -/
lemma ite_none_eq {α : Type*} {p q : Prop} [Decidable p] [Decidable q] (h : p ↔ ¬q) (r : α) :
    (if p then none else some r) = if q then some r else none := by
  by_cases hq : q
  · rw [if_neg (by simpa [h] using hq), if_pos hq]
  · rw [if_pos (h.2 hq), if_neg hq]

/-- Addition fails exactly on overflow. -/
lemma safeAdd_eq (x y : Int64) :
    safeAdd x y = if FitsInt64 (x.toInt + y.toInt) then some (x + y) else none := by
  have hx := fitsInt64_toInt x
  have hy := fitsInt64_toInt y
  simp only [FitsInt64] at hx hy
  simp only [safeAdd, signsMatch_iff, le_iff_toInt_le, toInt_zero]
  by_cases hx₀ : 0 ≤ x.toInt <;> by_cases hy₀ : 0 ≤ y.toInt
  · rw [if_pos (by omega), if_pos hx₀]
    apply ite_none_eq
    rw [lt_iff_toInt_lt, FitsInt64.toInt_sub, toInt_maxValue, FitsInt64]
    · omega
    · simp only [toInt_maxValue, FitsInt64]
      omega
  · rw [if_neg (by omega), if_pos ⟨by omega, by omega⟩]
  · rw [if_neg (by omega), if_pos ⟨by omega, by omega⟩]
  · rw [if_pos (by omega), if_neg hx₀]
    have hsub : (x - minValue).toInt = x.toInt + 2 ^ 63 := by
      rw [FitsInt64.toInt_sub, toInt_minValue]
      · omega
      · rw [toInt_minValue, FitsInt64]
        omega
    have hneg : (-(x - minValue)).toInt = -(x.toInt + 2 ^ 63) := by
      rw [toInt_neg, hsub, FitsInt64.bmod_eq]
      rw [FitsInt64]
      omega
    apply ite_none_eq
    rw [lt_iff_toInt_lt, FitsInt64]
    omega

/-- Subtraction also fails when the difference is the smallest number of the type. -/
lemma safeSub_eq (x y : Int64) :
    safeSub x y = if FitsInt64 (x.toInt - y.toInt) ∧ x.toInt - y.toInt ≠ -2 ^ 63
      then some (x - y) else none := by
  have hx := fitsInt64_toInt x
  have hy := fitsInt64_toInt y
  simp only [FitsInt64] at hx hy
  have hmax : ∀ z, z.toInt < 0 → (maxValue + z).toInt = 2 ^ 63 - 1 + z.toInt := by
    intro z hz
    have hz' := z.le_toInt
    rw [FitsInt64.toInt_add, toInt_maxValue]
    rw [toInt_maxValue, FitsInt64]
    omega
  simp only [safeSub, Bool.not_eq_true', ← Bool.not_eq_true, signsMatch_iff,
    le_iff_toInt_le, toInt_zero]
  by_cases hx₀ : 0 ≤ x.toInt <;> by_cases hy₀ : 0 ≤ y.toInt
  · rw [if_neg (by omega), if_pos ⟨⟨by omega, by omega⟩, by omega⟩]
  · rw [if_pos (by omega), if_pos hx₀]
    apply ite_none_eq
    rw [lt_iff_toInt_lt, hmax y (by omega), FitsInt64]
    omega
  · rw [if_pos (by omega), if_neg hx₀]
    apply ite_none_eq
    rw [lt_iff_toInt_lt, hmax x (by omega), FitsInt64]
    omega
  · rw [if_neg (by omega), if_pos ⟨⟨by omega, by omega⟩, by omega⟩]

lemma toInt_div_of_pos (x : Int64) (hy : 0 < y.toInt) : (x / y).toInt = x.toInt.tdiv y.toInt := by
  rw [toInt_div, FitsInt64.bmod_eq]
  have hle := Int.natAbs_tdiv_le_natAbs x.toInt y.toInt
  have hlow := x.le_toInt
  have hhigh := x.toInt_lt
  rw [FitsInt64]
  rcases lt_or_ge x.toInt 0 with hneg | hpos
  · have hsign := Int.tdiv_nonneg (neg_nonneg.2 hneg.le) hy.le
    rw [Int.neg_tdiv] at hsign
    omega
  · omega

lemma maxValue_div_lt_iff (hx : 0 < x.toInt) (n : ℤ) :
    (Int64.maxValue / x).toInt < n ↔ 2 ^ 63 ≤ x.toInt * n := by
  rw [toInt_div_of_pos _ hx, toInt_maxValue, Int.tdiv_eq_ediv_of_nonneg (by norm_num),
    Int.ediv_lt_iff_lt_mul hx, mul_comm]
  omega

lemma lt_minValue_div_iff (hx : 0 < x.toInt) (n : ℤ) :
    n < (Int64.minValue / x).toInt ↔ n * x.toInt < -2 ^ 63 := by
  rw [toInt_div_of_pos _ hx, toInt_minValue, Int.neg_tdiv,
    Int.tdiv_eq_ediv_of_nonneg (by norm_num), lt_neg, Int.ediv_lt_iff_lt_mul hx]
  constructor <;> intro h <;> linarith

/-- Multiplication fails exactly on overflow. -/
lemma safeMultiply_eq (x y : Int64) :
    safeMultiply x y = if FitsInt64 (x.toInt * y.toInt) then some (x * y) else none := by
  simp only [safeMultiply, signsMatch_iff, le_iff_toInt_le, lt_iff_toInt_lt,
    toInt_zero, ← toInt_inj, ne_eq, toInt_minValue]
  -- each pair of signs has a check of its own
  rcases lt_or_ge x.toInt 0 with hx₀ | hx₀ <;> rcases lt_or_ge y.toInt 0 with hy₀ | hy₀
  · rw [if_pos (by omega), if_neg (by omega)]
    by_cases hmin : x.toInt = -2 ^ 63 ∨ y.toInt = -2 ^ 63
    · rw [if_pos hmin, if_neg]
      rintro ⟨-, hlt⟩
      rcases hmin with hmin | hmin
      · nlinarith
      · nlinarith
    · have hneg : ∀ z : Int64, z.toInt ≠ -2 ^ 63 → (-z).toInt = -z.toInt := by
        intro z hz
        have hlow := z.le_toInt
        have hhigh := z.toInt_lt
        rw [toInt_neg, FitsInt64.bmod_eq ⟨by omega, by omega⟩]
      rw [not_or] at hmin
      rw [if_neg (not_or.2 hmin)]
      apply ite_none_eq
      rw [maxValue_div_lt_iff (by rw [hneg x hmin.1]; omega), hneg x hmin.1, hneg y hmin.2,
        FitsInt64, neg_mul_neg]
      have hpos := mul_pos_of_neg_of_neg hx₀ hy₀
      omega
  · rw [if_neg (by omega), if_pos hx₀]
    apply ite_none_eq
    rcases hy₀.eq_or_lt with hzero | hpos
    · simp [← hzero, FitsInt64]
    · rw [lt_minValue_div_iff hpos, FitsInt64]
      have hle := mul_neg_of_neg_of_pos hx₀ hpos
      omega
  · rw [if_neg (by omega), if_neg (by omega)]
    apply ite_none_eq
    rcases hx₀.eq_or_lt with hzero | hpos
    · simp [← hzero, FitsInt64]
    · rw [lt_minValue_div_iff hpos, FitsInt64, mul_comm]
      have hle := mul_neg_of_pos_of_neg hpos hy₀
      omega
  · rw [if_pos (by omega), if_pos hx₀]
    apply ite_none_eq
    rcases hx₀.eq_or_lt with hzero | hpos
    · simp [← hzero, FitsInt64]
    · rw [maxValue_div_lt_iff hpos, FitsInt64]
      have hle := mul_nonneg hx₀ hy₀
      omega

/-! ### Unsigned multiplication -/

def safeMultiplyUnsigned (lhs rhs : UInt32) : Option UInt32 :=
  if lhs = 0 ∨ rhs = 0 then some 0
  else if (-1 : UInt32) / lhs < rhs then none
  else some (lhs * rhs)

lemma safeMultiplyUnsigned_eq (x y : UInt32) :
    safeMultiplyUnsigned x y = if x.toNat * y.toNat < 2 ^ 32 then some (x * y) else none := by
  rw [safeMultiplyUnsigned]
  by_cases hzero : x = 0 ∨ y = 0
  · rw [if_pos]
    · rcases hzero with rfl | rfl <;> simp
    · rcases hzero with rfl | rfl <;> simp
  · rw [if_neg hzero]
    apply ite_none_eq
    rw [not_or] at hzero
    have hpos : 0 < x.toNat := Nat.pos_of_ne_zero fun h => hzero.1 (UInt32.toNat_inj.1 h)
    rw [UInt32.lt_iff_toNat_lt, UInt32.toNat_div, show (-1 : UInt32).toNat = 2 ^ 32 - 1 from rfl,
      Nat.div_lt_iff_lt_mul hpos, mul_comm]
    omega

end WebKit.WTF
