import Mathlib

/-!
# Decimal floating point numbers

A number is a sign, a coefficient and an exponent of ten. The arithmetic is done in 64 bits, and in
128 bits for products.
-/

namespace WebKit.Platform

def ExponentMax : ℤ := 1023

def ExponentMin : ℤ := -1023

def Precision : ℕ := 18

/-- The source calls this 18 nines, but there are 17. -/
def MaxCoefficient : UInt64 := 0x16345785D89FFFF

/-! ### 128-bit products -/

structure UInt128 where
  low : UInt64
  high : UInt64
deriving DecidableEq, Repr

def highUInt32 (x : UInt64) : UInt32 := (x >>> 32).toUInt32

def lowUInt32 (x : UInt64) : UInt32 := (x &&& (((1 : UInt64) <<< 32) - 1)).toUInt32

def makeUInt64 (low high : UInt32) : UInt64 := low.toUInt64 ||| (high.toUInt64 <<< 32)

/-- One digit of the division in base `2 ^ 32`: the quotient and the remainder. -/
def divideUInt32 (divisor dividend remainder : UInt32) : UInt32 × UInt32 :=
  let work := makeUInt64 dividend remainder
  ((work / divisor.toUInt64).toUInt32, (work % divisor.toUInt64).toUInt32)

/-- The `/=` of the class. -/
def UInt128.divide (x : UInt128) (divisor : UInt32) : UInt128 :=
  if x.high = 0 then { x with low := x.low / divisor.toUInt64 }
  else
    let (quotient3, remainder) := divideUInt32 divisor (highUInt32 x.high) 0
    let (quotient2, remainder) := divideUInt32 divisor (lowUInt32 x.high) remainder
    let (quotient1, remainder) := divideUInt32 divisor (highUInt32 x.low) remainder
    let (quotient0, _) := divideUInt32 divisor (lowUInt32 x.low) remainder
    ⟨makeUInt64 quotient0 quotient1, makeUInt64 quotient2 quotient3⟩

/-- The high 64 bits of the product. -/
def multiplyHigh (u v : UInt64) : UInt64 :=
  let uLow := (lowUInt32 u).toUInt64
  let uHigh := (highUInt32 u).toUInt64
  let vLow := (lowUInt32 v).toUInt64
  let vHigh := (highUInt32 v).toUInt64
  let partialProduct := uHigh * vLow + (highUInt32 (uLow * vLow)).toUInt64
  uHigh * vHigh + (highUInt32 partialProduct).toUInt64 +
    (highUInt32 (uLow * vHigh + (lowUInt32 partialProduct).toUInt64)).toUInt64

def UInt128.multiply (u v : UInt64) : UInt128 := ⟨u * v, multiplyHigh u v⟩

/-! ### Digits -/

/-- The loop over the powers of ten, which ends with the last one that fits. -/
def countDigitsFrom (x : UInt64) : ℕ → UInt64 → ℕ → ℕ
  | rounds + 1, powerOfTen, numberOfDigits =>
    if powerOfTen ≤ x then
      if powerOfTen ≥ 0xFFFFFFFFFFFFFFFF / 10 then numberOfDigits + 1
      else countDigitsFrom x rounds (powerOfTen * 10) (numberOfDigits + 1)
    else numberOfDigits
  | 0, _, numberOfDigits => numberOfDigits

def countDigits (x : UInt64) : ℕ := countDigitsFrom x 20 1 0

def scaleDown (x : UInt64) : ℕ → UInt64
  | 0 => x
  | n + 1 => if x = 0 then x else scaleDown (x / 10) n

/-- The power of ten by repeated squaring. -/
def scaleUpFrom (x : UInt64) : ℕ → ℕ → UInt64 → UInt64 → UInt64
  | rounds + 1, n, y, z =>
    let y := if n % 2 = 1 then y * z else y
    let n := n / 2
    if n = 0 then x * y else scaleUpFrom x rounds n y (z * z)
  | 0, _, y, _ => x * y

def scaleUp (x : UInt64) (n : ℕ) : UInt64 := scaleUpFrom x (n + 1) n 1 10

/-! ### Encoded numbers -/

inductive Sign
  | positive
  | negative
deriving DecidableEq, Repr

def invertSign (sign : Sign) : Sign :=
  if sign = .negative then .positive else .negative

inductive FormatClass
  | infinity
  | normal
  | nan
  | zero
deriving DecidableEq, Repr

structure EncodedData where
  coefficient : UInt64
  exponent : ℤ
  formatClass : FormatClass
  sign : Sign
deriving DecidableEq, Repr

/-- The digits of a coefficient beyond the seventeenth are dropped. -/
def dropDigits : ℕ → UInt64 → ℤ → UInt64 × ℤ
  | rounds + 1, coefficient, exponent =>
    if coefficient > MaxCoefficient then dropDigits rounds (coefficient / 10) (exponent + 1)
    else (coefficient, exponent)
  | 0, coefficient, exponent => (coefficient, exponent)

/-- Coefficients of 64 bits have at most three digits too many. -/
def EncodedData.ofParts (sign : Sign) (exponent : ℤ) (coefficient : UInt64) : EncodedData :=
  let formatClass := if coefficient = 0 then .zero else .normal
  let (coefficient, exponent) :=
    if ExponentMin ≤ exponent ∧ exponent ≤ ExponentMax then dropDigits 3 coefficient exponent
    else (coefficient, exponent)
  if exponent > ExponentMax then ⟨0, 0, .infinity, sign⟩
  else if exponent < ExponentMin then ⟨0, 0, .zero, sign⟩
  else ⟨coefficient, exponent, formatClass, sign⟩

/-- A zero, an infinity, or not a number. -/
def EncodedData.ofClass (sign : Sign) (formatClass : FormatClass) : EncodedData :=
  ⟨0, 0, formatClass, sign⟩

def EncodedData.isFinite (data : EncodedData) : Bool :=
  !(data.formatClass = .infinity || data.formatClass = .nan)

/-- A coefficient and an exponent in range. -/
structure EncodedData.Valid (data : EncodedData) : Prop where
  coefficient_le : data.coefficient ≤ MaxCoefficient
  exponent_mem : ExponentMin ≤ data.exponent ∧ data.exponent ≤ ExponentMax
  isZero_iff : data.isFinite = true → (data.formatClass = .zero ↔ data.coefficient = 0)

lemma toNat_MaxCoefficient : MaxCoefficient.toNat = 10 ^ 17 - 1 := rfl

lemma le_MaxCoefficient_iff (x : UInt64) : x ≤ MaxCoefficient ↔ x.toNat < 10 ^ 17 := by
  rw [UInt64.le_iff_toNat_le, toNat_MaxCoefficient]
  omega

lemma toNat_div_ten (x : UInt64) : (x / 10).toNat = x.toNat / 10 := UInt64.toNat_div x 10

/-- Three rounds are enough, and no more digits are dropped than there have to be. -/
lemma dropDigits_spec (c : UInt64) (e : ℤ) :
    ∃ dropped : ℕ, (dropDigits 3 c e).1.toNat = c.toNat / 10 ^ dropped ∧
      (dropDigits 3 c e).2 = e + dropped ∧
      c.toNat / 10 ^ dropped < 10 ^ 17 ∧
      (dropped = 0 ∨ 10 ^ 16 ≤ c.toNat / 10 ^ dropped) := by
  have hlt := c.toNat_lt
  simp only [dropDigits, ← UInt64.not_le, le_MaxCoefficient_iff]
  by_cases h0 : c.toNat < 10 ^ 17
  · simp only [h0, not_true, if_false]
    exact ⟨0, by omega, by omega, by omega, .inl rfl⟩
  by_cases h1 : c.toNat / 10 < 10 ^ 17
  · simp only [h0, h1, not_false_eq_true, not_true, if_true, if_false, toNat_div_ten]
    exact ⟨1, by omega, by omega, by omega, .inr (by omega)⟩
  by_cases h2 : c.toNat / 10 / 10 < 10 ^ 17
  · simp only [h0, h1, h2, not_false_eq_true, not_true, if_true, if_false, toNat_div_ten]
    exact ⟨2, by omega, by omega, by omega, .inr (by omega)⟩
  · simp only [h0, h1, h2, not_false_eq_true, if_true, toNat_div_ten]
    exact ⟨3, by omega, by omega, by omega, .inr (by omega)⟩

section

variable (sign : Sign)

lemma EncodedData.valid_ofClass {formatClass : FormatClass}
    (h : formatClass ≠ .normal) : (EncodedData.ofClass sign formatClass).Valid where
  coefficient_le := (le_MaxCoefficient_iff 0).mpr (by decide)
  exponent_mem := by
    constructor <;> simp [EncodedData.ofClass, ExponentMin, ExponentMax]
  isZero_iff hfin := by
    cases formatClass <;> simp_all [EncodedData.ofClass, EncodedData.isFinite]

variable {e : ℤ}

lemma EncodedData.ofParts_of_gt (c : UInt64) (h : e > ExponentMax) :
    EncodedData.ofParts sign e c = EncodedData.ofClass sign .infinity := by
  have hrng : ¬ (ExponentMin ≤ e ∧ e ≤ ExponentMax) := by omega
  rw [EncodedData.ofParts, if_neg hrng]
  exact if_pos h

lemma EncodedData.ofParts_of_lt (c : UInt64) (h : e < ExponentMin) :
    EncodedData.ofParts sign e c = EncodedData.ofClass sign .zero := by
  have hrng : ¬ (ExponentMin ≤ e ∧ e ≤ ExponentMax) := by omega
  have hmax : ¬ e > ExponentMax := by
    simp only [ExponentMin, ExponentMax] at h ⊢
    omega
  rw [EncodedData.ofParts, if_neg hrng]
  dsimp only
  rw [if_neg hmax, if_pos h]
  rfl

/-- With an exponent in range, digits are dropped. -/
lemma EncodedData.ofParts_spec (c : UInt64)
    (hmin : ExponentMin ≤ e) (hmax : e ≤ ExponentMax) :
    ∃ (dropped : ℕ) (kept : UInt64), kept.toNat = c.toNat / 10 ^ dropped ∧
      kept.toNat < 10 ^ 17 ∧ (dropped = 0 ∨ 10 ^ 16 ≤ kept.toNat) ∧
      EncodedData.ofParts sign e c =
        if e + dropped > ExponentMax then EncodedData.ofClass sign .infinity
        else ⟨kept, e + dropped, if c = 0 then .zero else .normal, sign⟩ := by
  obtain ⟨dropped, hcoef, hexp, hlt, hge⟩ := dropDigits_spec c e
  refine ⟨dropped, _, hcoef, hcoef ▸ hlt, hcoef ▸ hge, ?_⟩
  rcases hdrop : dropDigits 3 c e with ⟨kept, _⟩
  rw [hdrop] at hexp
  subst hexp
  rw [EncodedData.ofParts, if_pos ⟨hmin, hmax⟩, hdrop]
  dsimp only
  by_cases hlrg : e + dropped > ExponentMax
  · rw [if_pos hlrg, if_pos hlrg]
    rfl
  · rw [if_neg hlrg, if_neg hlrg, if_neg (by omega)]

lemma EncodedData.valid_ofParts (e : ℤ) (c : UInt64) : (EncodedData.ofParts sign e c).Valid := by
  by_cases hmax : e > ExponentMax
  · rw [ofParts_of_gt sign c hmax]
    exact valid_ofClass sign (by decide)
  by_cases hmin : e < ExponentMin
  · rw [ofParts_of_lt sign c hmin]
    exact valid_ofClass sign (by decide)
  obtain ⟨dropped, kept, hkept, hlt, hge, heq⟩ :=
    ofParts_spec sign c (Int.not_lt.mp hmin) (Int.not_lt.mp hmax)
  rw [heq]
  by_cases hlrg : e + dropped > ExponentMax
  · rw [if_pos hlrg]
    exact valid_ofClass sign (by decide)
  rw [if_neg hlrg]
  refine ⟨(le_MaxCoefficient_iff kept).mpr hlt, ⟨by dsimp only; omega, by dsimp only; omega⟩,
    fun _ => ?_⟩
  have hzero : c = 0 ↔ kept = 0 := by
    rw [← UInt64.toNat_inj, ← UInt64.toNat_inj, hkept]
    rcases hge with rfl | hge
    · simp
    · rw [hkept] at hge
      constructor
      · intro h
        simp [h] at hge
      · intro h
        simp [h] at hge
  by_cases h : c = 0
  · simp [h, hzero.mp h]
  · simp [h, mt hzero.mpr h]

end

/-- A decimal number. -/
structure Decimal where
  data : EncodedData
  valid : data.Valid

namespace Decimal

def ofParts (sign : Sign) (exponent : ℤ) (coefficient : UInt64) : Decimal :=
  ⟨EncodedData.ofParts sign exponent coefficient,
    EncodedData.valid_ofParts sign exponent coefficient⟩

def infinity (sign : Sign) : Decimal :=
  ⟨EncodedData.ofClass sign .infinity, EncodedData.valid_ofClass sign (by decide)⟩

def nan : Decimal :=
  ⟨EncodedData.ofClass .positive .nan, EncodedData.valid_ofClass .positive (by decide)⟩

def zero (sign : Sign) : Decimal :=
  ⟨EncodedData.ofClass sign .zero, EncodedData.valid_ofClass sign (by decide)⟩

def sign (d : Decimal) : Sign := d.data.sign

def exponent (d : Decimal) : ℤ := d.data.exponent

def coefficient (d : Decimal) : UInt64 := d.data.coefficient

def isFinite (d : Decimal) : Bool := d.data.isFinite

def isZero (d : Decimal) : Bool := d.data.formatClass = .zero

/-! ### Special values -/

inductive HandleResult
  | bothFinite
  | bothInfinity
  | eitherNaN
  | lhsIsInfinity
  | rhsIsInfinity
deriving DecidableEq, Repr

/-- The `SpecialValueHandler`: the case, and the operand that is the result if one is not a
number. -/
def handle (lhs rhs : Decimal) : HandleResult × Decimal :=
  if lhs.isFinite && rhs.isFinite then (.bothFinite, lhs)
  else if lhs.data.formatClass = .nan then (.eitherNaN, lhs)
  else if rhs.data.formatClass = .nan then (.eitherNaN, rhs)
  else if lhs.data.formatClass = .infinity then
    (if rhs.data.formatClass = .infinity then .bothInfinity else .lhsIsInfinity, lhs)
  else (.rhsIsInfinity, lhs)

/-! ### Sums -/

structure AlignedOperands where
  lhsCoefficient : UInt64
  rhsCoefficient : UInt64
  exponent : ℤ
deriving DecidableEq, Repr

/-- The coefficient of the operand with the larger exponent is scaled up, to 18 digits at most, and
the other one is scaled down by what is missing. Gives both and what is added to the exponent. -/
def scaleOperands (larger smaller : UInt64) (shiftAmount : ℕ) : UInt64 × UInt64 × ℕ :=
  let numberOfDigits := countDigits larger
  if numberOfDigits = 0 then (larger, smaller, 0)
  else
    let overflow := numberOfDigits + shiftAmount - Precision
    if overflow = 0 then (scaleUp larger shiftAmount, smaller, 0)
    else (scaleUp larger (shiftAmount - overflow), scaleDown smaller overflow, overflow)

def alignOperands (lhs rhs : Decimal) : AlignedOperands :=
  let exponent := min lhs.exponent rhs.exponent
  if lhs.exponent > rhs.exponent then
    let (lhsCoefficient, rhsCoefficient, overflow) :=
      scaleOperands lhs.coefficient rhs.coefficient (lhs.exponent - rhs.exponent).toNat
    ⟨lhsCoefficient, rhsCoefficient, exponent + overflow⟩
  else if lhs.exponent < rhs.exponent then
    let (rhsCoefficient, lhsCoefficient, overflow) :=
      scaleOperands rhs.coefficient lhs.coefficient (rhs.exponent - lhs.exponent).toNat
    ⟨lhsCoefficient, rhsCoefficient, exponent + overflow⟩
  else ⟨lhs.coefficient, rhs.coefficient, exponent⟩

/-- The result of a difference from its sign and its coefficient in two's complement. -/
def ofResult (sign : Sign) (exponent : ℤ) (result : UInt64) : Decimal :=
  if 0 ≤ result.toInt64 then ofParts sign exponent result
  else ofParts (invertSign sign) exponent (-result.toInt64).toUInt64

def sub (lhs rhs : Decimal) : Decimal :=
  match handle lhs rhs with
  | (.bothFinite, _) =>
    let alignedOperands := alignOperands lhs rhs
    let result := if lhs.sign = rhs.sign
      then alignedOperands.lhsCoefficient - alignedOperands.rhsCoefficient
      else alignedOperands.lhsCoefficient + alignedOperands.rhsCoefficient
    if lhs.sign = .negative ∧ rhs.sign = .negative ∧ result = 0 then
      ofParts .positive alignedOperands.exponent 0
    else ofResult lhs.sign alignedOperands.exponent result
  | (.bothInfinity, _) => if lhs.sign = rhs.sign then nan else lhs
  | (.eitherNaN, value) => value
  | (.lhsIsInfinity, _) => lhs
  | (.rhsIsInfinity, _) => infinity (invertSign rhs.sign)

/-! ### Products -/

def resultSign (lhs rhs : Decimal) : Sign :=
  if lhs.sign = rhs.sign then .positive else .negative

/-- The product is divided by ten until it has 64 bits. -/
def reduceProduct : ℕ → UInt128 → ℤ → UInt128 × ℤ
  | rounds + 1, work, exponent =>
    if work.high = 0 then (work, exponent) else reduceProduct rounds (work.divide 10) (exponent + 1)
  | 0, work, exponent => (work, exponent)

/-- Twenty rounds are enough for a product of 128 bits. -/
def mul (lhs rhs : Decimal) : Decimal :=
  match handle lhs rhs with
  | (.bothFinite, _) =>
    let (work, exponent) := reduceProduct 20 (UInt128.multiply lhs.coefficient rhs.coefficient)
      (lhs.exponent + rhs.exponent)
    ofParts (resultSign lhs rhs) exponent work.low
  | (.bothInfinity, _) => infinity (resultSign lhs rhs)
  | (.eitherNaN, value) => value
  | (.lhsIsInfinity, _) => if rhs.isZero then nan else infinity (resultSign lhs rhs)
  | (.rhsIsInfinity, _) => if lhs.isZero then nan else infinity (resultSign lhs rhs)

/-! ### Quotients -/

structure Division where
  remainder : UInt64
  result : UInt64
  exponent : ℤ
deriving DecidableEq, Repr

/-- The inner loop brings down zeros until the remainder is as large as the divisor. -/
def Division.bringDown (divisor : UInt64) : ℕ → Division → Division
  | rounds + 1, d =>
    if d.remainder < divisor then
      bringDown divisor rounds ⟨d.remainder * 10, d.result * 10, d.exponent - 1⟩
    else d
  | 0, d => d

/-- The outer loop, or `none` if it does not end in these rounds. Twenty zeros are enough for a
remainder. -/
def Division.run (divisor : UInt64) : ℕ → Division → Option Division
  | rounds + 1, d =>
    if d.result < MaxCoefficient / 100 then
      let d := d.bringDown divisor 20
      let d := ⟨d.remainder % divisor, d.result + d.remainder / divisor, d.exponent⟩
      if d.remainder = 0 then some d else run divisor rounds d
    else some d
  | 0, _ => none

/-- The quotient, or `none` if the division goes on for more than `rounds` digits. -/
def div (rounds : ℕ) (lhs rhs : Decimal) : Option Decimal :=
  match handle lhs rhs with
  | (.bothFinite, _) =>
    if rhs.isZero then some (if lhs.isZero then nan else infinity (resultSign lhs rhs))
    else
      let exponent := lhs.exponent - rhs.exponent
      if lhs.isZero then some (ofParts (resultSign lhs rhs) exponent 0)
      else do
        let d ← Division.run rhs.coefficient rounds ⟨lhs.coefficient, 0, exponent⟩
        let result := if d.remainder > rhs.coefficient / 2 then d.result + 1 else d.result
        return ofParts (resultSign lhs rhs) d.exponent result
  | (.bothInfinity, _) => some nan
  | (.eitherNaN, value) => some value
  | (.lhsIsInfinity, _) => some (infinity (resultSign lhs rhs))
  | (.rhsIsInfinity, _) => some (zero (resultSign lhs rhs))

end Decimal

end WebKit.Platform
