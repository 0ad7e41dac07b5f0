import WebKit.Platform.DecimalSum

/-!
# Comparing decimal numbers

Numbers are compared by the sign of their difference. What the alignment cuts off never changes that
sign.
-/

namespace WebKit.Platform

namespace Decimal

def isNaN (d : Decimal) : Bool := d.data.formatClass = .nan

def isNegative (d : Decimal) : Bool := d.sign = .negative

def isPositive (d : Decimal) : Bool := d.sign = .positive

/-- The number of an integer. -/
def ofInt32 (i32 : Int32) : Decimal :=
  ofParts (if i32 < 0 then .negative else .positive) 0
    (if i32 < 0 then (-i32.toInt64).toUInt64 else i32.toInt64.toUInt64)

def compareTo (lhs rhs : Decimal) : Decimal :=
  let result := lhs.sub rhs
  match result.data.formatClass with
  | .infinity => if result.isNegative then ofInt32 (-1) else ofInt32 1
  | .nan | .normal => result
  | .zero => zero .positive

def eq (lhs rhs : Decimal) : Bool := lhs.data = rhs.data || (lhs.compareTo rhs).isZero

def ne (lhs rhs : Decimal) : Bool :=
  if lhs.data = rhs.data then false
  else
    let result := lhs.compareTo rhs
    if result.isNaN then false else !result.isZero

def lt (lhs rhs : Decimal) : Bool :=
  let result := lhs.compareTo rhs
  if result.isNaN then false else !result.isZero && result.isNegative

def le (lhs rhs : Decimal) : Bool :=
  if lhs.data = rhs.data then true
  else
    let result := lhs.compareTo rhs
    if result.isNaN then false else result.isZero || result.isNegative

def gt (lhs rhs : Decimal) : Bool :=
  let result := lhs.compareTo rhs
  if result.isNaN then false else !result.isZero && result.isPositive

def ge (lhs rhs : Decimal) : Bool :=
  if lhs.data = rhs.data then true
  else
    let result := lhs.compareTo rhs
    if result.isNaN then false else result.isZero || !result.isNegative

/-! ### The sign of a difference -/

/-- The number is zero or has the sign of the rational number. -/
structure HasSignOf (d : Decimal) (x : ℚ) : Prop where
  isNaN : d.isNaN = false
  isZero_iff : d.isZero = true ↔ x = 0
  isNegative_iff : x ≠ 0 → (d.isNegative = true ↔ x < 0)

variable {d : Decimal} {x y : ℚ} {sign sign' : Sign}

lemma HasSignOf.congr (h : d.HasSignOf x) (hsign : SignType.sign x = SignType.sign y) :
    d.HasSignOf y := by
  have hzero : x = 0 ↔ y = 0 := by
    rw [← sign_eq_zero_iff, hsign, sign_eq_zero_iff]
  refine ⟨h.isNaN, h.isZero_iff.trans hzero, fun hne => ?_⟩
  rw [h.isNegative_iff (mt hzero.mp hne), ← sign_eq_neg_one_iff, hsign, sign_eq_neg_one_iff]

lemma toRat_mul_lt_zero_iff (hpos : 0 < x) : sign.toRat * x < 0 ↔ sign = .negative := by
  cases sign <;> simp [Sign.toRat, hpos, hpos.le]

lemma hasSignOf_ofParts (sign : Sign) {e : ℤ} (c : UInt64) (hmin : ExponentMin ≤ e)
    (hmax : e ≤ ExponentMax) : (ofParts sign e c).HasSignOf (sign.toRat * c.toNat) := by
  obtain ⟨dropped, kept, hkept, -, hge, heq⟩ := EncodedData.ofParts_spec sign c hmin hmax
  have hneg (hne : sign.toRat * c.toNat ≠ 0) : sign.toRat * c.toNat < 0 ↔ sign = .negative :=
    toRat_mul_lt_zero_iff (lt_of_le_of_ne (Nat.cast_nonneg _) (right_ne_zero_of_mul hne).symm)
  have hzero : sign.toRat * c.toNat = 0 ↔ c = 0 := by
    cases sign <;> simp [Sign.toRat, ← UInt64.toNat_inj]
  have hdata : (ofParts sign e c).data = _ := heq
  split_ifs at hdata with hinf hc
  · have hc : c ≠ 0 := by
      rintro rfl
      obtain rfl : dropped = 0 := hge.resolve_right (by simp [hkept])
      omega
    refine ⟨?_, ?_, fun hne => ?_⟩
    · simp [isNaN, hdata, EncodedData.ofClass]
    · simp [isZero, hdata, EncodedData.ofClass, hzero, hc]
    · simp [isNegative, Decimal.sign, hdata, EncodedData.ofClass, hneg hne]
  · refine ⟨by simp [isNaN, hdata], iff_of_true ?_ (hzero.2 hc), (absurd (hzero.2 hc) ·)⟩
    simp [isZero, hdata]
  · refine ⟨by simp [isNaN, hdata], by simp [isZero, hdata, hzero, hc], fun hne => ?_⟩
    simp [isNegative, Decimal.sign, hdata, hneg hne]

/-- The first of two magnitudes gives the sign of the sum if it is the larger one. -/
lemma sign_add (hy : 0 ≤ y) (h : y < x) :
    SignType.sign (sign.toRat * x + sign'.toRat * y) = SignType.sign sign.toRat := by
  cases sign
  · rw [sign_pos, sign_pos] <;> cases sign' <;> simp only [Sign.toRat] <;> linarith
  · rw [sign_neg, sign_neg] <;> cases sign' <;> simp only [Sign.toRat] <;> linarith

lemma sign_cutBeside {kept cut : Decimal} {rest : ℚ} {keptCoefficient cutCoefficient : UInt64}
    {e : ℤ} (h : CutBeside kept cut keptCoefficient cutCoefficient e rest) :
    SignType.sign (sign.toRat * kept.magnitude + sign'.toRat * cut.magnitude) =
      SignType.sign (sign.toRat * keptCoefficient.toNat + sign'.toRat * cutCoefficient.toNat) := by
  have hpos := ten_zpow_pos e
  rcases h.kept_ge with ⟨-, hzero⟩ | ⟨-, hge⟩
  · have hmul : sign.toRat * kept.magnitude + sign'.toRat * cut.magnitude =
        (sign.toRat * keptCoefficient.toNat + sign'.toRat * cutCoefficient.toNat) * 10 ^ e := by
      rw [h.kept_eq, h.cut_eq, hzero]
      ring
    rw [hmul, sign_mul, sign_pos hpos, mul_one]
  · have hlt : (cutCoefficient.toNat : ℚ) + 1 ≤ keptCoefficient.toNat := by
      exact_mod_cast h.cut_lt.trans_le hge
    have hmul := mul_le_mul_of_nonneg_right hlt hpos.le
    rw [sign_add (magnitude_nonneg cut), sign_add (Nat.cast_nonneg _)]
    · linarith
    · rw [h.cut_eq, h.kept_eq]
      linarith [h.lt]

variable {lhs rhs : Decimal} (hlhs : lhs.isFinite = true) (hrhs : rhs.isFinite = true)

include hlhs hrhs

lemma hasSignOf_sub : (lhs.sub rhs).HasSignOf (lhs.toRat - rhs.toRat) := by
  obtain ⟨sign, c, heq, -, hsigned⟩ := isSum_sub hlhs hrhs
  obtain ⟨⟨hmin, hmax⟩, rest, hcut⟩ := alignOperands_spec rfl
  rw [heq, toRat_sub_toRat]
  refine (hasSignOf_ofParts sign c hmin hmax).congr ?_
  rw [hsigned]
  rcases hcut with hcut | hcut
  · exact (sign_cutBeside hcut).symm
  · rw [add_comm, add_comm (_ * lhs.magnitude)]
    exact (sign_cutBeside hcut).symm

lemma hasSignOf_compareTo : (lhs.compareTo rhs).HasSignOf (lhs.toRat - rhs.toRat) := by
  obtain ⟨hnan, hzero, hneg⟩ := hasSignOf_sub hlhs hrhs
  rw [compareTo]
  split
  case h_1 hclass =>
    have hne : lhs.toRat - rhs.toRat ≠ 0 := mt hzero.2 (by simp [isZero, hclass])
    split_ifs with hsign
    · exact ⟨by decide, iff_of_false (by decide) hne, fun _ => iff_of_true (by decide)
        ((hneg hne).1 hsign)⟩
    · exact ⟨by decide, iff_of_false (by decide) hne, fun _ => iff_of_false (by decide)
        (mt (hneg hne).2 hsign)⟩
  case h_4 hclass =>
    have heq := hzero.1 (by simp [isZero, hclass])
    exact ⟨by decide, iff_of_true (by decide) heq, absurd heq⟩
  all_goals exact ⟨hnan, hzero, hneg⟩

/-- The operators compare the rational numbers. -/
lemma compare_iff : (lhs.eq rhs = true ↔ lhs.toRat = rhs.toRat) ∧
    (lhs.ne rhs = true ↔ lhs.toRat ≠ rhs.toRat) ∧ (lhs.lt rhs = true ↔ lhs.toRat < rhs.toRat) ∧
    (lhs.le rhs = true ↔ lhs.toRat ≤ rhs.toRat) ∧ (lhs.gt rhs = true ↔ lhs.toRat > rhs.toRat) ∧
    (lhs.ge rhs = true ↔ lhs.toRat ≥ rhs.toRat) := by
  obtain ⟨hnan, hzero, hneg⟩ := hasSignOf_compareTo hlhs hrhs
  have hpos (d : Decimal) : d.isPositive = !d.isNegative := by
    cases hd : d.sign <;> simp [isPositive, isNegative, hd]
  have hdata (h : lhs.data = rhs.data) : lhs.toRat - rhs.toRat = 0 := by
    rw [sub_eq_zero, toRat, toRat, magnitude, magnitude, Decimal.sign, Decimal.sign, coefficient,
      coefficient, exponent, exponent, h]
  rw [eq, ne, lt, le, gt, ge, hpos]
  dsimp only
  rw [hnan]
  -- two equal encodings have the same value, as if the comparison had been made
  rcases lt_trichotomy (lhs.toRat - rhs.toRat) 0 with h | h | h
  · have hz := mt hzero.1 h.ne
    have hn := (hneg h.ne).2 h
    have hd := mt hdata h.ne
    have hlt := sub_neg.1 h
    simp [hz, hn, hd, hlt, hlt.ne, hlt.le]
  · have hz := hzero.2 h
    have heq := sub_eq_zero.1 h
    simp [hz, heq]
  · have hz := mt hzero.1 h.ne'
    have hn := mt (hneg h.ne').1 h.not_gt
    have hd := mt hdata h.ne'
    have hlt := sub_pos.1 h
    simp [hz, hn, hd, hlt, hlt.ne', hlt.le]

end Decimal

/-- The finite numbers. -/
abbrev FiniteDecimal := { d : Decimal // d.isFinite = true }

/-- The operators compare the rational numbers, so that numbers with one value are equal and the
values are in a strict total order. -/
theorem operators_compare_toRat :
    (∀ a b : FiniteDecimal, (a.1.eq b.1 = true ↔ a.1.toRat = b.1.toRat) ∧
      (a.1.ne b.1 = true ↔ a.1.toRat ≠ b.1.toRat) ∧ (a.1.lt b.1 = true ↔ a.1.toRat < b.1.toRat) ∧
      (a.1.le b.1 = true ↔ a.1.toRat ≤ b.1.toRat) ∧ (a.1.gt b.1 = true ↔ a.1.toRat > b.1.toRat) ∧
      (a.1.ge b.1 = true ↔ a.1.toRat ≥ b.1.toRat)) ∧
    Equivalence (fun a b : FiniteDecimal => a.1.eq b.1 = true) ∧
    (∀ a b c : FiniteDecimal, a.1.lt b.1 = true → b.1.lt c.1 = true → a.1.lt c.1 = true) ∧
    ∀ a b : FiniteDecimal, a.1.lt a.1 = false ∧
      (a.1.lt b.1 = true ∨ a.1.eq b.1 = true ∨ b.1.lt a.1 = true) := by
  have hiff (a b : FiniteDecimal) := Decimal.compare_iff a.2 b.2
  have heq (a b) := (hiff a b).1
  have hlt (a b) := (hiff a b).2.2.1
  refine ⟨hiff, ?_, ?_, ?_⟩
  · simp only [heq]
    exact ⟨fun _ => rfl, Eq.symm, Eq.trans⟩
  · simp only [hlt]
    exact fun _ _ _ => lt_trans
  · intro a b
    simp only [heq, hlt, ← Bool.not_eq_true]
    exact ⟨lt_irrefl _, lt_trichotomy _ _⟩

end WebKit.Platform
