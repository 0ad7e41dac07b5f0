import WebKit.Core.MagicDivision

/-!
# `computeDivisionMagic`

The multiplier and the shift that replace a signed division by a constant. The loop doubles the
modulus `2 ^ p` until the multiplier is precise enough, and keeps the quotients and the remainders
of `2 ^ p` in unsigned integers.
-/

namespace WebKit.B3

open MagicDivision
open Nat hiding pow_succ'
open BitVec hiding neg_neg two_mul

structure DivisionMagic (w : ℕ) where
  magicMultiplier : BitVec w
  shift : ℕ
  deriving DecidableEq

namespace DivisionMagic

variable {w : ℕ}

/-- The variables of the loop. -/
structure State (w : ℕ) where
  p : ℕ
  q1 : BitVec w
  r1 : BitVec w
  q2 : BitVec w
  r2 : BitVec w

def delta (ad : BitVec w) (s : State w) : BitVec w := ad - s.r2

/-- The quotient and the remainder of the doubled dividend. -/
def double (a q r : BitVec w) : BitVec w × BitVec w :=
  let q := q <<< 1
  let r := r <<< 1
  if a ≤ r then (q + 1, r - a) else (q, r)

def step (ad anc : BitVec w) (s : State w) : State w where
  p := s.p + 1
  q1 := (double anc s.q1 s.r1).1
  r1 := (double anc s.q1 s.r1).2
  q2 := (double ad s.q2 s.r2).1
  r2 := (double ad s.q2 s.r2).2

def again (ad : BitVec w) (s : State w) : Bool :=
  s.q1 < delta ad s || (s.q1 == delta ad s && s.r1 == 0)

/-- The `do` loop, for at most `fuel` rounds. -/
def loop (ad anc : BitVec w) : (fuel : ℕ) → State w → Option (State w)
  | 0, _ => none
  | fuel + 1, s =>
    let s := step ad anc s
    if again ad s then loop ad anc fuel s else some s

/-- The variable `ad`. Negating the least divisor is taken to wrap around. -/
def absDivisor (divisor : BitVec w) : BitVec w := if divisor.slt 0 then -divisor else divisor

/-- The variable `anc`: the absolute value of the greatest numerator, in absolute value, whose
remainder is one less than the divisor. -/
def absCritical (divisor : BitVec w) : BitVec w :=
  let t := BitVec.intMin w + divisor >>> (w - 1)
  t - 1 - t % absDivisor divisor

/-- The variables before the loop. -/
def initial (ad anc : BitVec w) : State w :=
  let signedMin := BitVec.intMin w
  let q1 := signedMin / anc
  let q2 := signedMin / ad
  ⟨w - 1, q1, signedMin - q1 * anc, q2, signedMin - q2 * ad⟩

end DivisionMagic

open DivisionMagic

def computeDivisionMagic {w : ℕ} (divisor : BitVec w) : Option (DivisionMagic w) := do
  let ad := absDivisor divisor
  let anc := absCritical divisor
  let s ← loop ad anc w (initial ad anc)
  let multiplier := s.q2 + 1
  return ⟨if divisor.slt 0 then -multiplier else multiplier, s.p - w⟩

namespace DivisionMagic

/-! ### One round -/

/-- What the loop uses of the divisor and of the bound on the numerator: `B` is half of the number
of machine integers. -/
structure Params (B ad anc : ℕ) : Prop where
  two_le : 2 ≤ ad
  le : ad ≤ B
  dvd : ad ∣ anc + 1
  anc_le : anc ≤ B
  le_add : B ≤ anc + ad
  odd : anc = B → ¬ 2 ∣ ad

/-- The modulus `2 ^ p` is not great enough. -/
def Coarse (ad anc p : ℕ) : Prop := 2 ^ p ≤ anc * (ad - 2 ^ p % ad)

lemma Coarse.le_mul {ad anc p : ℕ} (h : Coarse ad anc p) : 2 ^ p ≤ anc * ad :=
  h.trans (mul_le_mul_left _ (sub_le _ _))

structure Inv (ad anc : BitVec w) (s : State w) : Prop where
  q1 : s.q1.toNat = 2 ^ s.p / anc.toNat
  r1 : s.r1.toNat = 2 ^ s.p % anc.toNat
  q2 : s.q2.toNat = 2 ^ s.p / ad.toNat
  r2 : s.r2.toNat = 2 ^ s.p % ad.toNat

variable {ad anc : BitVec w} {s : State w}

section

variable (hw : 3 ≤ w)

include hw

lemma two_pow_eq : 2 ^ w = 2 * 2 ^ (w - 1) ∧ 2 ^ 2 ≤ 2 ^ (w - 1) := by
  rw [← pow_succ', Nat.sub_add_cancel (by omega)]
  exact ⟨rfl, Nat.pow_le_pow_right (by decide) (by omega)⟩

lemma toNat_signedMin : (BitVec.intMin w).toNat = 2 ^ (w - 1) := by
  rw [toNat_intMin, mod_eq_of_lt (Nat.pow_lt_pow_right (by decide) (by omega))]

end

lemma toNat_one (h : 1 < 2 ^ w) : (1 : BitVec w).toNat = 1 := mod_eq_of_lt h

lemma double_spec {a q r : BitVec w} {P : ℕ} (ha : 0 < a.toNat) (hq : q.toNat = P / a.toNat)
    (hr : r.toNat = P % a.toNat) (hroom : 2 * (P / a.toNat) + 1 < 2 ^ w)
    (ha' : 2 * a.toNat ≤ 2 ^ w) :
    (double a q r).1.toNat = 2 * P / a.toNat ∧ (double a q r).2.toNat = 2 * P % a.toNat := by
  have hmod := mod_lt P ha
  have hq2 : (q <<< 1).toNat = 2 * (P / a.toNat) := by
    rw [toNat_shiftLeft, hq, Nat.shiftLeft_eq, Nat.mul_comm, mod_eq_of_lt (by omega)]
  have hr2 : (r <<< 1).toNat = 2 * (P % a.toNat) := by
    rw [toNat_shiftLeft, hr, Nat.shiftLeft_eq, Nat.mul_comm, mod_eq_of_lt (by omega)]
  have hone := toNat_one (w := w) (by omega)
  rw [two_mul_div P ha, two_mul_mod P ha]
  simp only [double, le_def, hr2]
  split_ifs with h
  · refine ⟨?_, ?_⟩
    · rw [toNat_add_of_lt (by rw [hq2, hone]; exact hroom), hq2, hone]
    · rw [toNat_sub_of_le (by rw [le_def, hr2]; exact h), hr2]
  · exact ⟨hq2, hr2⟩

lemma Inv.again_iff (h : Inv ad anc s) (had : 0 < ad.toNat) (hanc : 0 < anc.toNat) :
    again ad s = true ↔ Coarse ad.toNat anc.toNat s.p := by
  have hmod := mod_lt (2 ^ s.p) had
  have hmod' := mod_lt (2 ^ s.p) hanc
  have hdiv := div_add_mod (2 ^ s.p) anc.toNat
  have hdelta : (delta ad s).toNat = ad.toNat - 2 ^ s.p % ad.toNat := by
    rw [delta, toNat_sub_of_le (by rw [le_def, h.r2]; exact hmod.le), h.r2]
  have hagain : again ad s = true ↔ s.q1.toNat < (delta ad s).toNat ∨
      s.q1.toNat = (delta ad s).toNat ∧ s.r1.toNat = 0 := by
    simp [again, lt_def, ← toNat_inj]
  rw [hagain, hdelta, h.q1, h.r1, Coarse]
  constructor
  · rintro (hlt | ⟨heq, hzero⟩)
    · calc 2 ^ s.p ≤ anc.toNat * (2 ^ s.p / anc.toNat + 1) := by rw [Nat.mul_add]; omega
        _ ≤ anc.toNat * (ad.toNat - 2 ^ s.p % ad.toNat) := mul_le_mul_left _ hlt
    · rw [← heq]
      omega
  · intro hle
    rcases Nat.lt_trichotomy (2 ^ s.p / anc.toNat) (ad.toNat - 2 ^ s.p % ad.toNat) with
      hlt | heq | hgt
    · exact .inl hlt
    · rw [← heq] at hle
      exact .inr ⟨heq, by omega⟩
    · have := mul_le_mul_left anc.toNat (succ_le_of_lt hgt)
      rw [Nat.mul_succ] at this
      omega

/-! ### The loop -/

section

variable {k ad anc p : ℕ} (h : Params (2 ^ k) ad anc)

include h

lemma Params.ad_le : ad ≤ anc + 1 := le_of_dvd (succ_pos _) h.dvd

lemma Params.anc_pos : 0 < anc := by
  have := h.ad_le
  have := h.two_le
  omega

lemma Params.two_dvd_of_dvd_two_pow (hdvd : ad ∣ 2 ^ p) : 2 ∣ ad := by
  obtain ⟨j, -, rfl⟩ := (dvd_prime_pow prime_two).1 hdvd
  have hj : j ≠ 0 := by
    rintro rfl
    exact absurd h.two_le (by decide)
  exact dvd_pow_self 2 hj

/-- A great enough modulus is found in time. -/
lemma Params.lt_of_coarse (hp : Coarse ad anc p) : p < 2 * k + 1 := by
  have hle : 2 ^ p ≤ 2 ^ (2 * k) := by
    calc 2 ^ p ≤ anc * ad := hp.le_mul
      _ ≤ 2 ^ k * 2 ^ k := Nat.mul_le_mul h.anc_le h.le
      _ = 2 ^ (2 * k) := by rw [← pow_add, two_mul]
  exact lt_succ_of_le ((Nat.pow_le_pow_iff_right (by decide)).1 hle)

/-- While the loop goes on, there is room to double the quotients. -/
lemma Params.div_lt (hk : 2 ≤ k) (hp : p = k ∨ Coarse ad anc p) :
    2 ^ p / anc < 2 ^ k ∧ 2 ^ p / ad < 2 ^ k := by
  have hB : 2 ^ 2 ≤ 2 ^ k := Nat.pow_le_pow_right (by decide) hk
  have hle := h.le
  have hanc := h.anc_le
  have hadd := h.le_add
  have had := h.ad_le
  rcases hp with rfl | hp
  · exact ⟨div_lt_self (by omega) (by omega), div_lt_self (by omega) h.two_le⟩
  have hmul := hp.le_mul
  constructor
  · by_contra hge
    have hquot : 2 ^ p / anc ≤ ad := Nat.div_le_of_le_mul hmul
    obtain rfl : ad = 2 ^ k := by omega
    -- the divisor is the least integer, and `anc` is one less
    have hne : anc ≠ 2 ^ k := fun heq => h.odd heq (dvd_pow_self 2 (by omega))
    obtain rfl : anc = 2 ^ k - 1 := by omega
    have hlow : 2 ^ k * (2 ^ k - 1) ≤ 2 ^ p :=
      (mul_le_mul_right _ (not_lt.1 hge)).trans (div_mul_le_self _ _)
    have hpow : 2 ^ p < 2 ^ (2 * k) := by
      rw [two_mul, pow_add]
      exact hmul.trans_lt ((Nat.mul_lt_mul_right (by omega)).2 (by omega))
    have hdbl : 2 ^ (p + 1) ≤ 2 ^ (2 * k) :=
      Nat.pow_le_pow_right (by decide) ((Nat.pow_lt_pow_iff_right (by decide)).1 hpow)
    rw [pow_succ, two_mul, pow_add] at hdbl
    have : 2 ^ k * (2 * (2 ^ k - 1)) ≤ 2 ^ k * 2 ^ k := by
      calc 2 ^ k * (2 * (2 ^ k - 1)) = 2 ^ k * (2 ^ k - 1) * 2 := by ring
        _ ≤ 2 ^ k * 2 ^ k := (mul_le_mul_right 2 hlow).trans hdbl
    have := Nat.le_of_mul_le_mul_left this (by omega)
    omega
  · by_contra hge
    have hquot : 2 ^ p / ad ≤ anc := Nat.div_le_of_le_mul (by rwa [Nat.mul_comm])
    obtain rfl : anc = 2 ^ k := by omega
    have hlow : 2 ^ k * ad ≤ 2 ^ p :=
      (mul_le_mul_right _ (not_lt.1 hge)).trans (div_mul_le_self _ _)
    have hdvd : ad ∣ 2 ^ p := ⟨2 ^ k, by rw [Nat.mul_comm]; exact le_antisymm hmul hlow⟩
    exact h.odd rfl (h.two_dvd_of_dvd_two_pow hdvd)

end

lemma inv_initial (hw : 3 ≤ w) (ad anc : BitVec w) : Inv ad anc (initial ad anc) := by
  have hmin := toNat_signedMin hw
  have key : ∀ a, (BitVec.intMin w / a).toNat = 2 ^ (w - 1) / a.toNat ∧
      (BitVec.intMin w - BitVec.intMin w / a * a).toNat = 2 ^ (w - 1) % a.toNat := by
    intro a
    have hle := div_mul_le_self (2 ^ (w - 1)) a.toNat
    have hquot : (BitVec.intMin w / a).toNat = 2 ^ (w - 1) / a.toNat := by
      rw [toNat_udiv, hmin]
    have hmul : (BitVec.intMin w / a * a).toNat = 2 ^ (w - 1) / a.toNat * a.toNat := by
      rw [toNat_mul_of_lt (by rw [hquot]; omega), hquot]
    refine ⟨hquot, ?_⟩
    rw [toNat_sub_of_le (by rw [le_def, hmul, hmin]; exact hle), hmul, hmin,
      Nat.mul_comm, ← mod_eq_sub]
  exact ⟨(key anc).1, (key anc).2, (key ad).1, (key ad).2⟩

section

variable (hw : 3 ≤ w) (hpar : Params (2 ^ (w - 1)) ad.toNat anc.toNat)

include hw hpar

lemma Inv.step (h : Inv ad anc s) (hp : s.p = w - 1 ∨ Coarse ad.toNat anc.toNat s.p) :
    Inv ad anc (step ad anc s) := by
  have hpow := (two_pow_eq hw).1
  obtain ⟨hroom1, hroom2⟩ := hpar.div_lt (by omega) hp
  have hanc := hpar.anc_le
  have had := hpar.le
  have had2 := hpar.two_le
  obtain ⟨hq1, hr1⟩ := double_spec hpar.anc_pos h.q1 h.r1 (by omega) (by omega)
  obtain ⟨hq2, hr2⟩ := double_spec (by omega) h.q2 h.r2 (by omega) (by omega)
  rw [← pow_succ'] at hq1 hr1 hq2 hr2
  exact ⟨hq1, hr1, hq2, hr2⟩

lemma succ_lt_of_coarse {p : ℕ} (hp : p = w - 1 ∨ Coarse ad.toNat anc.toNat p) : p + 1 < 2 * w := by
  rcases hp with rfl | hp
  · omega
  · have := hpar.lt_of_coarse hp
    omega

/-- The loop ends with the first modulus that is great enough. -/
lemma loop_spec (fuel : ℕ) (h : Inv ad anc s) (hp : s.p = w - 1 ∨ Coarse ad.toNat anc.toNat s.p)
    (hle : w - 1 ≤ s.p) (hfuel : 2 * w ≤ s.p + fuel + 1) :
    ∃ s', loop ad anc fuel s = some s' ∧ Inv ad anc s' ∧ ¬ Coarse ad.toNat anc.toNat s'.p ∧
      w ≤ s'.p ∧ s'.p < 2 * w ∧ (s'.p = w ∨ Coarse ad.toNat anc.toNat (s'.p - 1)) := by
  have hlt := succ_lt_of_coarse hw hpar hp
  induction fuel generalizing s with
  | zero => omega
  | succ fuel ih =>
    have hstep := h.step hw hpar hp
    have hstep_p : (DivisionMagic.step ad anc s).p = s.p + 1 := rfl
    simp only [loop]
    have hagain := hstep.again_iff (by have := hpar.two_le; omega) hpar.anc_pos
    by_cases hcrs : Coarse ad.toNat anc.toNat (s.p + 1)
    · rw [if_pos (hagain.2 hcrs)]
      exact ih hstep (.inr hcrs) (by omega) (by omega) (succ_lt_of_coarse hw hpar (.inr hcrs))
    · rw [if_neg (mt hagain.1 hcrs)]
      refine ⟨_, rfl, hstep, hcrs, by omega, by omega, ?_⟩
      rcases hp with hp | hp
      · exact .inl (by omega)
      · exact .inr hp

lemma multiplier_lt {p : ℕ} (hfine : ¬ Coarse ad.toNat anc.toNat p) (hle : w ≤ p)
    (hprev : p = w ∨ Coarse ad.toNat anc.toNat (p - 1)) : 2 ^ p / ad.toNat + 1 < 2 ^ w := by
  obtain ⟨hpow, hB⟩ := two_pow_eq hw
  rcases hprev with rfl | hprev
  · have := div_le_div_left (a := 2 ^ p) hpar.two_le (by decide)
    omega
  · have hrec := reciprocal_of_lt (by have := hpar.two_le; omega) hpar.dvd (not_le.1 hfine)
    rw [show 2 ^ p = 2 * 2 ^ (p - 1) by rw [← pow_succ', Nat.sub_add_cancel (by omega)]] at hrec ⊢
    rw [hpow]
    exact hrec.multiplier_lt hprev hpar.anc_le hpar.le
      fun heq hdvd => hpar.odd heq (hpar.two_dvd_of_dvd_two_pow hdvd)

end

/-! ### The result -/

variable {d : BitVec w}

/-- A divisor, or the two's complement of a negative one. -/
lemma toNat_cases (d : BitVec w) :
    d.toInt < 0 ∧ d.toNat = 2 ^ w - d.toInt.natAbs ∧ d.toInt.natAbs ≤ 2 ^ w ∧ 2 ^ w ≤ 2 * d.toNat ∨
      0 ≤ d.toInt ∧ d.toNat = d.toInt.natAbs ∧ 2 * d.toNat < 2 ^ w := by
  rw [toInt_eq_toNat_cond]
  split_ifs with hcond
  · omega
  · omega

lemma slt_zero_iff : d.slt 0 = true ↔ d.toInt < 0 := by
  rw [slt_iff_toInt_lt]
  rw [show (0 : BitVec w).toInt = 0 from toInt_zero]

lemma toNat_absDivisor (d : BitVec w) : (absDivisor d).toNat = d.toInt.natAbs := by
  rw [absDivisor]
  rcases toNat_cases d with ⟨h, heq, hle, hge⟩ | ⟨h, heq, -⟩
  · have hlt : d.toInt.natAbs < 2 ^ w := by omega
    rw [if_pos (slt_zero_iff.2 h), toNat_neg, heq, Nat.sub_sub_self hle, mod_eq_of_lt hlt]
  · rw [if_neg (mt slt_zero_iff.1 h.not_gt), heq]

lemma natAbs_le (d : BitVec w) : d.toInt.natAbs ≤ 2 ^ (w - 1) := by
  have hlow := le_toInt d
  have hhigh := toInt_lt (x := d)
  have hcast : ((2 ^ (w - 1) : ℕ) : ℤ) = 2 ^ (w - 1) := by push_cast; rfl
  omega

lemma toNat_absCritical (hw : 3 ≤ w) (hd : 2 ≤ d.toInt.natAbs) :
    (absCritical d).toNat + 1 =
      (2 ^ (w - 1) + if d.toInt < 0 then 1 else 0) -
        (2 ^ (w - 1) + if d.toInt < 0 then 1 else 0) % d.toInt.natAbs := by
  obtain ⟨hpow, hB⟩ := two_pow_eq hw
  have hsign : (d >>> (w - 1)).toNat = if d.toInt < 0 then 1 else 0 := by
    rw [toNat_ushiftRight, shiftRight_eq_div_pow]
    rcases toNat_cases d with ⟨h, -, -, hge⟩ | ⟨h, -, hlt⟩
    · rw [if_pos h]
      exact Nat.div_eq_of_lt_le (by omega) (by omega)
    · rw [if_neg h.not_gt]
      exact div_eq_of_lt (by omega)
  have hmin := toNat_signedMin hw
  have ht : (BitVec.intMin w + d >>> (w - 1)).toNat =
      2 ^ (w - 1) + if d.toInt < 0 then 1 else 0 := by
    rw [toNat_add_of_lt, hmin, hsign]
    rw [hsign]
    split_ifs <;> omega
  have hone := toNat_one (w := w) (by omega)
  simp only [absCritical]
  generalize BitVec.intMin w + d >>> (w - 1) = t at ht
  rw [← ht]
  have hmod : t.toNat % d.toInt.natAbs < d.toInt.natAbs := mod_lt _ (by omega)
  have hle := natAbs_le d
  have hpred : (t - 1).toNat = t.toNat - 1 := by
    rw [toNat_sub_of_le (by rw [le_def]; omega), hone]
  have hrem : (t % absDivisor d).toNat = t.toNat % d.toInt.natAbs := by
    simp [toNat_absDivisor]
  rw [toNat_sub_of_le (by rw [le_def]; omega)]
  omega

lemma params (hw : 3 ≤ w) (hd : 2 ≤ d.toInt.natAbs) :
    Params (2 ^ (w - 1)) (absDivisor d).toNat (absCritical d).toNat := by
  have hcrit := toNat_absCritical hw hd
  have hle := natAbs_le d
  rw [toNat_absDivisor]
  generalize hsign : (if d.toInt < 0 then 1 else 0) = e at hcrit
  have he : e ≤ 1 := by
    rw [← hsign]
    split_ifs <;> decide
  have hmod := mod_lt (2 ^ (w - 1) + e) (show 0 < d.toInt.natAbs by omega)
  have hdiv := div_add_mod (2 ^ (w - 1) + e) d.toInt.natAbs
  refine ⟨hd, hle, ⟨_, hcrit.trans (Nat.sub_eq_of_eq_add hdiv.symm)⟩, by omega, by omega, ?_⟩
  intro heq htwo
  -- the critical value is `B` only if the divisor divides the odd number `B + 1`
  have hdvd : d.toInt.natAbs ∣ 2 ^ (w - 1) + 1 := by
    rw [← heq, hcrit]
    exact ⟨_, Nat.sub_eq_of_eq_add hdiv.symm⟩
  have hodd : 2 ∣ 2 ^ (w - 1) + 1 := htwo.trans hdvd
  have heven : 2 ∣ 2 ^ (w - 1) := dvd_pow_self 2 (by omega)
  omega

end DivisionMagic

/-- What the result means for a divisor of absolute value `ad`. -/
structure DivisionMagic.Approximates {w : ℕ} (mag : DivisionMagic w) (divisor : BitVec w)
    (p M δ nc : ℕ) : Prop where
  reciprocal : Reciprocal divisor.toInt.natAbs (2 ^ p) M δ nc
  lt : M < 2 ^ w
  le : w ≤ p
  shift_eq : mag.shift = p - w
  shift_lt : mag.shift < w
  range : 2 ^ (w - 1) ≤ nc + divisor.toInt.natAbs
  range_neg : divisor.toInt < 0 → 2 ^ (w - 1) < nc + divisor.toInt.natAbs
  multiplier : mag.magicMultiplier =
    if divisor.toInt < 0 then -BitVec.ofNat w M else BitVec.ofNat w M

/-- The multiplier is an upper approximation of `2 ^ p / |d|` that is precise enough for
every numerator, and fits. -/
theorem computeDivisionMagic_spec {w : ℕ} (hw : 3 ≤ w) (d : BitVec w) (hd : 2 ≤ d.toInt.natAbs) :
    ∃ mag p M δ nc, computeDivisionMagic d = some mag ∧ mag.Approximates d p M δ nc := by
  have hpar := params hw hd
  obtain ⟨s, hs, hinv, hfine, hle, hlt, hprev⟩ :=
    loop_spec hw hpar w (inv_initial hw _ _) (.inl rfl) le_rfl (by simp only [initial]; omega)
  have hrec := reciprocal_of_lt (by have := hpar.two_le; omega) hpar.dvd (not_le.1 hfine)
  have hM := multiplier_lt hw hpar hfine hle hprev
  have hq : s.q2 + 1 = BitVec.ofNat w (2 ^ s.p / (absDivisor d).toNat + 1) := by
    rw [ofNat_add, ← hinv.q2, ofNat_toNat, setWidth_eq]
    rfl
  have hrng := hpar.le_add
  rw [toNat_absDivisor] at hrec hM hq hrng
  refine ⟨⟨if d.slt 0 then -(s.q2 + 1) else s.q2 + 1, s.p - w⟩, s.p, _, _, _, ?_, hrec, hM,
    hle, rfl, by dsimp only; omega, hrng, ?_, ?_⟩
  · simp only [computeDivisionMagic, hs]
    rfl
  · intro hneg
    have hcrit := toNat_absCritical hw hd
    rw [if_pos hneg] at hcrit
    have := mod_lt (2 ^ (w - 1) + 1) (show 0 < d.toInt.natAbs by omega)
    omega
  · simp only [slt_zero_iff, hq]

namespace DivisionMagic

/-! ### Division by the multiplier -/

/-- The high half of a signed product. -/
lemma toInt_high_mul (n m : BitVec 32) :
    (((n.signExtend 64 * m.signExtend 64) >>> 32).setWidth 32).toInt =
      n.toInt * m.toInt / 2 ^ 32 := by
  have hn := le_toInt n
  have hn' := toInt_lt (x := n)
  have hm := le_toInt m
  have hm' := toInt_lt (x := m)
  have hprod : (n.signExtend 64 * m.signExtend 64).toInt = n.toInt * m.toInt := by
    rw [toInt_mul, toInt_signExtend_of_le (by decide), toInt_signExtend_of_le (by decide)]
    apply Int.bmod_eq_of_le <;> norm_num at * <;> nlinarith
  rw [← hprod]
  simp only [toInt_eq_toNat_cond, toNat_setWidth, toNat_ushiftRight]
  split_ifs <;> omega

/-- Adding the sign bit rounds a negative number up. -/
lemma toInt_add_sign (q : BitVec 32) :
    (q + q >>> 31).toInt = if q.toInt < 0 then q.toInt + 1 else q.toInt := by
  simp only [toInt_eq_toNat_cond, toNat_add, toNat_ushiftRight]
  split_ifs <;> omega

/-- The high product, corrected when the multiplier does not fit into a signed integer. -/
def corrected (multiplier divisor n q : BitVec 32) : BitVec 32 :=
  if 0 < divisor.toInt ∧ multiplier.toInt < 0 then q + n
  else if divisor.toInt < 0 ∧ 0 < multiplier.toInt then q - n
  else q

lemma high_bounds {n K : ℤ} (hn : -2 ^ 31 ≤ n) (hn' : n < 2 ^ 31) (hK : |K| < 2 ^ 32) :
    -2 ^ 31 ≤ n * K / 2 ^ 32 ∧ n * K / 2 ^ 32 < 2 ^ 31 := by
  obtain ⟨hK₁, hK₂⟩ := abs_lt.1 hK
  rw [Int.le_ediv_iff_mul_le (by decide), Int.ediv_lt_iff_lt_mul (by decide)]
  constructor <;> nlinarith

variable {q : BitVec 32}

lemma toInt_corrected {d n m : BitVec 32} {M : ℕ} (hM : 0 < M) (hlt : M < 2 ^ 32) (hd : d.toInt ≠ 0)
    (hmul : m = if d.toInt < 0 then -BitVec.ofNat 32 M else BitVec.ofNat 32 M)
    (hq : q.toInt = n.toInt * m.toInt / 2 ^ 32) :
    (corrected m d n q).toInt = n.toInt * (if d.toInt < 0 then -(M : ℤ) else M) / 2 ^ 32 := by
  have hn := le_toInt n
  have hn' := toInt_lt (x := n)
  have hbd := high_bounds (K := if d.toInt < 0 then -M else M) hn hn'
    (by split_ifs <;> [rw [abs_neg]; skip] <;> rw [abs_cast] <;> exact_mod_cast hlt)
  by_cases hneg : d.toInt < 0
  · rw [if_pos hneg] at hmul hbd ⊢
    have hval : m.toInt = -M ∧ m.toInt ≤ 0 ∨ m.toInt = 2 ^ 32 - M ∧ 0 < m.toInt := by
      rw [hmul, toInt_eq_toNat_cond, toNat_neg, toNat_ofNat]
      split_ifs <;> omega
    rw [corrected, if_neg (by omega)]
    rcases hval with ⟨hval, hle⟩ | ⟨hval, hpos⟩
    · rw [if_neg (by omega), hq, hval]
    · rw [if_pos ⟨hneg, hpos⟩, toInt_sub, hq, hval,
        show n.toInt * (2 ^ 32 - M) = n.toInt * -M + n.toInt * 2 ^ 32 by ring,
        Int.add_mul_ediv_right _ _ (by decide), add_sub_cancel_right]
      exact Int.bmod_eq_of_le (by omega) (by omega)
  · rw [if_neg hneg] at hmul hbd ⊢
    have hval : m.toInt = M ∧ 0 ≤ m.toInt ∨ m.toInt = M - 2 ^ 32 ∧ m.toInt < 0 := by
      rw [hmul, toInt_eq_toNat_cond, toNat_ofNat]
      split_ifs <;> omega
    rw [corrected]
    rcases hval with ⟨hval, hle⟩ | ⟨hval, hlt⟩
    · rw [if_neg (by omega), if_neg (by omega), hq, hval]
    · rw [if_pos ⟨by omega, hlt⟩, toInt_add, hq, hval,
        show n.toInt * (M - 2 ^ 32) = n.toInt * M + -n.toInt * 2 ^ 32 by ring,
        Int.add_mul_ediv_right _ _ (by decide), neg_add_cancel_right]
      exact Int.bmod_eq_of_le (by omega) (by omega)

variable {mag : DivisionMagic 32} {d : BitVec 32} {p M δ nc : ℕ}

/-- The correction by the sign bit. -/
def roundUp (q : ℤ) : ℤ := if q < 0 then q + 1 else q

lemma roundUp_mul_ediv {d : ℕ} (h : Reciprocal d (2 ^ p) M δ nc) {k : ℕ} (hk : k < nc + d) :
    roundUp (k * M / 2 ^ p) = k / d := by
  have heq : (k * M : ℤ) / 2 ^ p = (k * M / 2 ^ p : ℕ) := by push_cast; rfl
  rw [heq, h.mul_div hk, roundUp, if_neg (not_lt.2 (Int.natCast_nonneg _)), Int.natCast_ediv]

lemma roundUp_neg_mul_ediv {d : ℕ} (h : Reciprocal d (2 ^ p) M δ nc) {k : ℕ}
    (hk : k < nc + d ∨ k ≤ nc + d ∧ k ∣ 2 ^ p) : roundUp (-(k * M) / 2 ^ p) = -(k / d : ℤ) := by
  rcases Nat.eq_zero_or_pos k with rfl | hpos
  · simp [roundUp]
  have heq := h.neg_mul_ediv hpos hk
  push_cast at heq
  have hnonneg : (0 : ℤ) ≤ k / d := Int.natCast_ediv k d ▸ Int.natCast_nonneg _
  rw [heq, roundUp, if_pos (by omega)]
  ring

/-- The product rounds towards minus infinity, and the sign bit corrects it to a division that
rounds towards zero. -/
lemma Approximates.roundUp_eq (h : mag.Approximates d p M δ nc) (n : BitVec 32) :
    roundUp (n.toInt * (if d.toInt < 0 then -(M : ℤ) else M) / 2 ^ p) = n.toInt.tdiv d.toInt := by
  have hrng := h.range
  have hrng' := h.range_neg
  have hn := le_toInt n
  have hn' := toInt_lt (x := n)
  have hdvd : 2 ^ 31 ∣ 2 ^ p := pow_dvd_pow 2 (by have := h.le; omega)
  have hrec := h.reciprocal
  obtain ⟨k, hk⟩ := Int.eq_nat_or_neg n.toInt
  by_cases hneg : d.toInt < 0
  · have hd : d.toInt = -d.toInt.natAbs := by omega
    rw [if_pos hneg, hd, Int.tdiv_neg]
    rcases hk with hk | hk
    · rw [hk, mul_neg, roundUp_neg_mul_ediv hrec (.inl (by omega)),
        Int.tdiv_eq_ediv_of_nonneg (Int.natCast_nonneg k)]
    · rw [hk, neg_mul_neg, roundUp_mul_ediv hrec (by omega), Int.neg_tdiv, neg_neg,
        Int.tdiv_eq_ediv_of_nonneg (Int.natCast_nonneg k)]
  · have hd : d.toInt = d.toInt.natAbs := by omega
    rw [if_neg hneg, hd]
    rcases hk with hk | hk
    · rw [hk, roundUp_mul_ediv hrec (by omega), Int.tdiv_eq_ediv_of_nonneg (Int.natCast_nonneg k)]
    · have hkdvd : k < nc + d.toInt.natAbs ∨ k ≤ nc + d.toInt.natAbs ∧ k ∣ 2 ^ p := by
        rcases Nat.lt_or_ge k (2 ^ 31) with hlt | hge
        · exact .inl (by omega)
        · obtain rfl : k = 2 ^ 31 := by omega
          exact .inr ⟨by omega, hdvd⟩
      simp [hk, roundUp_neg_mul_ediv hrec hkdvd]

/-- Multiplying, shifting and rounding gives the quotient. -/
theorem Approximates.sdiv_eq (h : mag.Approximates d p M δ nc) (hd : 2 ≤ d.toInt.natAbs)
    (n : BitVec 32) (hq : q = (corrected mag.magicMultiplier d n
      (((n.signExtend 64 * mag.magicMultiplier.signExtend 64) >>> 32).setWidth 32)).sshiftRight
        mag.shift) : q + q >>> 31 = n.sdiv d := by
  have hpow : (2 : ℤ) ^ 32 * (2 ^ mag.shift : ℕ) = 2 ^ p := by
    rw [Nat.cast_pow, Nat.cast_ofNat, ← pow_add, h.shift_eq, Nat.add_sub_cancel' h.le]
  have hquot : q.toInt = n.toInt * (if d.toInt < 0 then -(M : ℤ) else M) / 2 ^ p := by
    rw [hq, toInt_sshiftRight, Int.shiftRight_eq_div_pow,
      toInt_corrected h.reciprocal.multiplier_pos h.lt (by omega) h.multiplier (toInt_high_mul n _),
      Int.ediv_ediv_of_nonneg (by decide), hpow]
  have hne : d ≠ -1#32 := by
    rintro rfl
    exact absurd hd (by decide)
  apply eq_of_toInt_eq
  rw [toInt_add_sign, toInt_sdiv_of_ne_or_ne _ _ (.inr hne), hquot, ← h.roundUp_eq n]
  rfl

end DivisionMagic

end WebKit.B3
