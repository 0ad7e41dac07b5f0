import WebKit.Platform.DecimalSum

/-!
# Products and quotients

A product is divided by ten until it has 64 bits. The long division brings down zeros until its
quotient has enough digits or nothing remains, and its quotient may wrap around before.
-/

namespace WebKit.Platform

open Decimal Nat

variable {rounds : ℕ}

variable {lhs rhs : Decimal}

variable {divisor : UInt64} {d : Decimal.Division} {zeros : ℕ}

variable {dividend k : ℕ}

section

variable (hpos : 0 < divisor.toNat) (hd : divisor.toNat < 10 ^ 17)

include hpos hd

end

lemma isZero_iff {d : Decimal} (h : d.isFinite = true) :
    d.isZero = true ↔ d.coefficient.toNat = 0 := by
  rw [isZero, decide_eq_true_iff, d.valid.isZero_iff h]
  exact UInt64.toNat_inj.symm

section

variable (hlhs : lhs.isFinite = true) (hrhs : rhs.isFinite = true)
  (hlhsZero : lhs.coefficient.toNat ≠ 0) (hrhsZero : rhs.coefficient.toNat ≠ 0)

include hlhs hrhs hlhsZero hrhsZero

end

/-- There is no such quotient of 1 and 999999999999, where the long division wraps around. -/
example : ((Decimal.ofParts .positive 0 1).div 40 (.ofParts .positive 0 999999999999)).map
    Decimal.data = some ⟨20037652052068966, -34, .normal, .positive⟩ := by
  decide +kernel

end WebKit.Platform
