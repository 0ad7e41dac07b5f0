import WebKit.Platform.DecimalCompare
import WebKit.WTF.MediaTime.Rescale

/-!
# Rounding decimal numbers

The digits after the point are dropped, and only the first one of them is looked at. So a fraction
that begins with a zero is missed, and a zero with digits after the point is taken for a fraction.
-/

namespace WebKit.Platform

open WTF.MediaTime

def Sign.toInt : Sign → ℤ
  | .positive => 1
  | .negative => -1

namespace Decimal

/-- The digits after the point are dropped. If there are more of them than digits, the result is
`allDropped`, and else the first one decides whether one is added. -/
def dropFraction (d allDropped : Decimal) (roundsUp : UInt64 → Bool) : Decimal :=
  if !d.isFinite then d
  else if 0 ≤ d.exponent then d
  else
    let numberOfDropDigits := (-d.exponent).toNat
    if countDigits d.coefficient < numberOfDropDigits then allDropped
    else
      let result := scaleDown d.coefficient (numberOfDropDigits - 1)
      let result := if roundsUp (result % 10) then result + 10 else result
      ofParts d.sign 0 (result / 10)

def ceiling (d : Decimal) : Decimal :=
  d.dropFraction (if d.isPositive then ofInt32 1 else zero .positive)
    fun digit => d.sign = .positive && digit > 0

def floor (d : Decimal) : Decimal :=
  d.dropFraction (if d.isPositive then zero .positive else ofInt32 (-1))
    fun digit => d.isNegative && digit > 0

def round (d : Decimal) : Decimal := d.dropFraction (zero .positive) fun digit => digit ≥ 5

/-- The quotient of a remainder without its fraction. -/
def wholeQuotient (quotient : Decimal) : Decimal :=
  if quotient.isNegative then quotient.ceiling else quotient.floor

/-- The remainder, or `none` if the division does not end. -/
def remainder (rounds : ℕ) (lhs rhs : Decimal) : Option Decimal := do
  let quotient ← lhs.div rounds rhs
  return if !quotient.isFinite then quotient else lhs.sub (quotient.wholeQuotient.mul rhs)

variable {d allDropped : Decimal} {roundsUp : UInt64 → Bool} (away : Bool) {n : ℕ}

section

variable (hfin : d.isFinite = true) (hall : allDropped.toRat = d.sign.toInt * away.toNat)

include hfin hall

end

variable (hfin : d.isFinite = true)

include hfin

end Decimal

end WebKit.Platform
