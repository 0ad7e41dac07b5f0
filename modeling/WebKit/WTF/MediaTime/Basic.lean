import WebKit.WTF.CheckedArithmetic

/-!
# Media times

`MediaTime` of `MediaTime.cpp`: a rational with a 64-bit numerator and a 32-bit time scale, and the
flags that make it rounded, infinite, indefinite, invalid or a double.

The value and the double share their storage; the double is read from the bits of the value. Where
the source divides by zero or increments past the range of `int64_t` there is no result, `none`.
Rescaling follows the branch without 128-bit integers, which all but the Darwin ports build; the
other branch is `setTimeScaleInt128`.
-/

namespace WebKit.WTF

/-- The bits of `m_timeFlags`. -/
structure TimeFlags where
  valid : Bool
  hasBeenRounded : Bool
  positiveInfinite : Bool
  negativeInfinite : Bool
  indefinite : Bool
  doubleValue : Bool
  deriving DecidableEq, Repr

namespace TimeFlags

def and (a b : TimeFlags) : TimeFlags :=
  ⟨a.valid && b.valid, a.hasBeenRounded && b.hasBeenRounded,
    a.positiveInfinite && b.positiveInfinite, a.negativeInfinite && b.negativeInfinite,
    a.indefinite && b.indefinite, a.doubleValue && b.doubleValue⟩

def or (a b : TimeFlags) : TimeFlags :=
  ⟨a.valid || b.valid, a.hasBeenRounded || b.hasBeenRounded,
    a.positiveInfinite || b.positiveInfinite, a.negativeInfinite || b.negativeInfinite,
    a.indefinite || b.indefinite, a.doubleValue || b.doubleValue⟩

/-- The flags `Valid`. -/
def onlyValid : TimeFlags := ⟨true, false, false, false, false, false⟩

end TimeFlags

structure MediaTime where
  timeValue : Int64
  timeScale : UInt32
  timeFlags : TimeFlags
  deriving DecidableEq

/-- `greatestCommonDivisor`, by Euclid's algorithm. -/
def greatestCommonDivisor (a b : UInt32) : UInt32 :=
  if b = 0 then a else greatestCommonDivisor b (a % b)
termination_by b.toNat
decreasing_by
  rename_i hb
  rw [UInt32.toNat_mod]
  exact Nat.mod_lt _ (Nat.pos_of_ne_zero fun h => hb (UInt32.toNat_inj.1 h))

def leastCommonMultiple (a b : UInt32) : Option UInt32 :=
  safeMultiplyUnsigned a (b / greatestCommonDivisor a b)

namespace MediaTime

inductive ComparisonFlags
  | lessThan
  | equalTo
  | greaterThan
  deriving DecidableEq, Repr

inductive RoundingFlags
  | halfAwayFromZero
  | towardZero
  | awayFromZero
  | towardPositiveInfinity
  | towardNegativeInfinity
  deriving DecidableEq, Repr

def DefaultTimeScale : UInt32 := 10000000

def MaximumTimeScale : UInt32 := 0x7fffffff

def isValid (t : MediaTime) : Bool := t.timeFlags.valid

def isInvalid (t : MediaTime) : Bool := !t.isValid

def isPositiveInfinite (t : MediaTime) : Bool := t.timeFlags.positiveInfinite

def isNegativeInfinite (t : MediaTime) : Bool := t.timeFlags.negativeInfinite

def isIndefinite (t : MediaTime) : Bool := t.timeFlags.indefinite

def hasDoubleValue (t : MediaTime) : Bool := t.timeFlags.doubleValue

def invalidTime : MediaTime := ⟨-1, 1, ⟨false, false, false, false, false, false⟩⟩

def positiveInfiniteTime : MediaTime := ⟨0, 1, ⟨true, false, true, false, false, false⟩⟩

def negativeInfiniteTime : MediaTime := ⟨-1, 1, ⟨true, false, false, true, false, false⟩⟩

def indefiniteTime : MediaTime := ⟨0, 1, ⟨true, false, false, false, true, false⟩⟩

/-- The time scale where it meets a value: an `int64_t`. -/
def scaleValue (timeScale : UInt32) : Int64 := timeScale.toUInt64.toInt64

/-! ### Doubles -/

def timeValueAsDouble (t : MediaTime) : Float := Float.ofBits t.timeValue.toUInt64

def toDouble (t : MediaTime) : Float :=
  if t.isInvalid || t.isIndefinite then 0 / 0
  else if t.isPositiveInfinite then 1 / 0
  else if t.isNegativeInfinite then -1 / 0
  else if t.hasDoubleValue then t.timeValueAsDouble
  else t.timeValue.toFloat / t.timeScale.toFloat

/-- `createWithDouble` without a time scale. -/
def createWithDouble (doubleTime : Float) : MediaTime :=
  if doubleTime.isNaN then invalidTime
  else if doubleTime.isInf then
    if doubleTime < 0 then negativeInfiniteTime else positiveInfiniteTime
  else ⟨doubleTime.toBits.toInt64, DefaultTimeScale, ⟨true, false, false, false, false, true⟩⟩

/-- The loop that halves the time scale while the product is past the range of `int64_t`; the scale
is zero after 32 steps, and the product with it. -/
def halveTimeScale (doubleTime : Float) : ℕ → UInt32 → UInt32
  | 0, timeScale => timeScale
  | fuel + 1, timeScale =>
    if doubleTime * timeScale.toFloat > Int64.maxValue.toFloat then
      halveTimeScale doubleTime fuel (timeScale / 2)
    else timeScale

/-- `createWithDouble` with a time scale. -/
def createWithDoubleAndScale (doubleTime : Float) (timeScale : UInt32) : MediaTime :=
  if doubleTime.isNaN then invalidTime
  else if doubleTime.isInf then
    if doubleTime < 0 then negativeInfiniteTime else positiveInfiniteTime
  else if doubleTime > Int64.maxValue.toFloat then positiveInfiniteTime
  else if doubleTime < Int64.minValue.toFloat then negativeInfiniteTime
  else
    let timeScale := halveTimeScale doubleTime 32 timeScale
    ⟨(doubleTime * timeScale.toFloat).round.toInt64, timeScale, .onlyValid⟩

/-! ### Comparison -/

open ComparisonFlags

/-- The end of `compare`, where a product does not fit: the integral parts and then the remainders
are compared. -/
def compareWholes (lhs rhs : MediaTime) : ComparisonFlags :=
  let rhsWhole := rhs.timeValue / scaleValue rhs.timeScale
  let lhsWhole := lhs.timeValue / scaleValue lhs.timeScale
  if lhsWhole > rhsWhole then greaterThan
  else if lhsWhole < rhsWhole then lessThan
  else
    let rhsRemain := rhs.timeValue % scaleValue rhs.timeScale
    let lhsRemain := lhs.timeValue % scaleValue lhs.timeScale
    let lhsFactor := lhsRemain * scaleValue rhs.timeScale
    let rhsFactor := rhsRemain * scaleValue lhs.timeScale
    if lhsFactor = rhsFactor then equalTo
    else if lhsFactor > rhsFactor then greaterThan else lessThan

/-- The cross products are compared where both fit. -/
def compareProducts (lhs rhs : MediaTime) : ComparisonFlags :=
  match safeMultiply lhs.timeValue (scaleValue rhs.timeScale),
    safeMultiply rhs.timeValue (scaleValue lhs.timeScale) with
  | some lhsFactor, some rhsFactor =>
    if lhsFactor = rhsFactor then equalTo
    else if lhsFactor < rhsFactor then lessThan else greaterThan
  | _, _ => compareWholes lhs rhs

/-- `compare` once the flags are known to decide nothing. -/
def compareValues (lhs rhs : MediaTime) : ComparisonFlags :=
  if (lhs.timeValue < 0) ≠ (rhs.timeValue < 0) then
    if lhs.timeValue < 0 then lessThan else greaterThan
  else if lhs.timeValue = 0 ∧ rhs.timeValue = 0 then equalTo
  else if lhs.timeScale = rhs.timeScale then
    if lhs.timeValue = rhs.timeValue then equalTo
    else if lhs.timeValue < rhs.timeValue then lessThan else greaterThan
  else if lhs.timeValue = rhs.timeValue then
    if lhs.timeScale < rhs.timeScale then greaterThan else lessThan
  else if lhs.timeValue < rhs.timeValue ∧ lhs.timeScale > rhs.timeScale then lessThan
  else if lhs.timeValue > rhs.timeValue ∧ lhs.timeScale < rhs.timeScale then greaterThan
  else compareProducts lhs rhs

def compare (lhs rhs : MediaTime) : ComparisonFlags :=
  let andFlags := lhs.timeFlags.and rhs.timeFlags
  let orFlags := lhs.timeFlags.or rhs.timeFlags
  if andFlags.positiveInfinite || andFlags.negativeInfinite || andFlags.indefinite then equalTo
  else if !orFlags.valid then equalTo
  else if !andFlags.valid then if lhs.isInvalid then greaterThan else lessThan
  else if orFlags.negativeInfinite then if lhs.isNegativeInfinite then lessThan else greaterThan
  else if orFlags.positiveInfinite then if lhs.isPositiveInfinite then greaterThan else lessThan
  else if orFlags.indefinite then if lhs.isIndefinite then greaterThan else lessThan
  else if andFlags.doubleValue then
    if lhs.timeValueAsDouble == rhs.timeValueAsDouble then equalTo
    else if lhs.timeValueAsDouble < rhs.timeValueAsDouble then lessThan else greaterThan
  else if orFlags.doubleValue then
    let a := lhs.toDouble
    let b := rhs.toDouble
    if a > b then greaterThan else if a < b then lessThan else equalTo
  else compareValues lhs rhs

/-! ### Rescaling -/

/-- `m_timeValue++`, undefined at the end of the range. -/
def increment (value : Int64) : Option Int64 :=
  if value = Int64.maxValue then none else some (value + 1)

/-- `m_timeValue--`, undefined at the start of the range. -/
def decrement (value : Int64) : Option Int64 :=
  if value = Int64.minValue then none else some (value - 1)

/-- The value after the `switch` over the rounding flags, for a remainder that is not zero and the
time scale it is a remainder of. -/
def roundValue (flags : RoundingFlags) (value remainder timeScale : Int64) : Option Int64 :=
  let away := if remainder < 0 then decrement value else increment value
  match flags with
  | .halfAwayFromZero =>
    if timeScale ≤ (if remainder < 0 then -remainder else remainder) * 2 then away else some value
  | .towardZero => some value
  | .awayFromZero => away
  | .towardPositiveInfinity => if remainder > 0 then increment value else some value
  | .towardNegativeInfinity => if remainder < 0 then decrement value else some value

def infiniteTimeOfSign (value : Int64) : MediaTime :=
  if value < 0 then negativeInfiniteTime else positiveInfiniteTime

def setTimeScale (t : MediaTime) (timeScale : UInt32) (flags : RoundingFlags) : Option MediaTime :=
  if t.hasDoubleValue then some (createWithDoubleAndScale t.timeValueAsDouble timeScale)
  else if timeScale = t.timeScale then some t
  else if t.timeScale = 0 then none
  else
    let timeScale := if timeScale < MaximumTimeScale then timeScale else MaximumTimeScale
    let oldScale := scaleValue t.timeScale
    let newValue := t.timeValue / oldScale
    let partialRemainder := t.timeValue % oldScale * scaleValue timeScale
    let remainder := partialRemainder % oldScale
    match safeMultiply newValue (scaleValue timeScale) with
    | none => some (infiniteTimeOfSign newValue)
    | some newValue =>
      match safeAdd newValue (partialRemainder / oldScale) with
      | none => some (infiniteTimeOfSign newValue)
      | some newValue =>
        if remainder = 0 then
          some { t with timeValue := newValue, timeScale := timeScale }
        else
          (roundValue flags newValue remainder oldScale).map fun value =>
            { timeValue := value, timeScale := timeScale,
              timeFlags := { t.timeFlags with hasBeenRounded := true } }

/-- `setTimeScale` with `HAVE(INT128_T)`. The product of an `int64_t` and a time scale never leaves
the range of `__int128_t`. -/
def setTimeScaleInt128 (t : MediaTime) (timeScale : UInt32) (flags : RoundingFlags) :
    Option MediaTime :=
  if t.hasDoubleValue then some (createWithDoubleAndScale t.timeValueAsDouble timeScale)
  else if timeScale = t.timeScale then some t
  else if t.timeScale = 0 then none
  else
    let timeScale := if timeScale < MaximumTimeScale then timeScale else MaximumTimeScale
    let newValue : ℤ := t.timeValue.toInt * timeScale.toNat
    let remainder := Int64.ofInt (newValue.tmod t.timeScale.toNat)
    let newValue := newValue.tdiv t.timeScale.toNat
    if newValue < Int64.minValue.toInt then some negativeInfiniteTime
    else if newValue > Int64.maxValue.toInt then some positiveInfiniteTime
    else if remainder = 0 then
      some { t with timeValue := Int64.ofInt newValue, timeScale := timeScale }
    else
      (roundValue flags (Int64.ofInt newValue) remainder (scaleValue t.timeScale)).map fun value =>
        { timeValue := value, timeScale := timeScale,
          timeFlags := { t.timeFlags with hasBeenRounded := true } }

/-! ### Addition and subtraction -/

/-- The time scale to which both operands are taken first. -/
def commonTimeScale (a b : UInt32) : UInt32 :=
  match leastCommonMultiple a b with
  | some scale => if scale > MaximumTimeScale then MaximumTimeScale else scale
  | none => MaximumTimeScale

/-- The loop of both operators: while the checked operation fails, the time scale is halved and both
operands are taken to it. A scale is 1 after at most 31 halvings. -/
def combineValues (op : Int64 → Int64 → Option Int64) :
    ℕ → UInt32 → MediaTime → MediaTime → Option MediaTime
  | 0, _, _, _ => none
  | fuel + 1, timeScale, a, b =>
    match op a.timeValue b.timeValue with
    | some value => some { a with timeValue := value }
    | none =>
      if timeScale = 1 then
        some (if a.timeValue > 0 then positiveInfiniteTime else negativeInfiniteTime)
      else do
        let a ← a.setTimeScale (timeScale / 2) .halfAwayFromZero
        let b ← b.setTimeScale (timeScale / 2) .halfAwayFromZero
        combineValues op fuel (timeScale / 2) a b

/-- What both operators do with two times that are not doubles. -/
def combine (op : Int64 → Int64 → Option Int64) (lhs rhs : MediaTime) : Option MediaTime := do
  let timeScale := commonTimeScale lhs.timeScale rhs.timeScale
  let a ← lhs.setTimeScale timeScale .halfAwayFromZero
  let b ← rhs.setTimeScale timeScale .halfAwayFromZero
  combineValues op 32 timeScale a b

/-- `operator+`. -/
def add (lhs rhs : MediaTime) : Option MediaTime :=
  if rhs.isInvalid || lhs.isInvalid then some invalidTime
  else if rhs.isIndefinite || lhs.isIndefinite then some indefiniteTime
  else if lhs.isPositiveInfinite && rhs.isNegativeInfinite then some invalidTime
  else if lhs.isNegativeInfinite && rhs.isPositiveInfinite then some invalidTime
  else if lhs.isPositiveInfinite || rhs.isPositiveInfinite then some positiveInfiniteTime
  else if lhs.isNegativeInfinite || rhs.isNegativeInfinite then some negativeInfiniteTime
  else if lhs.hasDoubleValue && rhs.hasDoubleValue then
    some (createWithDouble (lhs.timeValueAsDouble + rhs.timeValueAsDouble))
  else if lhs.hasDoubleValue || rhs.hasDoubleValue then
    some (createWithDouble (lhs.toDouble + rhs.toDouble))
  else combine safeAdd lhs rhs

/-- `operator-`. -/
def sub (lhs rhs : MediaTime) : Option MediaTime :=
  if rhs.isInvalid || lhs.isInvalid then some invalidTime
  else if rhs.isIndefinite || lhs.isIndefinite then some indefiniteTime
  else if lhs.isPositiveInfinite && rhs.isPositiveInfinite then some invalidTime
  else if lhs.isNegativeInfinite && rhs.isNegativeInfinite then some invalidTime
  else if lhs.isPositiveInfinite || rhs.isNegativeInfinite then some positiveInfiniteTime
  else if lhs.isNegativeInfinite || rhs.isPositiveInfinite then some negativeInfiniteTime
  else if lhs.hasDoubleValue && rhs.hasDoubleValue then
    some (createWithDouble (lhs.timeValueAsDouble - rhs.timeValueAsDouble))
  else if lhs.hasDoubleValue || rhs.hasDoubleValue then
    some (createWithDouble (lhs.toDouble - rhs.toDouble))
  else combine safeSub lhs rhs

/-! ### Proper times -/

/-- A time whose value and scale are its meaning. -/
def IsFinite (t : MediaTime) : Prop :=
  t.isValid ∧ ¬t.isPositiveInfinite ∧ ¬t.isNegativeInfinite ∧ ¬t.isIndefinite ∧ ¬t.hasDoubleValue

instance (t : MediaTime) : Decidable t.IsFinite := inferInstanceAs (Decidable (_ ∧ _))

/-- The time scales the source allows. -/
def HasScale (t : MediaTime) : Prop := 1 ≤ t.timeScale ∧ t.timeScale ≤ MaximumTimeScale

instance (t : MediaTime) : Decidable t.HasScale := inferInstanceAs (Decidable (_ ∧ _))

def IsPositiveInfinity (t : MediaTime) : Prop :=
  t.isValid ∧ t.isPositiveInfinite ∧ ¬t.isNegativeInfinite ∧ ¬t.isIndefinite

def IsNegativeInfinity (t : MediaTime) : Prop :=
  t.isValid ∧ t.isNegativeInfinite ∧ ¬t.isPositiveInfinite ∧ ¬t.isIndefinite

instance (t : MediaTime) : Decidable t.IsPositiveInfinity := inferInstanceAs (Decidable (_ ∧ _))

instance (t : MediaTime) : Decidable t.IsNegativeInfinity := inferInstanceAs (Decidable (_ ∧ _))

/-- The rational a finite time stands for. -/
def toRat (t : MediaTime) : ℚ := t.timeValue.toInt / t.timeScale.toNat

end MediaTime

end WebKit.WTF
