import WebKit.B3.ReduceStrength.Arithmetic

/-!
# Bits in `B3ReduceStrength`

The rules for the bitwise operations, the shifts, the sign and zero extensions and `Trunc`.
-/

namespace WebKit.B3

open BitVec Value

variable {t : IntType}

/-! ### Bitwise operations -/

/-- `Op(Op(value, constant1), constant2)` becomes `Op(value, constant)` in place. -/
def mergeConstants (op : BinaryOp) (left right : Value t) : Value t × Value t :=
  match left.binary? op, right.asInt? with
  | some (value, constant), some x =>
    match constant.asInt? with
    | some y => (value, .const (constantFold op x y))
    | none => (left, right)
  | _, _ => (left, right)

/-- The constant is compared with `0xffffffff` as an `int64_t`, so that it is never all ones for
`Int32`. -/
def isAllOnes (v : Value t) : Bool :=
  match t with
  | .int64 => v.isInt (-1)
  | .int32 => v.isInt 0xffffffff

def dropSame (g : Graph) (left right : Value t) : Option (Value t) :=
  if g.same left right then some left else none

def bitAndZero (_ right : Value t) : Option (Value t) :=
  if right.isInt 0 then some right else none

def bitAndAllOnes (left right : Value t) : Option (Value t) :=
  if isAllOnes right then some left else none

/-- `BitAnd(value, 0xffffffff)` for `Int64`. -/
def bitAndLow32 : {t : IntType} → Value t → Value t → Option (Value t)
  | .int64, left, right => if right.isInt 0xffffffff then some (.zExt32 (.trunc left)) else none
  | .int32, _, _ => none

/-- `SExt8(value)` under a mask of the low eight bits. -/
def dropSExt8 (left right : Value t) : Value t :=
  match left.sExt8?, right.asInt32? with
  | some value, some mask => if mask &&& 0xffffff00 = 0 then value else left
  | _, _ => left

/-- `SExt16(value)` under a mask of the low sixteen bits. -/
def dropSExt16 (left right : Value t) : Value t :=
  match left.sExt16?, right.asInt32? with
  | some value, some mask => if mask &&& 0xffff0000 = 0 then value else left
  | _, _ => left

/-- `BitOr(value, constant1)` or `BitXor(value, constant1)` under a mask without the bits of
`constant1`. -/
def dropMaskedConstant (left right : Value t) : Value t :=
  match right.asInt?, left.binary? .bitOr <|> left.binary? .bitXor with
  | some constant2, some (value, constant) =>
    match constant.asInt? with
    | some constant1 => if constant1 &&& constant2 = 0 then value else left
    | none => left
  | _, _ => left

/-- What `BitAnd`, `BitOr` and `BitXor` begin with. -/
def reduceBitwise (op : BinaryOp) (rules : Value t → Value t → Value t) (g : Graph)
    (left right : Value t) : Value t :=
  let (left, right) := handleCommutativity g left right
  (foldConstants op left right).getD <|
    let (left, right) := mergeConstants op left right
    rules left right

def bitAndRules (g : Graph) (left right : Value t) : Value t :=
  (dropSame g left right <|> bitAndZero left right <|> bitAndAllOnes left right
    <|> bitAndLow32 left right).getD <|
  let left := dropSExt8 left right
  let left := dropSExt16 left right
  let left := dropMaskedConstant left right
  .binary .bitAnd left right

def reduceBitAnd (g : Graph) (left right : Value t) : Value t :=
  reduceBitwise .bitAnd (bitAndRules g) g left right

def bitOrAllOnes (_ right : Value t) : Option (Value t) :=
  if isAllOnes right then some right else none

def bitOrRules (g : Graph) (left right : Value t) : Value t :=
  (dropSame g left right <|> dropZero left right <|> bitOrAllOnes left right).getD
    (.binary .bitOr left right)

def reduceBitOr (g : Graph) (left right : Value t) : Value t :=
  reduceBitwise .bitOr (bitOrRules g) g left right

def CompareOp.inverted : CompareOp → CompareOp
  | .equal => .notEqual
  | .notEqual => .equal
  | .lessThan => .greaterEqual
  | .greaterThan => .lessEqual
  | .lessEqual => .greaterThan
  | .greaterEqual => .lessThan
  | .above => .belowEqual
  | .below => .aboveEqual
  | .aboveEqual => .below
  | .belowEqual => .above

def Value.invertedCompare : {t : IntType} → Value t → Option (Value t)
  | _, .compare op left right => some (.compare op.inverted left right)
  | _, _ => none

/-- `BitXor(compare, 1)`. -/
def bitXorCompare (left right : Value t) : Option (Value t) :=
  if right.asInt32? = some 1 then left.invertedCompare else none

def bitXorSame (g : Graph) (left right : Value t) : Option (Value t) :=
  if g.same left right then some (.const 0) else none

def bitXorRules (g : Graph) (left right : Value t) : Value t :=
  (bitXorCompare left right <|> bitXorSame g left right <|> dropZero left right).getD
    (.binary .bitXor left right)

def reduceBitXor (g : Graph) (left right : Value t) : Value t :=
  reduceBitwise .bitXor (bitXorRules g) g left right

/-! ### Shifts -/

/-- The shifts of a constant mask their amount. -/
def shiftConstant (op : ShiftOp) (x : BitVec t.bits) (amount : BitVec 32) : BitVec t.bits :=
  let s := (amount &&& BitVec.ofNat 32 (t.bits - 1)).toNat
  match op with
  | .shl => x <<< s
  | .sShr => x.sshiftRight s
  | .zShr => x >>> s

/-- `shlConstant`, `sShrConstant` and `zShrConstant`. -/
def foldShift (op : ShiftOp) (left : Value t) (right : Value .int32) : Option (Value t) := do
  let x ← left.asInt?
  let amount ← right.asInt?
  return .const (shiftConstant op x amount)

/-- Shifting up and down again is a sign extension. -/
def sShrOfShl : {t : IntType} → Value t → Value .int32 → Option (Value t)
  | .int32, left, right => do
    let amount ← right.asInt?
    let (value, amount') ← left.shift? .shl
    let other ← amount'.asInt?
    if amount = other ∧ amount = 16 then return .sExt16 value
    else if amount = other ∧ amount = 24 then return .sExt8 value
    else none
  | .int64, left, right => do
    let amount ← right.asInt?
    let (value, amount') ← left.shift? .shl
    let other ← amount'.asInt?
    if amount = other ∧ amount = 32 then return .sExt32 (.trunc value) else none

def shiftByZero (left : Value t) (right : Value .int32) : Option (Value t) :=
  if right.isInt 0 then some left else none

/-- A redundant mask of the amount is dropped. -/
def dropShiftMask (op : ShiftOp) (left : Value t) (right : Value .int32) : Option (Value t) := do
  let (value, constant) ← right.binary? .bitAnd
  let x ← constant.asInt?
  let mask := BitVec.ofNat 32 (t.bits - 1)
  if x &&& mask = mask then return .shift op left value else none

def handleShiftAmount (op : ShiftOp) (left : Value t) (right : Value .int32) : Value t :=
  (shiftByZero left right <|> dropShiftMask op left right).getD (.shift op left right)

def reduceShift (op : ShiftOp) (left : Value t) (right : Value .int32) : Value t :=
  (foldShift op left right).getD <|
    if op = .sShr then (sShrOfShl left right).getD (handleShiftAmount op left right)
    else handleShiftAmount op left right

/-! ### Extensions -/

/-- `SExt8(BitAnd(input, mask))`. -/
def sExt8OfMask (child : Value .int32) : Option (Value .int32) := do
  let (input, constant) ← child.binary? .bitAnd
  let mask ← constant.asInt?
  if mask &&& 0xff = 0xff then return .sExt8 input
  else if mask &&& 0x80 = 0 then return .binary .bitAnd input (.const (mask &&& 0x7f))
  else none

def reduceSExt8 (child : Value .int32) : Value .int32 :=
  match child.asInt? with
  | some x => .const ((x.setWidth 8).signExtend 32)
  | none =>
    let child := (child.sExt8? <|> child.sExt16?).getD child
    (sExt8OfMask child).getD (.sExt8 child)

/-- `SExt16(BitAnd(input, mask))`. -/
def sExt16OfMask (child : Value .int32) : Option (Value .int32) := do
  let (input, constant) ← child.binary? .bitAnd
  let mask ← constant.asInt?
  if mask &&& 0xffff = 0xffff then return .sExt16 input
  else if mask &&& 0x8000 = 0 then return .binary .bitAnd input (.const (mask &&& 0x7fff))
  else none

def reduceSExt16 (child : Value .int32) : Value .int32 :=
  match child.asInt? with
  | some x => .const ((x.setWidth 16).signExtend 32)
  | none =>
    let child := child.sExt16?.getD child
    if child.sExt8?.isSome then child else (sExt16OfMask child).getD (.sExt16 child)

/-- `SExt32(BitAnd(input, mask))` for a mask that is not negative. -/
def sExt32OfMask (child : Value .int32) : Option (Value .int64) := do
  let (_, constant) ← child.binary? .bitAnd
  let mask ← constant.asInt?
  if mask &&& 0x80000000 = 0 then return .zExt32 child else none

def reduceSExt32 (child : Value .int32) : Value .int64 :=
  match child.asInt? with
  | some x => .const (x.signExtend 64)
  | none => (sExt32OfMask child).getD (.sExt32 child)

def reduceZExt32 (child : Value .int32) : Value .int64 :=
  match child.asInt? with
  | some x => .const (x.setWidth 64)
  | none => .zExt32 child

def truncOfExt : {t : IntType} → Value t → Option (Value .int32)
  | _, .sExt32 child => some child
  | _, .zExt32 child => some child
  | _, _ => none

/-- `Trunc(Op(value, constant))` for a constant whose low 32 bits are zero. -/
def truncOfHighConstant (child : Value .int64) : Option (Value .int32) := do
  let (value, constant) ← child.binary? .add <|> child.binary? .sub <|> child.binary? .bitOr
    <|> child.binary? .bitXor
  let x ← constant.asInt?
  if x &&& 0xffffffff = 0 then return .trunc value else none

def reduceTrunc (child : Value .int64) : Value .int32 :=
  match child.asInt? with
  | some x => .const (x.setWidth 32)
  | none => (truncOfExt child <|> truncOfHighConstant child).getD (.trunc child)

/-! ### Facts about bits -/

/-- `SExt8` and `SExt16`. -/
def signExtendLow (k : ℕ) (x : BitVec 32) : BitVec 32 := (x.setWidth k).signExtend 32

lemma getLsbD_of_and_twoPow {w i : ℕ} {x : BitVec w} (h : x &&& BitVec.twoPow w i = 0)
    (hi : i < w) : x.getLsbD i = false := by
  have := congrArg (fun y => y.getLsbD i) h
  simpa [hi] using this

variable {x mask : BitVec 32}

lemma msb_and_of_sign (h : mask &&& 0x80000000 = 0) : (x &&& mask).msb = false := by
  have hbit : mask.getLsbD 31 = false := getLsbD_of_and_twoPow h (by decide)
  rw [msb_eq_getLsbD_last, getLsbD_and]
  exact Bool.and_eq_false_iff.2 (.inr hbit)

section

variable {k : ℕ} (hk : 0 < k ∧ k ≤ 32)

include hk

lemma getLsbD_signExtendLow {i : ℕ} (hi : i < 32) :
    (signExtendLow k x).getLsbD i = x.getLsbD (min i (k - 1)) := by
  rw [signExtendLow, getLsbD_signExtend, decide_eq_true hi]
  split
  · rw [min_eq_left (by omega)]
    simp [*]
  · rw [msb_setWidth, min_eq_right (by omega)]
    simp [hk.1]

lemma signExtendLow_and (h : mask &&& BitVec.allOnes 32 <<< k = 0) :
    signExtendLow k x &&& mask = x &&& mask := by
  apply eq_of_getLsbD_eq
  intro i hi
  rw [getLsbD_and, getLsbD_and, getLsbD_signExtendLow hk hi]
  rcases Nat.lt_or_ge i k with hlt | hge
  · rw [min_eq_left (by omega)]
  · have hbit : mask.getLsbD i = false := by
      have := congrArg (fun y => y.getLsbD i) h
      simpa only [getLsbD_and, getLsbD_shiftLeft, getLsbD_allOnes,
        decide_eq_true hi, decide_eq_false (not_lt.2 hge),
        decide_eq_true (show i - k < 32 by omega), Bool.not_false, Bool.and_true, ofNat_eq_ofNat,
        getLsbD_zero] using this
    simp [hbit]

lemma signExtendLow_and_ones
    (h : mask &&& (BitVec.allOnes k).setWidth 32 = (BitVec.allOnes k).setWidth 32) :
    signExtendLow k (x &&& mask) = signExtendLow k x := by
  apply eq_of_getLsbD_eq
  intro i hi
  have hbit : mask.getLsbD (min i (k - 1)) = true := by
    have := congrArg (fun y => y.getLsbD (min i (k - 1))) h
    simpa [show min i (k - 1) < 32 by omega, show min i (k - 1) < k by omega] using this
  simp [getLsbD_signExtendLow hk hi, hbit]

lemma signExtendLow_and_of_sign (h : mask &&& BitVec.twoPow 32 (k - 1) = 0) :
    signExtendLow k (x &&& mask) = x &&& (mask &&& (BitVec.allOnes (k - 1)).setWidth 32) := by
  apply eq_of_getLsbD_eq
  intro i hi
  have hbit : mask.getLsbD (k - 1) = false := getLsbD_of_and_twoPow h (by omega)
  rw [getLsbD_signExtendLow hk hi, getLsbD_and, getLsbD_and, getLsbD_and, getLsbD_setWidth,
    getLsbD_allOnes, decide_eq_true hi, Bool.true_and]
  rcases Nat.lt_or_ge i (k - 1) with hlt | hge
  · simp [min_eq_left hlt.le, decide_eq_true hlt]
  · rw [min_eq_right hge, hbit, decide_eq_false (by omega), Bool.and_false, Bool.and_false,
      Bool.and_false]

lemma signExtendLow_comp {j : ℕ} (hj : 0 < j ∧ j ≤ 32) (x : BitVec 32) :
    signExtendLow k (signExtendLow j x) = signExtendLow (min k j) x := by
  apply eq_of_getLsbD_eq
  intro i hi
  rw [getLsbD_signExtendLow hk hi, getLsbD_signExtendLow hj (by omega),
    getLsbD_signExtendLow (by omega) hi]
  congr 1
  omega

lemma sshiftRight_shiftLeft (x : BitVec 32) :
    (x <<< (32 - k)).sshiftRight (32 - k) = signExtendLow k x := by
  apply eq_of_getLsbD_eq
  intro i hi
  rw [getLsbD_signExtendLow hk hi, getLsbD_sshiftRight]
  rcases Nat.lt_or_ge i k with hlt | hge
  · rw [min_eq_left (by omega)]
    simp only [show ¬ 32 ≤ i by omega, show 32 - k + i < 32 by omega, getLsbD_shiftLeft,
      decide_false, decide_true, Bool.not_false, Bool.true_and, if_true,
      show ¬ 32 - k + i < 32 - k by omega, Nat.add_sub_cancel_left]
  · rw [min_eq_right (by omega)]
    simp only [show ¬ 32 ≤ i by omega, show ¬ 32 - k + i < 32 by omega,
      msb_eq_getLsbD_last, getLsbD_shiftLeft, show ¬ 32 - 1 < 32 - k by omega]
    rw [show 32 - 1 - (32 - k) = k - 1 by omega]
    simp

end

lemma and_low32 (x : BitVec 64) : x &&& 0xffffffff = (x.setWidth 32).setWidth 64 := by
  rw [show 0xffffffff = (allOnes 32).setWidth 64 by rfl]
  apply eq_of_getLsbD_eq
  intro i hi
  simp only [getLsbD_and, getLsbD_setWidth, getLsbD_allOnes,
    decide_eq_true hi, Bool.true_and, Bool.and_comm]

lemma setWidth_eq_zero {x : BitVec 64} (h : x &&& 0xffffffff = 0) : x.setWidth 32 = 0 := by
  have heq : (x.setWidth 32).setWidth 64 = 0 := by rw [← and_low32, h]
  have := congrArg (setWidth 32) heq
  rwa [setWidth_setWidth_of_le _ (by decide)] at this

/-- The amount that a shift uses. -/
lemma toNat_and_mask : (x &&& BitVec.ofNat 32 (t.bits - 1)).toNat = x.toNat % t.bits := by
  cases t with
  | int32 => exact (toNat_and _ _).trans (Nat.and_two_pow_sub_one_eq_mod x.toNat 5)
  | int64 => exact (toNat_and _ _).trans (Nat.and_two_pow_sub_one_eq_mod x.toNat 6)

lemma shiftConstant_eq_eval (op : ShiftOp) (x : BitVec t.bits) (amount : BitVec 32) :
    shiftConstant op x amount = op.eval x amount := by
  cases op <;> simp only [shiftConstant, ShiftOp.eval, toNat_and_mask]

variable {w : ℕ}

lemma CompareOp.holds_inverted (op : CompareOp) (x y : BitVec w) :
    op.inverted.holds x y = !op.holds x y := by
  cases op <;> simp only [CompareOp.inverted, CompareOp.holds, BitVec.slt, BitVec.sle, BitVec.ult,
    BitVec.ule, bne, Bool.not_not, ← decide_not, not_lt, not_le]

lemma CompareOp.eval_inverted (op : CompareOp) (x y : BitVec w) :
    op.inverted.eval x y = op.eval x y ^^^ 1 := by
  rw [CompareOp.eval, CompareOp.eval, op.holds_inverted]
  cases op.holds x y <;> rfl

/-! ### Soundness of the bitwise rules -/

variable {op : BinaryOp}

section

variable (left right : Value t)

lemma refines_mergeConstants
    (hop : ∀ {w : ℕ} (x y z : BitVec w), op.eval (op.eval x y) z = op.eval x (op.eval z y))
    (hdef : ∀ {w : ℕ} (x y : BitVec w), op.Defined x y) :
    Refines (.binary op left right)
      (.binary op (mergeConstants op left right).1 (mergeConstants op left right).2) := by
  unfold mergeConstants
  split
  · rename_i value constant x hl hx
    split
    · rename_i y hy
      rw [binary?_eq_some hl, asInt?_eq_some hx, asInt?_eq_some hy]
      rintro env ⟨⟨hval, -, -⟩, -, -⟩
      refine ⟨⟨hval, trivial, hdef _ _⟩, ?_⟩
      rw [constantFold_eq_eval]
      exact (hop _ _ _).symm
    · exact .refl _
  · exact .refl _

lemma Value.isAllOnes_eq {v : Value t} (h : isAllOnes v = true) : v = .const (-1) := by
  cases t with
  | int64 => exact isInt_neg_one h
  | int32 =>
    obtain ⟨x, rfl, hx⟩ := isInt_iff.1 h
    have : x.toInt < 2 ^ 31 := toInt_lt
    omega

lemma sound_dropSame (op : BinaryOp) (g : Graph) (hop : ∀ {w : ℕ} (x : BitVec w), op.eval x x = x) :
    Sound (.binary op left right) (dropSame g left right) := by
  refine .ite (fun h => .some ?_) fun _ => .none
  rw [g.eq_of_same h]
  rintro env ⟨hleft, -, -⟩
  exact ⟨hleft, (hop _).symm⟩

lemma sound_bitAndZero : Sound (.binary .bitAnd left right) (bitAndZero left right) := by
  refine .ite (fun h => .some ?_) fun _ => .none
  rw [isInt_zero h]
  exact fun env _ => ⟨trivial, and_zero.symm⟩

lemma and_neg_one (x : BitVec w) : x &&& -1 = x := by
  show x &&& -1#w = x
  simp [neg_one_eq_allOnes]

lemma or_neg_one (x : BitVec w) : x ||| -1 = -1 := by
  show x ||| -1#w = -1#w
  simp [neg_one_eq_allOnes]

lemma sound_bitAndAllOnes : Sound (.binary .bitAnd left right) (bitAndAllOnes left right) := by
  refine .ite (fun h => .some ?_) fun _ => .none
  rw [isAllOnes_eq h]
  rintro env ⟨hleft, -, -⟩
  exact ⟨hleft, (and_neg_one _).symm⟩

lemma sound_bitAndLow32 : Sound (.binary .bitAnd left right) (bitAndLow32 left right) := by
  cases t with
  | int32 => exact .none
  | int64 =>
    refine .ite (fun h => .some ?_) fun _ => .none
    obtain ⟨x, rfl, hx⟩ := isInt_iff.1 h
    obtain rfl : x = 0xffffffff := eq_of_toInt_eq hx
    rintro env ⟨hleft, -, -⟩
    exact ⟨hleft, (and_low32 _).symm⟩

/-- A sign extension does not show under a mask of the bits that it copies. -/
lemma refines_dropSExt8 :
    Refines (.binary .bitAnd left right) (.binary .bitAnd (dropSExt8 left right) right) := by
  unfold dropSExt8
  split
  · rename_i value mask hl hmask
    obtain rfl := eq_int32_of_asInt32? hmask
    split
    · rename_i h
      rw [sExt8?_eq_some hl, asInt32?_eq_some hmask]
      rintro env ⟨hval, -, -⟩
      exact ⟨⟨hval, trivial, trivial⟩, (signExtendLow_and (by decide) h).symm⟩
    · exact .refl _
  · exact .refl _

lemma refines_dropSExt16 :
    Refines (.binary .bitAnd left right) (.binary .bitAnd (dropSExt16 left right) right) := by
  unfold dropSExt16
  split
  · rename_i value mask hl hmask
    obtain rfl := eq_int32_of_asInt32? hmask
    split
    · rename_i h
      rw [sExt16?_eq_some hl, asInt32?_eq_some hmask]
      rintro env ⟨hval, -, -⟩
      exact ⟨⟨hval, trivial, trivial⟩, (signExtendLow_and (by decide) h).symm⟩
    · exact .refl _
  · exact .refl _

lemma or_and_of_disjoint {x c d : BitVec w} (h : c &&& d = 0) : (x ||| c) &&& d = x &&& d := by
  rw [BitVec.and_comm, and_or_distrib_left, BitVec.and_comm d c, h, BitVec.and_comm]
  exact or_zero

lemma xor_and_of_disjoint {x c d : BitVec w} (h : c &&& d = 0) : (x ^^^ c) &&& d = x &&& d := by
  apply eq_of_getLsbD_eq
  intro i _
  have hi := congrArg (fun y => y.getLsbD i) h
  simp only [getLsbD_and, getLsbD_xor, ofNat_eq_ofNat, getLsbD_zero] at hi ⊢
  simp [Bool.and_xor_distrib_right, hi]

lemma refines_dropMaskedConstant :
    Refines (.binary .bitAnd left right)
      (.binary .bitAnd (dropMaskedConstant left right) right) := by
  unfold dropMaskedConstant
  split
  · rename_i constant2 value constant hr hl
    split
    · rename_i constant1 hc
      split
      · rename_i h
        rw [asInt?_eq_some hr]
        rcases hor : left.binary? .bitOr with _ | p
        · rw [hor] at hl
          rw [binary?_eq_some hl, asInt?_eq_some hc]
          rintro env ⟨⟨hval, -, -⟩, -, -⟩
          exact ⟨⟨hval, trivial, trivial⟩, (xor_and_of_disjoint h).symm⟩
        · rw [hor] at hl
          obtain rfl : p = (value, constant) := Option.some.inj hl
          rw [binary?_eq_some hor, asInt?_eq_some hc]
          rintro env ⟨⟨hval, -, -⟩, -, -⟩
          exact ⟨⟨hval, trivial, trivial⟩, (or_and_of_disjoint h).symm⟩
      · exact .refl _
    · exact .refl _
  · exact .refl _

lemma refines_reduceBitwise (op : BinaryOp) {rules : Value t → Value t → Value t}
    (hcomm : ∀ {w : ℕ} (x y : BitVec w), op.eval x y = op.eval y x)
    (hassoc : ∀ {w : ℕ} (x y z : BitVec w), op.eval (op.eval x y) z = op.eval x (op.eval y z))
    (hdef : ∀ {w : ℕ} (x y : BitVec w), op.Defined x y)
    (h : ∀ l r, Refines (.binary op l r) (rules l r)) (g : Graph) :
    Refines (.binary op left right) (reduceBitwise op rules g left right) := by
  have key : ∀ l r, Refines (.binary op l r) ((foldConstants op l r).getD
      (rules (mergeConstants op l r).1 (mergeConstants op l r).2)) := by
    intro l r
    refine .getD (sound_foldConstants op l r) (.trans ?_ (h _ _))
    exact refines_mergeConstants l r (fun x y z => by rw [hassoc, hcomm y z]) hdef
  exact refines_commute g op hcomm hdef key left right

variable (g : Graph)

lemma refines_reduceBitAnd : Refines (.binary .bitAnd left right) (reduceBitAnd g left right) := by
  refine refines_reduceBitwise left right .bitAnd and_comm and_assoc
    (fun _ _ => trivial) (fun l r => ?_) g
  refine .getD (.orElse (sound_dropSame l r .bitAnd g fun _ => and_self) <|
    .orElse (sound_bitAndZero l r) <| .orElse (sound_bitAndAllOnes l r) (sound_bitAndLow32 l r)) ?_
  exact ((refines_dropSExt8 l r).trans (refines_dropSExt16 _ r)).trans
    (refines_dropMaskedConstant _ r)

lemma sound_bitOrAllOnes : Sound (.binary .bitOr left right) (bitOrAllOnes left right) := by
  refine .ite (fun h => .some ?_) fun _ => .none
  rw [isAllOnes_eq h]
  exact fun env _ => ⟨trivial, (or_neg_one _).symm⟩

lemma refines_reduceBitOr : Refines (.binary .bitOr left right) (reduceBitOr g left right) :=
  refines_reduceBitwise left right .bitOr or_comm or_assoc (fun _ _ => trivial)
    (fun l r => .getD (.orElse (sound_dropSame l r .bitOr g fun _ => or_self) <|
      .orElse (sound_dropZero l r .bitOr fun _ => or_zero) (sound_bitOrAllOnes l r))
      (.refl _)) g

lemma sound_bitXorCompare : Sound (.binary .bitXor left right) (bitXorCompare left right) := by
  refine .ite (fun h => ?_) fun _ => .none
  obtain rfl := eq_int32_of_asInt32? h
  rw [asInt32?_eq_some h]
  intro v hv
  cases left with
  | compare op a b =>
    obtain rfl : compare op.inverted a b = v := Option.some.inj hv
    rintro env ⟨hdef, -, -⟩
    exact ⟨hdef, op.eval_inverted _ _⟩
  | _ => cases hv

lemma sound_bitXorSame : Sound (.binary .bitXor left right) (bitXorSame g left right) := by
  refine .ite (fun h => .some ?_) fun _ => .none
  rw [g.eq_of_same h]
  exact fun env _ => ⟨trivial, xor_self.symm⟩

lemma refines_reduceBitXor : Refines (.binary .bitXor left right) (reduceBitXor g left right) :=
  refines_reduceBitwise left right .bitXor BitVec.xor_comm BitVec.xor_assoc (fun _ _ => trivial)
    (fun l r => .getD (.orElse (sound_bitXorCompare l r) <| .orElse (sound_bitXorSame l r g)
      (sound_dropZero l r .bitXor fun _ => xor_zero)) (.refl _)) g

end

/-! ### Soundness of the shifts -/

section

variable (op : ShiftOp) (left : Value t) (right : Value .int32)

lemma sound_foldShift : Sound (.shift op left right) (foldShift op left right) := by
  refine .bind fun x hx => .bind fun amount hamt => .some ?_
  rw [asInt?_eq_some hx, asInt?_eq_some hamt]
  exact fun env _ => ⟨trivial, shiftConstant_eq_eval op x amount⟩

lemma sound_shiftByZero : Sound (.shift op left right) (shiftByZero left right) := by
  refine .ite (fun h => .some ?_) fun _ => .none
  rw [isInt_zero h]
  rintro env ⟨hleft, -⟩
  refine ⟨hleft, ?_⟩
  cases op with
  | shl => exact (shiftLeft_zero _).symm
  | sShr => exact sshiftRight_zero.symm
  | zShr => exact (ushiftRight_zero _).symm

/-- The low bits of the amount are all that a shift uses. -/
lemma ShiftOp.eval_congr {x : BitVec t.bits} {amount amount' : BitVec 32}
    (h : amount &&& BitVec.ofNat 32 (t.bits - 1) = amount' &&& BitVec.ofNat 32 (t.bits - 1)) :
    op.eval x amount = op.eval x amount' := by
  have hmod : amount.toNat % t.bits = amount'.toNat % t.bits := by
    simp [← toNat_and_mask, h]
  simp only [ShiftOp.eval, hmod]

lemma sound_dropShiftMask : Sound (.shift op left right) (dropShiftMask op left right) := by
  refine .bind fun ⟨value, constant⟩ hr => .bind fun x hx => .ite (fun h => .some ?_) fun _ => .none
  rw [binary?_eq_some hr, asInt?_eq_some hx]
  rintro env ⟨hleft, hval, -, -⟩
  refine ⟨⟨hleft, hval⟩, op.eval_congr ?_⟩
  show value.eval env &&& _ = value.eval env &&& x &&& _
  rw [BitVec.and_assoc, h]

lemma refines_handleShiftAmount :
    Refines (.shift op left right) (handleShiftAmount op left right) :=
  .getD (.orElse (sound_shiftByZero op left right) (sound_dropShiftMask op left right)) (.refl _)

lemma sshiftRight_shiftLeft_32 (x : BitVec 64) :
    (x <<< 32).sshiftRight 32 = (x.setWidth 32).signExtend 64 := by
  apply eq_of_getLsbD_eq
  intro i hi
  rw [getLsbD_sshiftRight, getLsbD_signExtend, msb_eq_getLsbD_last, msb_eq_getLsbD_last,
    getLsbD_shiftLeft, decide_eq_true hi]
  rcases Nat.lt_or_ge i 32 with hlt | hge
  · simp [hlt, show 32 + i < 64 by omega, show ¬ 64 ≤ i by omega]
  · simp [show ¬ i < 32 by omega, show ¬ 32 + i < 64 by omega, show ¬ 64 ≤ i by omega]

lemma sound_sShrOfShl : Sound (.shift .sShr left right) (sShrOfShl left right) := by
  cases t with
  | int32 =>
    refine .bind fun amount hr => .bind fun ⟨value, amount'⟩ hl => .bind fun other hoth => ?_
    rw [asInt?_eq_some hr, shift?_eq_some hl, asInt?_eq_some hoth]
    refine .ite (fun h => .some ?_) fun _ => .ite (fun h => .some ?_) fun _ => .none
    all_goals
      obtain ⟨rfl, rfl⟩ := h
      rintro env ⟨⟨hval, -⟩, -⟩
      exact ⟨hval, (sshiftRight_shiftLeft (by decide) _).symm⟩
  | int64 =>
    refine .bind fun amount hr => .bind fun ⟨value, amount'⟩ hl => .bind fun other hoth => ?_
    rw [asInt?_eq_some hr, shift?_eq_some hl, asInt?_eq_some hoth]
    refine .ite (fun h => .some ?_) fun _ => .none
    obtain ⟨rfl, rfl⟩ := h
    rintro env ⟨⟨hval, -⟩, -⟩
    exact ⟨hval, (sshiftRight_shiftLeft_32 _).symm⟩

lemma refines_reduceShift : Refines (.shift op left right) (reduceShift op left right) := by
  refine .getD (sound_foldShift op left right) ?_
  split
  · rename_i hop
    subst hop
    exact .getD (sound_sShrOfShl left right) (refines_handleShiftAmount _ left right)
  · exact refines_handleShiftAmount op left right

end

/-! ### Soundness of the extensions -/

section

variable (child : Value .int32)

lemma sound_sExt8OfMask : Sound (.sExt8 child) (sExt8OfMask child) := by
  refine .bind fun ⟨input, constant⟩ hchild => .bind fun mask hmask => ?_
  rw [binary?_eq_some hchild, asInt?_eq_some hmask]
  refine .ite (fun h => .some ?_) fun _ => .ite (fun h => .some ?_) fun _ => .none
  · rintro env ⟨hinput, -, -⟩
    exact ⟨hinput, (signExtendLow_and_ones (by decide) h).symm⟩
  · rintro env ⟨hinput, -, -⟩
    exact ⟨⟨hinput, trivial, trivial⟩, (signExtendLow_and_of_sign (k := 8) (by decide) h).symm⟩

lemma sound_sExt16OfMask : Sound (.sExt16 child) (sExt16OfMask child) := by
  refine .bind fun ⟨input, constant⟩ hchild => .bind fun mask hmask => ?_
  rw [binary?_eq_some hchild, asInt?_eq_some hmask]
  refine .ite (fun h => .some ?_) fun _ => .ite (fun h => .some ?_) fun _ => .none
  · rintro env ⟨hinput, -, -⟩
    exact ⟨hinput, (signExtendLow_and_ones (by decide) h).symm⟩
  · rintro env ⟨hinput, -, -⟩
    exact ⟨⟨hinput, trivial, trivial⟩, (signExtendLow_and_of_sign (k := 16) (by decide) h).symm⟩

lemma refines_reduceSExt8 : Refines (.sExt8 child) (reduceSExt8 child) := by
  unfold reduceSExt8
  split
  · rename_i x hx
    rw [asInt?_eq_some hx]
    exact fun env _ => ⟨trivial, rfl⟩
  · refine .trans ?_ (.getD (sound_sExt8OfMask _) (.refl _))
    rcases h8 : child.sExt8? with _ | value
    · rcases h16 : child.sExt16? with _ | value
      · exact .refl _
      · rw [sExt16?_eq_some h16]
        exact fun env h => ⟨h,
          (signExtendLow_comp (k := 8) (j := 16) (by decide) (by decide) _).symm⟩
    · rw [sExt8?_eq_some h8]
      exact fun env h => ⟨h, (signExtendLow_comp (k := 8) (j := 8) (by decide) (by decide) _).symm⟩

lemma refines_reduceSExt16 : Refines (.sExt16 child) (reduceSExt16 child) := by
  unfold reduceSExt16
  split
  · rename_i x hx
    rw [asInt?_eq_some hx]
    exact fun env _ => ⟨trivial, rfl⟩
  · have hinner : Refines (.sExt16 child) (.sExt16 (child.sExt16?.getD child)) := by
      rcases h16 : child.sExt16? with _ | value
      · exact .refl _
      · rw [sExt16?_eq_some h16]
        exact fun env h => ⟨h,
          (signExtendLow_comp (k := 16) (j := 16) (by decide) (by decide) _).symm⟩
    refine hinner.trans ?_
    dsimp only
    split
    · rename_i h
      obtain ⟨value, hval⟩ := Option.isSome_iff_exists.1 h
      rw [sExt8?_eq_some hval]
      exact fun env h => ⟨h, (signExtendLow_comp (k := 16) (j := 8) (by decide) (by decide) _).symm⟩
    · exact .getD (sound_sExt16OfMask _) (.refl _)

lemma refines_reduceSExt32 : Refines (.sExt32 child) (reduceSExt32 child) := by
  unfold reduceSExt32
  split
  · rename_i x hx
    rw [asInt?_eq_some hx]
    exact fun env _ => ⟨trivial, rfl⟩
  · refine .getD (.bind fun ⟨input, constant⟩ hchild => .bind fun mask hmask =>
      .ite (fun h => .some ?_) fun _ => .none) (.refl _)
    rw [binary?_eq_some hchild, asInt?_eq_some hmask]
    refine fun env hdef => ⟨hdef, ?_⟩
    exact (signExtend_eq_setWidth_of_msb_false (msb_and_of_sign h)).symm

lemma refines_reduceZExt32 : Refines (.zExt32 child) (reduceZExt32 child) := by
  unfold reduceZExt32
  split
  · rename_i x hx
    rw [asInt?_eq_some hx]
    exact fun env _ => ⟨trivial, rfl⟩
  · exact .refl _

end

section

variable (child : Value .int64)

lemma sound_truncOfExt : Sound (.trunc child) (truncOfExt child) := by
  intro v hv
  cases child with
  | sExt32 value =>
    obtain rfl : value = v := Option.some.inj hv
    exact fun env h => ⟨h, (setWidth_signExtend (by decide) _).symm⟩
  | zExt32 value =>
    obtain rfl : value = v := Option.some.inj hv
    refine fun env h => ⟨h, ?_⟩
    show _ = (setWidth 64 (value.eval env)).setWidth 32
    simp
  | _ => cases hv

/-- An operation that does not touch the low bits when its right operand has none. -/
lemma refines_trunc_binary {value : Value .int64} {x : BitVec 64}
    (h : x &&& 0xffffffff = 0) (hop : op = .add ∨ op = .sub ∨ op = .bitOr ∨ op = .bitXor) :
    Refines (.trunc (.binary op value (.const x))) (.trunc value) := by
  have hx := setWidth_eq_zero h
  rintro env ⟨hval, -, -⟩
  refine ⟨hval, ?_⟩
  rcases hop with rfl | rfl | rfl | rfl
  · show _ = (value.eval env + x).setWidth 32
    rw [setWidth_add _ _ (by decide), hx]
    exact (add_zero _).symm
  · show _ = (value.eval env - x).setWidth 32
    rw [sub_eq_add_neg, setWidth_add _ _ (by decide), setWidth_neg_of_le (by decide), hx]
    exact (add_zero _).symm
  · show _ = (value.eval env ||| x).setWidth 32
    rw [setWidth_or, hx]
    exact or_zero.symm
  · show _ = (value.eval env ^^^ x).setWidth 32
    rw [setWidth_xor, hx]
    exact xor_zero.symm

lemma sound_truncOfHighConstant : Sound (.trunc child) (truncOfHighConstant child) := by
  refine .bind fun ⟨value, constant⟩ hchild => .bind fun x hx => .ite (fun h => .some ?_)
    fun _ => .none
  have hop : ∃ op, child = .binary op value constant ∧
      (op = .add ∨ op = .sub ∨ op = .bitOr ∨ op = .bitXor) := by
    cases child with
    | binary op l r =>
      cases op <;> simp [binary?] at hchild <;>
        exact ⟨_, by rw [hchild.1, hchild.2], by simp⟩
    | _ => simp [binary?] at hchild
  obtain ⟨op, rfl, hop⟩ := hop
  rw [asInt?_eq_some hx]
  exact refines_trunc_binary h hop

lemma refines_reduceTrunc : Refines (.trunc child) (reduceTrunc child) := by
  unfold reduceTrunc
  split
  · rename_i x hx
    rw [asInt?_eq_some hx]
    exact fun env _ => ⟨trivial, rfl⟩
  · exact .getD (.orElse (sound_truncOfExt child) (sound_truncOfHighConstant child)) (.refl _)

end

end WebKit.B3
