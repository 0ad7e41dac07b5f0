import WebKit.B3.ReduceStrength.Basic
import WebKit.B3.ComputeDivisionMagic

/-!
# Arithmetic in `B3ReduceStrength`

The rules for `Add`, `Sub`, `Neg`, `Mul`, `Div`, `UDiv`, `Mod` and `UMod`, in the order in which
the pass tries them.
-/

namespace WebKit.B3

open DivisionMagic Value
open BitVec hiding not_or

variable {t : IntType}

/-! ### Constants -/

section

variable {w : ℕ}

def chillDiv (numerator denominator : BitVec w) : BitVec w :=
  if denominator = 0 then 0
  else if denominator = -1 ∧ numerator = BitVec.intMin w then BitVec.intMin w
  else numerator.sdiv denominator

def chillMod (numerator denominator : BitVec w) : BitVec w :=
  if denominator = 0 then 0
  else if denominator = -1 ∧ numerator = BitVec.intMin w then 0
  else numerator.srem denominator

def chillUDiv (numerator denominator : BitVec w) : BitVec w :=
  if denominator = 0 then 0 else numerator / denominator

def chillUMod (numerator denominator : BitVec w) : BitVec w :=
  if denominator = 0 then 0 else numerator % denominator

/-- The operations on two constants. Division is the chill one. The host's signed arithmetic is
taken to wrap around, where the language leaves its overflow undefined. -/
def constantFold : BinaryOp → BitVec w → BitVec w → BitVec w
  | .add, x, y => x + y
  | .sub, x, y => x - y
  | .mul, x, y => x * y
  | .div _, x, y => chillDiv x y
  | .uDiv, x, y => chillUDiv x y
  | .mod _, x, y => chillMod x y
  | .uMod, x, y => chillUMod x y
  | .bitAnd, x, y => x &&& y
  | .bitOr, x, y => x ||| y
  | .bitXor, x, y => x ^^^ y

lemma toInt_neg_one (hw : 0 < w) : (-1 : BitVec w).toInt = -1 := by
  show (-1#w).toInt = -1
  simp [neg_one_eq_allOnes, if_pos hw]

lemma sdiv_neg_one (hw : 0 < w) (x : BitVec w) : x.sdiv (-1) = -x := by
  apply eq_of_toInt_eq
  rw [toInt_sdiv, toInt_neg_one hw, Int.tdiv_neg, Int.tdiv_one, toInt_neg]

lemma constantFold_eq_eval (op : BinaryOp) (x y : BitVec w) :
    constantFold op x y = op.eval x y := by
  cases op with
  | div chill =>
    simp only [constantFold, chillDiv]
    split_ifs with hzero hmin
    · rw [hzero]
      exact sdiv_zero.symm
    · rw [hmin.1, hmin.2]
      exact intMin_sdiv_neg_one.symm
    · rfl
  | mod chill =>
    simp only [constantFold, chillMod, BinaryOp.eval]
    split_ifs with hzero hmin
    · rfl
    · rcases Nat.eq_zero_or_pos w with rfl | hw
      · exact Subsingleton.elim _ _
      · apply eq_of_toInt_eq
        rw [hmin.1, toInt_srem, toInt_neg_one hw, Int.tmod_neg, Int.tmod_one]
        exact toInt_zero
    · rfl
  | uDiv =>
    simp only [constantFold, chillUDiv]
    split_ifs with hzero
    · rw [hzero]
      exact udiv_zero.symm
    · rfl
  | _ => rfl

end

/-- `addConstant`, `subConstant` and so on. -/
def foldConstants (op : BinaryOp) (left right : Value t) : Option (Value t) := do
  let x ← left.asInt?
  let y ← right.asInt?
  return .const (constantFold op x y)

lemma sound_foldConstants (op : BinaryOp) (left right : Value t) :
    Sound (.binary op left right) (foldConstants op left right) := by
  refine .bind fun x hx => .bind fun y hy => .some fun env _ => ⟨trivial, ?_⟩
  rw [asInt?_eq_some hx, asInt?_eq_some hy]
  exact constantFold_eq_eval op x y

/-! ### Addition and subtraction -/

/-- `Add(Add(value, constant1), constant2)`. -/
def addOfAddConstant (left right : Value t) : Option (Value t) := do
  let (value, constant) ← left.binary? .add
  let x ← right.asInt?
  let y ← constant.asInt?
  return .binary .add value (.const (x + y))

/-- `Add(Add(value, constant), otherValue)`. -/
def moveConstant (left right : Value t) : Option (Value t) := do
  let (value, constant) ← left.binary? .add
  let _ ← constant.asInt?
  if right.asInt? = none then return .binary .add (.binary .add value right) constant else none

/-- `Add(otherValue, Add(value, constant))`. -/
def moveRightConstant (left right : Value t) : Option (Value t) := do
  let (value, constant) ← right.binary? .add
  let _ ← constant.asInt?
  if left.asInt? = none then return .binary .add (.binary .add value left) constant else none

def addSame (g : Graph) (left right : Value t) : Option (Value t) :=
  if g.same left right then some (.shift .shl left (.const (1 : BitVec 32))) else none

/-- A zero on the right of `Add`, `BitOr` or `BitXor`. -/
def dropZero (left right : Value t) : Option (Value t) :=
  if right.isInt 0 then some left else none

/-- `Add(Sub(0, value), -1)`. -/
def addOfNegation (left right : Value t) : Option (Value t) := do
  let (zero, value) ← left.binary? .sub
  if right.isInt (-1) ∧ zero.isInt 0 then return .binary .bitXor value right else none

def addRules (g : Graph) (left right : Value t) : Option (Value t) :=
  addOfAddConstant left right <|> moveConstant left right <|> moveRightConstant left right
    <|> foldConstants .add left right <|> addSame g left right <|> dropZero left right
    <|> addOfNegation left right

def reduceAdd (g : Graph) (left right : Value t) : Value t :=
  let (left, right) := handleCommutativity g left right
  (addRules g left right).getD (.binary .add left right)

/-- `Sub(value, constant)`. -/
def subConstant (left right : Value t) : Option (Value t) := do
  let x ← right.asInt?
  return .binary .add left (.const (-x))

def subFromZero (left right : Value t) : Option (Value t) :=
  if left.isInt 0 then some (.neg right) else none

def reduceSub (left right : Value t) : Value t :=
  (foldConstants .sub left right <|> subConstant left right <|> subFromZero left right).getD
    (.binary .sub left right)

def negConstant (child : Value t) : Option (Value t) := do
  let x ← child.asInt?
  return .const (-x)

def reduceNeg (child : Value t) : Value t :=
  (negConstant child <|> child.neg?).getD (.neg child)

variable {w : ℕ}

lemma toInt_eq_zero_iff {x : BitVec w} : x.toInt = 0 ↔ x = 0 := by
  simp [← toInt_inj]

lemma Value.isInt_zero {v : Value t} (h : v.isInt 0 = true) : v = .const 0 := by
  obtain ⟨x, rfl, hx⟩ := isInt_iff.1 h
  rw [toInt_eq_zero_iff.1 hx]

lemma Value.isInt_neg_one {v : Value t} (h : v.isInt (-1) = true) : v = .const (-1) := by
  obtain ⟨x, rfl, hx⟩ := isInt_iff.1 h
  rw [← toInt_neg_one t.bits_pos, toInt_inj] at hx
  rw [hx]

section

variable (left right : Value t)

lemma sound_addOfAddConstant : Sound (.binary .add left right) (addOfAddConstant left right) := by
  refine .bind fun ⟨value, constant⟩ hl => .bind fun x hx => .bind fun y hy => .some ?_
  rw [binary?_eq_some hl, asInt?_eq_some hx, asInt?_eq_some hy]
  rintro env ⟨⟨hval, -, -⟩, -, -⟩
  refine ⟨⟨hval, trivial, trivial⟩, ?_⟩
  show _ + (x + y) = _ + y + x
  ring

lemma sound_moveConstant : Sound (.binary .add left right) (moveConstant left right) := by
  refine .bind fun ⟨value, constant⟩ hl => .bind fun _ _ => .ite (fun _ => .some ?_) fun _ => .none
  rw [binary?_eq_some hl]
  rintro env ⟨⟨hval, hconst, -⟩, hrt, -⟩
  exact ⟨⟨⟨hval, hrt, trivial⟩, hconst, trivial⟩, add_right_comm _ _ _⟩

lemma sound_moveRightConstant : Sound (.binary .add left right) (moveRightConstant left right) := by
  refine .bind fun ⟨value, constant⟩ hr => .bind fun _ _ => .ite (fun _ => .some ?_) fun _ => .none
  rw [binary?_eq_some hr]
  rintro env ⟨hleft, ⟨hval, hconst, -⟩, -⟩
  refine ⟨⟨⟨hval, hleft, trivial⟩, hconst, trivial⟩, ?_⟩
  show _ + _ + _ = _ + (_ + _)
  ring

variable (g : Graph)

lemma sound_addSame : Sound (.binary .add left right) (addSame g left right) := by
  refine .ite (fun h => .some ?_) fun _ => .none
  rw [g.eq_of_same h]
  rintro env ⟨hleft, -, -⟩
  refine ⟨⟨hleft, trivial⟩, ?_⟩
  show right.eval env <<< (1 % t.bits) = right.eval env + right.eval env
  rw [shiftLeft_eq_mul_twoPow, ← two_mul, mul_comm]
  cases t <;> rfl

lemma sound_dropZero (op : BinaryOp) (hop : ∀ {w : ℕ} (x : BitVec w), op.eval x 0 = x) :
    Sound (.binary op left right) (dropZero left right) := by
  refine .ite (fun h => .some ?_) fun _ => .none
  rw [isInt_zero h]
  rintro env ⟨hleft, -, -⟩
  exact ⟨hleft, (hop _).symm⟩

lemma sound_addOfNegation : Sound (.binary .add left right) (addOfNegation left right) := by
  refine .bind fun ⟨zero, value⟩ hl => .ite (fun h => .some ?_) fun _ => .none
  rw [binary?_eq_some hl, isInt_neg_one h.1, isInt_zero h.2]
  rintro env ⟨⟨-, hval, -⟩, -, -⟩
  refine ⟨⟨hval, trivial, trivial⟩, ?_⟩
  show value.eval env ^^^ -1#t.bits = 0#t.bits - value.eval env + -1#t.bits
  rw [neg_one_eq_allOnes, xor_allOnes, ← neg_one_eq_allOnes,
    BitVec.zero_sub, neg_eq_not_add (value.eval env), add_neg_cancel_right]

lemma sound_addRules : Sound (.binary .add left right) (addRules g left right) :=
  .orElse (sound_addOfAddConstant left right) <| .orElse (sound_moveConstant left right) <|
    .orElse (sound_moveRightConstant left right) <| .orElse (sound_foldConstants .add left right) <|
    .orElse (sound_addSame left right g) <| .orElse (sound_dropZero left right .add add_zero)
      (sound_addOfNegation left right)

lemma refines_reduceAdd : Refines (.binary .add left right) (reduceAdd g left right) :=
  refines_commute g .add add_comm (fun _ _ => trivial)
    (fun l r => .getD (sound_addRules l r g) (.refl _)) left right

lemma refines_reduceSub : Refines (.binary .sub left right) (reduceSub left right) := by
  refine .getD (.orElse (sound_foldConstants .sub left right) (.orElse ?_ ?_)) (.refl _)
  · refine .bind fun x hx => .some ?_
    rw [asInt?_eq_some hx]
    rintro env ⟨hleft, -, -⟩
    exact ⟨⟨hleft, trivial, trivial⟩, (sub_eq_add_neg _ _).symm⟩
  · refine .ite (fun h => .some ?_) fun _ => .none
    rw [isInt_zero h]
    rintro env ⟨-, hrt, -⟩
    exact ⟨hrt, (zero_sub _).symm⟩

end

lemma refines_reduceNeg (child : Value t) : Refines (.neg child) (reduceNeg child) := by
  refine .getD (.orElse (.bind fun x hx => .some ?_) ?_) (.refl _)
  · rw [asInt?_eq_some hx]
    exact fun env _ => ⟨trivial, rfl⟩
  · intro v hv
    rw [neg?_eq_some hv]
    exact fun env h => ⟨h, (neg_neg _).symm⟩

/-! ### Multiplication -/

/-- `value - 1` is taken to wrap around at the least value. -/
def hasOneBitSet {w : ℕ} (value : BitVec w) : Bool := (value - 1) &&& value == 0 && value != 0

/-- One line of `fastLog2`: the upper bits are taken if there are any. -/
def fastLog2Step (bits : ℕ) (state : ℕ × BitVec 32) : ℕ × BitVec 32 :=
  if state.2 >>> bits ≠ 0 then (state.1 + bits, state.2 >>> bits) else state

def fastLog2OfUnsigned (i : BitVec 32) : ℕ :=
  let log2 := if i &&& (i - 1) ≠ 0 then 1 else 0
  (fastLog2Step 1 (fastLog2Step 2 (fastLog2Step 4 (fastLog2Step 8 (fastLog2Step 16 (log2, i)))))).1

def fastLog2 (value : BitVec 64) : ℕ :=
  let high := (value >>> 32).setWidth 32
  if high ≠ 0 then fastLog2OfUnsigned high + 32 else fastLog2OfUnsigned (value.setWidth 32)

/-- The factors `0`, `1`, `-1` and the powers of two. -/
def mulByConstant (left right : Value t) : Option (Value t) := do
  let x ← right.asInt?
  let factor := x.signExtend 64
  if factor = 0 then return right
  else if factor = 1 then return left
  else if factor = -1 then return .binary .sub (.const 0) left
  else if hasOneBitSet factor then
    return .shift .shl left (.const (BitVec.ofNat 32 (fastLog2 factor)))
  else none

def reduceMul (g : Graph) (left right : Value t) : Value t :=
  let (left, right) := handleCommutativity g left right
  (foldConstants .mul left right <|> mulByConstant left right).getD (.binary .mul left right)

lemma exists_twoPow_of_oneBit {x : BitVec w} (h : hasOneBitSet x = true) :
    ∃ k < w, x = BitVec.twoPow w k := by
  simp only [hasOneBitSet, Bool.and_eq_true, beq_iff_eq, bne_iff_ne] at h
  obtain ⟨hand, hne⟩ := h
  have hlt := x.isLt
  have hzero : x.toNat ≠ 0 := fun h0 => hne (eq_of_toNat_eq h0)
  have hone : (1 : BitVec w).toNat = 1 := by
    show 1 % 2 ^ w = 1
    exact Nat.mod_eq_of_lt (by omega)
  have hpred : (x - 1).toNat = x.toNat - 1 := by
    rw [toNat_sub_of_le (by rw [le_def]; omega), hone]
  have hpow : x.toNat &&& x.toNat - 1 = 0 := by
    rw [← hpred, Nat.and_comm, ← toNat_and, hand]
    rfl
  obtain ⟨k, hk⟩ := (Nat.and_sub_one_eq_zero_iff_isPowerOfTwo hzero).1 hpow
  have hkw : k < w := (Nat.pow_lt_pow_iff_right (by decide)).1 (hk ▸ hlt)
  refine ⟨k, hkw, eq_of_toNat_eq ?_⟩
  simp [hk, Nat.mod_eq_of_lt (hk ▸ hlt)]

lemma fastLog2_twoPow (k : Fin 64) : fastLog2 (BitVec.twoPow 64 k) = k := by
  revert k
  decide +kernel

lemma setWidth_signExtend {v : ℕ} (h : w ≤ v) (x : BitVec w) : (x.signExtend v).setWidth w = x := by
  apply eq_of_getLsbD_eq
  intro i hi
  rw [getLsbD_setWidth, getLsbD_signExtend]
  simp [hi, show i < v by omega]

lemma IntType.bits_le (t : IntType) : t.bits ≤ 64 := by
  cases t <;> decide

variable {x : BitVec t.bits}

/-- A constant is determined by its value as an `int64_t`. -/
lemma eq_setWidth_of_signExtend {y : BitVec 64} (h : x.signExtend 64 = y) :
    x = y.setWidth t.bits := by
  rw [← h, setWidth_signExtend t.bits_le]

lemma setWidth_twoPow {v : ℕ} (h : w ≤ v) (k : ℕ) :
    (BitVec.twoPow v k).setWidth w = BitVec.twoPow w k := by
  apply eq_of_toNat_eq
  simp [Nat.mod_mod_of_dvd _ (pow_dvd_pow 2 h)]

/-- The factor is a power of two of the type. -/
lemma exists_twoPow_of_signExtend (h : hasOneBitSet (x.signExtend 64) = true) :
    ∃ k < t.bits, x = BitVec.twoPow t.bits k ∧ fastLog2 (x.signExtend 64) = k := by
  obtain ⟨k, hk, heq⟩ := exists_twoPow_of_oneBit h
  have hx := (eq_setWidth_of_signExtend heq).trans (setWidth_twoPow t.bits_le k)
  have hlog : fastLog2 (x.signExtend 64) = k := heq ▸ fastLog2_twoPow ⟨k, hk⟩
  rcases Nat.lt_or_ge k t.bits with hlt | hge
  · exact ⟨k, hlt, hx, hlog⟩
  · -- a greater power is zero in the type
    have hzero : x = 0 := by
      apply eq_of_toNat_eq
      rw [hx, toNat_twoPow, Nat.mod_eq_zero_of_dvd (pow_dvd_pow 2 hge)]
      rfl
    rw [hzero, show (0 : BitVec t.bits).signExtend 64 = 0 by cases t <;> rfl] at h
    exact absurd h (by decide)

lemma sound_mulByConstant (left right : Value t) :
    Sound (.binary .mul left right) (mulByConstant left right) := by
  refine .bind fun x hx => ?_
  rw [asInt?_eq_some hx]
  refine .ite (fun h => .some ?_) fun h₀ => .ite (fun h => .some ?_) fun _ =>
    .ite (fun h => .some ?_) fun _ => .ite (fun h => .some ?_) fun _ => .none
  · have hzero : x = 0 := by
      rw [eq_setWidth_of_signExtend h]
      cases t <;> rfl
    rw [hzero]
    exact fun env _ => ⟨trivial, (mul_zero _).symm⟩
  · have hone : x = 1 := by
      rw [eq_setWidth_of_signExtend h]
      cases t <;> rfl
    rw [hone]
    rintro env ⟨hleft, -, -⟩
    exact ⟨hleft, (mul_one _).symm⟩
  · have hneg : x = -1 := by
      rw [eq_setWidth_of_signExtend h]
      cases t <;> rfl
    rw [hneg]
    rintro env ⟨hleft, -, -⟩
    refine ⟨⟨trivial, hleft, trivial⟩, ?_⟩
    show 0 - left.eval env = left.eval env * -1
    ring
  · obtain ⟨k, hk, rfl, hlog⟩ := exists_twoPow_of_signExtend h
    rintro env ⟨hleft, -, -⟩
    refine ⟨⟨hleft, trivial⟩, ?_⟩
    have hamt : (BitVec.ofNat 32 k).toNat % t.bits = k := by
      have := t.bits_le
      rw [toNat_ofNat, Nat.mod_eq_of_lt (show k < 2 ^ 32 by omega), Nat.mod_eq_of_lt hk]
    show left.eval env <<< ((BitVec.ofNat 32 (fastLog2 _)).toNat % t.bits) = _
    rw [hlog, hamt, shiftLeft_eq_mul_twoPow]
    rfl

lemma refines_reduceMul (g : Graph) (left right : Value t) :
    Refines (.binary .mul left right) (reduceMul g left right) :=
  refines_commute g .mul mul_comm (fun _ _ => trivial)
    (fun l r => .getD (.orElse (sound_foldConstants .mul l r) (sound_mulByConstant l r)) (.refl _))
    left right

/-! ### Division -/

/-- The high half of the product with the multiplier, corrected for a multiplier whose sign is not
that of the divisor. -/
def correctedProduct (multiplier divisor : BitVec 32) (left : Value .int32) : Value .int32 :=
  let quotient : Value .int32 :=
    .trunc (.shift .zShr (.binary .mul (.sExt32 left) (.const (multiplier.signExtend 64)))
      (.const (32 : BitVec 32)))
  let quotient :=
    if 0 < divisor.toInt ∧ multiplier.toInt < 0 then .binary .add quotient left else quotient
  if divisor.toInt < 0 ∧ 0 < multiplier.toInt then .binary .sub quotient left else quotient

def magicQuotient (magic : DivisionMagic 32) (divisor : BitVec 32) (left : Value .int32) :
    Value .int32 :=
  let quotient := correctedProduct magic.magicMultiplier divisor left
  if 0 < magic.shift then .shift .sShr quotient (.const (BitVec.ofNat 32 magic.shift))
  else quotient

/-- The division by a constant as a multiplication, for `Int32` only. -/
def divByMagic (optLevel : ℕ) : {t : IntType} → Value t → BitVec t.bits → Option (Value t)
  | .int64, _, _ => none
  | .int32, left, divisor =>
    if optLevel < 2 then none
    else do
      let magic ← computeDivisionMagic divisor
      let quotient := magicQuotient magic divisor left
      return .binary .add quotient (.shift .zShr quotient (.const (31 : BitVec 32)))

def divByConstant (optLevel : ℕ) (left right : Value t) : Option (Value t) := do
  let divisor ← right.asInt?
  if divisor.toInt = -1 then return .neg left
  else if divisor.toInt = 0 then return right
  else if divisor.toInt = 1 then return left
  else divByMagic optLevel left divisor

def reduceDiv (optLevel : ℕ) (chill : Bool) (left right : Value t) : Value t :=
  (foldConstants (.div chill) left right <|> divByConstant optLevel left right).getD
    (.binary (.div chill) left right)

def uDivByConstant (left right : Value t) : Option (Value t) := do
  let divisor ← right.asInt?
  if divisor.toInt = 0 then return right
  else if divisor.toInt = 1 then return left
  else none

def reduceUDiv (left right : Value t) : Value t :=
  (foldConstants .uDiv left right <|> uDivByConstant left right).getD (.binary .uDiv left right)

/-- `Mod(N, D)` becomes `Sub(N, Mul(Div(N, D), D))`. -/
def modByConstant (optLevel : ℕ) (chill : Bool) (left right : Value t) : Option (Value t) := do
  let divisor ← right.asInt?
  if divisor.toInt = 0 then return right
  else if optLevel < 2 then none
  else return .binary .sub left (.binary .mul (.binary (.div chill) left right) right)

def reduceMod (optLevel : ℕ) (chill : Bool) (left right : Value t) : Value t :=
  (foldConstants (.mod chill) left right <|> modByConstant optLevel chill left right).getD
    (.binary (.mod chill) left right)

def reduceUMod (left right : Value t) : Value t :=
  (foldConstants .uMod left right).getD (.binary .uMod left right)

section

variable (chill : Bool)

lemma toInt_one : (1 : BitVec t.bits).toInt = 1 := by
  cases t <;> rfl

lemma eq_one_of_toInt (h : x.toInt = 1) : x = 1 := by
  rwa [← toInt_one, toInt_inj] at h

lemma eq_neg_one_of_toInt (h : x.toInt = -1) : x = -1 := by
  rwa [← toInt_neg_one t.bits_pos, toInt_inj] at h

section

variable {magic : DivisionMagic 32} {d : BitVec 32} {left : Value .int32}
  {env : Value.Assignment}

lemma defined_magicQuotient (h : left.Defined env) : (magicQuotient magic d left).Defined env := by
  simp only [magicQuotient, correctedProduct]
  split_ifs <;> simp [Value.Defined, BinaryOp.Defined, h]

lemma eval_correctedProduct (multiplier : BitVec 32) :
    (correctedProduct multiplier d left).eval env =
      corrected multiplier d (left.eval env)
        ((((left.eval env).signExtend 64 * multiplier.signExtend 64) >>> 32).setWidth 32) := by
  simp only [correctedProduct, corrected]
  by_cases hadd : 0 < d.toInt ∧ multiplier.toInt < 0
  · have hsub : ¬ (d.toInt < 0 ∧ 0 < multiplier.toInt) := by omega
    rw [if_neg hsub, if_pos hadd, if_pos hadd]
    rfl
  · split
    · rfl
    · rfl

lemma eval_magicQuotient (hshift : magic.shift < 32) :
    (magicQuotient magic d left).eval env =
      (corrected magic.magicMultiplier d (left.eval env)
        ((((left.eval env).signExtend 64 * magic.magicMultiplier.signExtend 64) >>> 32).setWidth
          32)).sshiftRight magic.shift := by
  have hamt : (BitVec.ofNat 32 magic.shift).toNat % 32 = magic.shift := by
    simp [Nat.mod_eq_of_lt hshift]
  rw [← eval_correctedProduct, magicQuotient]
  split
  · show BitVec.sshiftRight _ ((BitVec.ofNat 32 magic.shift).toNat % 32) = _
    rw [hamt]
  · simp [show magic.shift = 0 by omega]

end

variable (optLevel : ℕ)

lemma sound_divByMagic (left : Value t) (d : BitVec t.bits) (hd : 2 ≤ d.toInt.natAbs) :
    Sound (.binary (.div chill) left (.const d)) (divByMagic optLevel left d) := by
  cases t with
  | int64 => exact .none
  | int32 =>
    refine .ite (fun _ => .none) fun _ => .bind fun magic hmagic => .some ?_
    obtain ⟨mag, p, M, δ, nc, hmag, happrox⟩ := computeDivisionMagic_spec (by decide) d hd
    obtain rfl : magic = mag := Option.some.inj (hmagic.symm.trans hmag)
    rintro env ⟨hleft, -, -⟩
    have hdef : (magicQuotient magic d left).Defined env := defined_magicQuotient hleft
    exact ⟨⟨hdef, ⟨hdef, trivial⟩, trivial⟩,
      happrox.sdiv_eq hd (left.eval env) (eval_magicQuotient happrox.shift_lt)⟩

variable (left right : Value t)

lemma sound_divByConstant :
    Sound (.binary (.div chill) left right) (divByConstant optLevel left right) := by
  refine .bind fun d hd => ?_
  rw [asInt?_eq_some hd]
  refine .ite (fun h => .some ?_) fun h₁ => .ite (fun h => .some ?_) fun h₂ =>
    .ite (fun h => .some ?_) fun h₃ => sound_divByMagic chill optLevel left d (by omega)
  · rw [eq_neg_one_of_toInt h]
    rintro env ⟨hleft, -, -⟩
    exact ⟨hleft, (sdiv_neg_one t.bits_pos _).symm⟩
  · rw [toInt_eq_zero_iff.1 h]
    exact fun env _ => ⟨trivial, sdiv_zero.symm⟩
  · rw [eq_one_of_toInt h]
    rintro env ⟨hleft, -, -⟩
    exact ⟨hleft, sdiv_one.symm⟩

lemma refines_reduceDiv :
    Refines (.binary (.div chill) left right) (reduceDiv optLevel chill left right) :=
  .getD (.orElse (sound_foldConstants (.div chill) left right)
    (sound_divByConstant chill optLevel left right)) (.refl _)

lemma refines_reduceUDiv : Refines (.binary .uDiv left right) (reduceUDiv left right) := by
  refine .getD (.orElse (sound_foldConstants .uDiv left right) (.bind fun d h => ?_)) (.refl _)
  rw [asInt?_eq_some h]
  refine .ite (fun h => .some ?_) fun _ => .ite (fun h => .some ?_) fun _ => .none
  · rw [toInt_eq_zero_iff.1 h]
    exact fun env _ => ⟨trivial, udiv_zero.symm⟩
  · rw [eq_one_of_toInt h]
    rintro env ⟨hleft, -, -⟩
    exact ⟨hleft, udiv_one.symm⟩

lemma sub_sdiv_mul (x y : BitVec w) : x - x.sdiv y * y = x.srem y := by
  apply eq_of_toInt_eq
  have hrem : x.toInt - x.toInt.tdiv y.toInt * y.toInt = (x.srem y).toInt := by
    simp [Int.tmod_def, mul_comm]
  rw [toInt_sub, toInt_mul, toInt_sdiv, Int.bmod_mul_bmod, Int.sub_bmod_bmod,
    hrem, toInt_bmod_cancel]

lemma refines_reduceMod :
    Refines (.binary (.mod chill) left right) (reduceMod optLevel chill left right) := by
  refine .getD (.orElse (sound_foldConstants (.mod chill) left right) (.bind fun d h => ?_))
    (.refl _)
  rw [asInt?_eq_some h]
  refine .ite (fun h => .some ?_) fun hne => .ite (fun _ => .none) fun _ => .some ?_
  · rw [toInt_eq_zero_iff.1 h]
    refine fun env _ => ⟨trivial, ?_⟩
    simp [BinaryOp.eval]
  · rintro env ⟨hleft, -, hdef⟩
    refine ⟨⟨hleft, ⟨⟨hleft, trivial, ?_⟩, trivial, trivial⟩, trivial⟩, ?_⟩
    · cases chill with
      | false => exact hdef
      | true => trivial
    · have hzero : d ≠ 0 := mt toInt_eq_zero_iff.2 hne
      exact (sub_sdiv_mul _ _).trans (if_neg hzero).symm

lemma refines_reduceUMod : Refines (.binary .uMod left right) (reduceUMod left right) :=
  .getD (sound_foldConstants .uMod left right) (.refl _)

/-- A division by a constant other than `-1`, `0` and `1` becomes a multiplication whose value is
the quotient rounded towards zero, and a remainder is computed from that quotient. -/
theorem divByConstant_modByConstant_eval {divisor : BitVec 32}
    (hd : divisor.toInt ∉ ({-1, 0, 1} : Set ℤ)) :
    ∃ magic, computeDivisionMagic divisor = some magic ∧ magic.shift < 32 ∧
      ∀ (left : Value .int32) (env : Value.Assignment),
        let n := (left.eval env).toInt
        let d := divisor.toInt
        let quotient := magicQuotient magic divisor left
        let div : Value .int32 :=
          .binary .add quotient (.shift .zShr quotient (.const (31 : BitVec 32)))
        let mod (quotient : Value .int32) : Value .int32 :=
          .binary .sub left (.binary .mul quotient (.const divisor))
        (∀ optLevel ≥ 2, divByConstant optLevel left (.const divisor) = some div) ∧
        (∀ optLevel ≥ 2, ∀ chill, modByConstant optLevel chill left (.const divisor) =
          some (mod (.binary (.div chill) left (.const divisor)))) ∧
        (div.eval env).toInt = n.tdiv d ∧
        ((mod div).eval env).toInt = n - d * n.tdiv d ∧
        ∀ chill, ((mod (.binary (.div chill) left (.const divisor))).eval env).toInt =
          n - d * n.tdiv d := by
  simp only [Set.mem_insert_iff, Set.mem_singleton_iff, not_or] at hd
  obtain ⟨hneg, hzero, hone⟩ := hd
  have hd : 2 ≤ divisor.toInt.natAbs := by omega
  have hdivisor : divisor ≠ -1 := mt (congrArg BitVec.toInt) hneg
  obtain ⟨magic, p, M, δ, nc, hmagic, happrox⟩ := computeDivisionMagic_spec (by decide) divisor hd
  refine ⟨magic, hmagic, happrox.shift_lt, fun left env => ?_⟩
  intro n d quotient div mod
  have hdiv : div.eval env = (left.eval env).sdiv divisor :=
    happrox.sdiv_eq hd (left.eval env) (eval_magicQuotient happrox.shift_lt)
  -- the remainder is right for any expression of the quotient
  have hmod {q : Value .int32} (hq : q.eval env = (left.eval env).sdiv divisor) :
      ((mod q).eval env).toInt = n - d * n.tdiv d := by
    have heval : (mod q).eval env = (left.eval env).srem divisor := by
      rw [← sub_sdiv_mul, ← hq]
      rfl
    rw [heval, toInt_srem, Int.tmod_def]
  refine ⟨fun optLevel hopt => ?_, fun optLevel hopt chill => ?_, ?_, hmod hdiv,
    fun chill => hmod rfl⟩
  · have hmul : divByMagic optLevel left divisor = some div := by
      simp only [divByMagic, if_neg (show ¬ optLevel < 2 by omega), hmagic]
      rfl
    simpa only [divByConstant, asInt?, Option.bind_eq_bind, Option.bind_some, if_neg hneg,
      if_neg hzero, if_neg hone] using hmul
  · simp only [modByConstant, asInt?, Option.bind_eq_bind, Option.bind_some, if_neg hzero,
      if_neg (show ¬ optLevel < 2 by omega)]
    rfl
  · exact (congrArg BitVec.toInt hdiv).trans (toInt_sdiv_of_ne_or_ne _ _ (.inr hdivisor))

theorem divByConstant_modByConstant_eval_seven :
    (7 : BitVec 32).toInt ∉ ({-1, 0, 1} : Set ℤ) ∧
      ∃ q, divByConstant 2 (.leaf .int32 0) (.const (7 : BitVec 32)) = some q ∧
        (q.eval fun t _ => (-100 : BitVec t.bits)).toInt = -14 := by
  have hd : (7 : BitVec 32).toInt ∉ ({-1, 0, 1} : Set ℤ) := by decide
  obtain ⟨magic, -, -, heval⟩ := divByConstant_modByConstant_eval hd
  obtain ⟨hdiv, -, hquotient, -⟩ := heval (.leaf .int32 0) fun t _ => -100
  exact ⟨hd, _, hdiv 2 le_rfl, hquotient⟩

end

end WebKit.B3
