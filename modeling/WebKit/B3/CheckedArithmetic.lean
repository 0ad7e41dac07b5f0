import WebKit.B3.IntRange

/-!
# Checked arithmetic in `B3ReduceStrength`

`rangeFor` searches an expression backwards, at most five levels deep, for the interval its value
lies in. The overflow check of a `CheckAdd`, `CheckSub` or `CheckMul` is dropped when the intervals
of the children rule an overflow out.
-/

namespace WebKit.B3

open Value IntRange BitVec

/-! ### `rangeFor` -/

/-- A C++ shift by an amount that is negative or not less than the width is undefined. -/
def shiftAmount (t : IntType) (amount : BitVec 32) : Option ℕ :=
  if amount.toNat < t.bits then some amount.toNat else none

def rangeFor : (timeToLive : ℕ) → {t : IntType} → Value t → Option IntRange
  | 0, t, _ => some (.top t)
  | _ + 1, _, .const value => some ⟨value.toInt, value.toInt⟩
  | _ + 1, _, .binary .bitAnd _ (.const mask) => some (.rangeForMask mask)
  | timeToLive + 1, t, .shift .sShr child (.const amount) => do
    return (← rangeFor timeToLive child).sShr t (← shiftAmount t amount)
  | timeToLive + 1, t, .shift .zShr child (.const amount) => do
    return (← rangeFor timeToLive child).zShr t (← shiftAmount t amount)
  | timeToLive + 1, t, .shift .shl child (.const amount) => do
    return (← rangeFor timeToLive child).shl t (← shiftAmount t amount)
  | timeToLive + 1, t, .binary .add left right => do
    return (← rangeFor timeToLive left).add t (← rangeFor timeToLive right)
  | timeToLive + 1, t, .binary .sub left right => do
    return (← rangeFor timeToLive left).sub t (← rangeFor timeToLive right)
  | timeToLive + 1, t, .binary .mul left right => do
    return (← rangeFor timeToLive left).mul t (← rangeFor timeToLive right)
  | _ + 1, t, _ => some (.top t)

/-- Whether the search looks into a value. Otherwise its range is the whole type. -/
def isSearched {t : IntType} : Value t → Bool
  | .const _ | .binary .bitAnd _ (.const _) | .shift _ _ (.const _) => true
  | .binary .add _ _ | .binary .sub _ _ | .binary .mul _ _ => true
  | _ => false

/-- A left shift by `s` moves no value of the child out of the type, or the child has values at or
beyond both ends of those that stay. It also does no harm to a constant, or to a value that the
search does not look into. -/
def ShiftsSafely (timeToLive : ℕ) {t : IntType} (child : Value t) (s : ℕ) : Prop :=
  (∀ env, (shiftable t s).Mem (child.eval env).toInt) ∨
    ((∃ env, (child.eval env).toInt ≤ (shiftable t s).min) ∧
      ∃ env, (shiftable t s).max ≤ (child.eval env).toInt) ∨
    child.asInt?.isSome ∨ timeToLive = 0 ∨ isSearched child = false

/-- The search meets no mask below `-1`, no shift that C++ leaves undefined, and no left shift that
overflows at one end of the values of its child. -/
def WellRanged : (timeToLive : ℕ) → {t : IntType} → Value t → Prop
  | 0, _, _ => True
  | _ + 1, _, .binary .bitAnd _ (.const mask) => -1 ≤ mask.toInt
  | timeToLive + 1, t, .shift .sShr child (.const amount)
  | timeToLive + 1, t, .shift .zShr child (.const amount) =>
    WellRanged timeToLive child ∧ amount.toNat < t.bits
  | timeToLive + 1, t, .shift .shl child (.const amount) =>
    WellRanged timeToLive child ∧ amount.toNat < t.bits ∧
      ShiftsSafely timeToLive child amount.toNat
  | timeToLive + 1, _, .binary .add left right | timeToLive + 1, _, .binary .sub left right
  | timeToLive + 1, _, .binary .mul left right =>
    WellRanged timeToLive left ∧ WellRanged timeToLive right
  | _ + 1, _, _ => True

variable {amount : BitVec 32} {t : IntType}

lemma shiftAmount_eq (h : amount.toNat < t.bits) : shiftAmount t amount = some amount.toNat :=
  if_pos h

lemma shiftOp_eval_of_lt {w : ℕ} (h : amount.toNat < w) (op : ShiftOp) (x : BitVec w) :
    op.eval x amount = match op with
      | .shl => x <<< amount.toNat
      | .sShr => x.sshiftRight amount.toNat
      | .zShr => x >>> amount.toNat := by
  cases op <;> simp only [ShiftOp.eval, Nat.mod_eq_of_lt h]

/-- The value is in the range that the search finds. -/
def InRange (timeToLive : ℕ) {t : IntType} (e : Value t) : Prop :=
  ∃ r, rangeFor timeToLive e = some r ∧ r.Within t ∧ ∀ env, r.Mem (e.eval env).toInt

lemma rangeFor_eq_top {timeToLive : ℕ} {e : Value t}
    (h : timeToLive = 0 ∨ isSearched e = false) : rangeFor timeToLive e = some (.top t) := by
  unfold rangeFor
  split <;> simp_all [isSearched]

/-- The range of a left shift that is safe. -/
lemma ShiftsSafely.shl_mem {timeToLive s : ℕ} {child : Value t}
    (h : ShiftsSafely timeToLive child s) (hs : s < t.bits) {r : IntRange}
    (hr : rangeFor timeToLive child = some r) (hwin : r.Within t)
    (hmem : ∀ env, r.Mem (child.eval env).toInt) (env : Value.Assignment) :
    (r.shl t s).Mem (child.eval env <<< s).toInt := by
  by_cases hall : ∀ env, (shiftable t s).Mem (child.eval env).toInt
  · exact shl_mem_of_shiftable hs hwin (hall env) (hmem env)
  refine IntRange.shl_mem hs hwin ?_ (hmem env)
  by_cases htop : timeToLive = 0 ∨ isSearched child = false
  · obtain rfl := Option.some.inj ((rangeFor_eq_top htop).symm.trans hr)
    simp only [ShlExact, top, shiftable]
    omega
  rcases h with h | ⟨⟨low, hlow⟩, high, hhigh⟩ | hconst | h
  · exact absurd h hall
  · -- the range holds the values that are at or beyond the ends
    exact .inr (.inl ⟨(hmem low).1.trans hlow, hhigh.trans (hmem high).2⟩)
  · obtain ⟨v, hv⟩ := Option.isSome_iff_exists.1 hconst
    obtain rfl := asInt?_eq_some hv
    obtain ⟨n, rfl⟩ := Nat.exists_eq_succ_of_ne_zero fun h => htop (.inl h)
    obtain rfl := Option.some.inj hr
    simp only [ShlExact]
    omega
  · exact absurd h htop

lemma InRange.shift {timeToLive : ℕ} {op : ShiftOp} {child : Value t}
    (h : InRange timeToLive child) (hamt : amount.toNat < t.bits)
    (hshl : op = .shl → ShiftsSafely timeToLive child amount.toNat) :
    InRange (timeToLive + 1) (.shift op child (.const amount : Value .int32)) := by
  obtain ⟨r, hr, hwin, hmem⟩ := h
  cases op with
  | shl =>
    refine ⟨r.shl t amount.toNat, ?_, within_shl hamt hwin, fun env => ?_⟩
    · simp [rangeFor, hr, shiftAmount_eq hamt]
    · rw [eval_shift, eval_const, shiftOp_eval_of_lt hamt]
      exact (hshl rfl).shl_mem hamt hr hwin hmem env
  | sShr =>
    refine ⟨r.sShr t amount.toNat, ?_, within_mk_toInt _ _, fun env => ?_⟩
    · simp [rangeFor, hr, shiftAmount_eq hamt]
    · rw [eval_shift, eval_const, shiftOp_eval_of_lt hamt]
      exact sShr_mem hwin (hmem env) _
  | zShr =>
    refine ⟨r.zShr t amount.toNat, ?_, within_zShr hwin _, fun env => ?_⟩
    · simp [rangeFor, hr, shiftAmount_eq hamt]
    · rw [eval_shift, eval_const, shiftOp_eval_of_lt hamt]
      exact zShr_mem hwin (hmem env) _

section

variable {timeToLive : ℕ} {t : IntType} {left right : Value t}
  (hl : InRange timeToLive left) (hr : InRange timeToLive right)

include hl hr

lemma InRange.add : InRange (timeToLive + 1) (.binary .add left right) := by
  obtain ⟨l, hl, -, hlmem⟩ := hl
  obtain ⟨r, hr, -, hrmem⟩ := hr
  exact ⟨l.add t r, by simp [rangeFor, hl, hr], within_add,
    fun env => add_mem (hlmem env) (hrmem env)⟩

lemma InRange.sub : InRange (timeToLive + 1) (.binary .sub left right) := by
  obtain ⟨l, hl, -, hlmem⟩ := hl
  obtain ⟨r, hr, -, hrmem⟩ := hr
  exact ⟨l.sub t r, by simp [rangeFor, hl, hr], within_sub,
    fun env => sub_mem (hlmem env) (hrmem env)⟩

lemma InRange.mul : InRange (timeToLive + 1) (.binary .mul left right) := by
  obtain ⟨l, hl, -, hlmem⟩ := hl
  obtain ⟨r, hr, -, hrmem⟩ := hr
  exact ⟨l.mul t r, by simp [rangeFor, hl, hr], within_mul l r,
    fun env => mul_mem (hlmem env) (hrmem env)⟩

end

lemma inRange_of_wellRanged (timeToLive : ℕ) (e : Value t)
    (h : WellRanged timeToLive e) : InRange timeToLive e := by
  fun_induction rangeFor timeToLive e with
  | case1 => exact ⟨_, rfl, within_top _, fun env => mem_top _⟩
  | case2 t value =>
    exact ⟨_, rfl, within_mk_toInt _ _, fun env => ⟨le_refl _, le_refl _⟩⟩
  | case3 t left mask =>
    exact ⟨_, rfl, within_rangeForMask _,
      fun env => (rangeForMask_mem_iff mask).2 h (left.eval env)⟩
  | case4 n t amount child ih | case5 n t amount child ih =>
    exact (ih h.1).shift h.2 fun heq => by cases heq
  | case6 n t amount child ih =>
    exact (ih h.1).shift h.2.1 fun _ => h.2.2
  | case7 n t left right ihl ihr => exact (ihl h.1).add (ihr h.2)
  | case8 n t left right ihl ihr => exact (ihl h.1).sub (ihr h.2)
  | case9 n t left right ihl ihr => exact (ihl h.1).mul (ihr h.2)
  | case10 n t e h₁ h₂ h₃ h₄ h₅ h₆ h₇ h₈ =>
    refine ⟨.top t, ?_, within_top t, fun env => mem_top _⟩
    rw [rangeFor] <;> assumption

/-! ### Checked arithmetic -/

inductive CheckOp where
  | add
  | sub
  | mul
  deriving DecidableEq

namespace CheckOp

def exact : CheckOp → ℤ → ℤ → ℤ
  | .add, x, y => x + y
  | .sub, x, y => x - y
  | .mul, x, y => x * y

def unchecked : CheckOp → BinaryOp
  | .add => .add
  | .sub => .sub
  | .mul => .mul

/-- A check has no value when it overflows: the program exits there. -/
def eval {t : IntType} (op : CheckOp) (x y : BitVec t.bits) : Option (BitVec t.bits) :=
  if t.Fits (op.exact x.toInt y.toInt) then some (op.unchecked.eval x y) else none

def couldOverflow : CheckOp → IntType → IntRange → IntRange → Bool
  | .add => IntRange.couldOverflowAdd
  | .sub => IntRange.couldOverflowSub
  | .mul => IntRange.couldOverflowMul

end CheckOp

/-- What a check becomes. -/
inductive Checked (t : IntType) where
  | value (v : Value t)
  | check (op : CheckOp) (left right : Value t)

def Checked.eval {t : IntType} (env : Value.Assignment) : Checked t → Option (BitVec t.bits)
  | .value v => some (v.eval env)
  | .check op left right => op.eval (left.eval env) (right.eval env)

/-- `checkAddConstant`, `checkSubConstant` and `checkMulConstant`. -/
def checkConstant {t : IntType} (op : CheckOp) (left right : Value t) : Option (Value t) :=
  match left.asInt?, right.asInt? with
  | some x, some y =>
    let result := op.exact x.toInt y.toInt
    if t.Fits result then some (.const (BitVec.ofInt t.bits result)) else none
  | _, _ => none

/-- `-0` and the negation of the least integer are not taken. -/
def checkNegConstant {t : IntType} (v : Value t) : Option (Value t) :=
  match v.asInt? with
  | some x => if x = -x then none else some (.const (-x))
  | none => none

/-- The check is dropped when the ranges of its children rule an overflow out. -/
def uncheckByRange {t : IntType} (op : CheckOp) (left right : Value t) : Option (Checked t) := do
  let leftRange ← rangeFor 5 left
  let rightRange ← rangeFor 5 right
  return if !op.couldOverflow t leftRange rightRange then .value (.binary op.unchecked left right)
    else .check op left right

def reduceCheckAdd {t : IntType} (g : Graph) (left right : Value t) : Option (Checked t) :=
  match checkConstant .add left right with
  | some v => some (.value v)
  | none =>
    let (left, right) := handleCommutativity g left right
    if right.asInt? = some 0 then some (.value left) else uncheckByRange .add left right

def reduceCheckSub {t : IntType} (left right : Value t) : Option (Checked t) :=
  match checkConstant .sub left right with
  | some v => some (.value v)
  | none =>
    if right.asInt? = some 0 then some (.value left)
    else
      match checkNegConstant right with
      | some negatedConstant => some (.check .add left negatedConstant)
      | none => uncheckByRange .sub left right

def reduceCheckMul {t : IntType} (g : Graph) (left right : Value t) : Option (Checked t) :=
  match checkConstant .mul left right with
  | some v => some (.value v)
  | none =>
    let (left, right) := handleCommutativity g left right
    if right.asInt? = some 0 then some (.value (.const 0))
    else if right.asInt? = some 1 then some (.value left)
    else if right.asInt? = some 2 then some (.check .add left left)
    else uncheckByRange .mul left right

def reduceCheck {t : IntType} (g : Graph) : CheckOp → Value t → Value t → Option (Checked t)
  | .add => reduceCheckAdd g
  | .sub => reduceCheckSub
  | .mul => reduceCheckMul g

/-- The constants for which the pass asks for no range. Subtracting one becomes adding its
negative. -/
def CheckOp.Decides {t : IntType} (c : BitVec t.bits) : CheckOp → Prop
  | .add => c = 0
  | .sub => c = 0 ∨ c ≠ -c
  | .mul => c = 0 ∨ c = 1 ∨ c = 2

/-- A constant operand decides what becomes of the check. -/
def DecidedByConstant {t : IntType} (op : CheckOp) (left right : Value t) : Prop :=
  (∃ c, right.asInt? = some c ∧ op.Decides c) ∨
    op ≠ .sub ∧ ∃ c, left.asInt? = some c ∧ op.Decides c

section

variable {t : IntType} {op : CheckOp} {left right : Value t} {x : BitVec t.bits}

lemma CheckOp.eval_eq_some {y : BitVec t.bits} (h : t.Fits (op.exact x.toInt y.toInt)) :
    op.eval x y = some (BitVec.ofInt t.bits (op.exact x.toInt y.toInt)) := by
  rw [CheckOp.eval, if_pos h]
  congr 1
  apply eq_of_toInt_eq
  rw [h.toInt_ofInt]
  cases op with
  | add => exact (toInt_add _ _).trans h.bmod_eq
  | sub => exact toInt_sub.trans h.bmod_eq
  | mul => exact (toInt_mul _ _).trans h.bmod_eq

variable {op' : CheckOp}

/-- Two checks whose exact results agree have the same value. -/
lemma CheckOp.eval_congr {y x' y' : BitVec t.bits}
    (h : op.exact x.toInt y.toInt = op'.exact x'.toInt y'.toInt) :
    op.eval x y = op'.eval x' y' := by
  by_cases hfits : t.Fits (op.exact x.toInt y.toInt)
  · rw [CheckOp.eval_eq_some hfits, h, ← CheckOp.eval_eq_some (h ▸ hfits)]
  · rw [CheckOp.eval, CheckOp.eval, if_neg hfits, if_neg (h ▸ hfits)]

lemma CheckOp.eval_eq_of_exact {y z : BitVec t.bits}
    (h : op.exact x.toInt y.toInt = z.toInt) : op.eval x y = some z := by
  simp [CheckOp.eval_eq_some (h ▸ IntType.fits_toInt z), h]

variable {v : Value t}

lemma eval_checkConstant (h : checkConstant op left right = some v)
    (env : Value.Assignment) : some (v.eval env) = op.eval (left.eval env) (right.eval env) := by
  unfold checkConstant at h
  split at h
  · rename_i x y hx hy
    dsimp only at h
    split at h
    · rename_i hfits
      cases h
      rw [asInt?_eq_some hx, asInt?_eq_some hy]
      exact (CheckOp.eval_eq_some hfits).symm
    · cases h
  · cases h

lemma CheckOp.fits_of_not_couldOverflow {l r : IntRange} (h : op.couldOverflow t l r = false)
    {x y : ℤ} (hx : l.Mem x) (hy : r.Mem y) : t.Fits (op.exact x y) := by
  cases op with
  | add => exact fits_add h hx hy
  | sub => exact fits_sub h hx hy
  | mul => exact fits_mul h hx hy

/-- Each step of the pass on a check keeps its value, and its exit when it overflows. -/
def Preserves (op : CheckOp) (left right : Value t) (reduced : Option (Checked t)) : Prop :=
  ∃ c, reduced = some c ∧ ∀ env, c.eval env = op.eval (left.eval env) (right.eval env)

lemma preserves_uncheckByRange (hl : InRange 5 left) (hr : InRange 5 right) :
    Preserves op left right (uncheckByRange op left right) := by
  obtain ⟨l, hl, -, hlmem⟩ := hl
  obtain ⟨r, hr, -, hrmem⟩ := hr
  refine ⟨_, by simp only [uncheckByRange, hl, hr]; rfl, fun env => ?_⟩
  split
  · rename_i h
    have hfits := CheckOp.fits_of_not_couldOverflow (by simpa using h) (hlmem env) (hrmem env)
    rw [CheckOp.eval, if_pos hfits]
    rfl
  · rfl

lemma preserves_checkConstant (h : checkConstant op left right = some v) :
    Preserves op left right (some (.value v)) :=
  ⟨_, rfl, eval_checkConstant h⟩

lemma preserves_value
    (h : ∀ env, op.exact (left.eval env).toInt (right.eval env).toInt = (v.eval env).toInt) :
    Preserves op left right (some (.value v)) :=
  ⟨_, rfl, fun env => (CheckOp.eval_eq_of_exact (h env)).symm⟩

lemma preserves_check {left' right' : Value t}
    (h : ∀ env, op.exact (left.eval env).toInt (right.eval env).toInt =
      op'.exact (left'.eval env).toInt (right'.eval env).toInt) :
    Preserves op left right (some (.check op' left' right')) :=
  ⟨_, rfl, fun env => CheckOp.eval_congr (h env).symm⟩

variable (g : Graph)

/-- Unless the right operand decides the check, the range of each operand holds its value. -/
def RangesHold (op : CheckOp) (left right : Value t) : Prop :=
  (∀ c, right.asInt? = some c → ¬op.Decides c) → InRange 5 left ∧ InRange 5 right

/-- The order that `handleCommutativity` picks makes no difference to `Add` and `Mul`. -/
lemma preserves_commute (hop : op ≠ .sub) {f : Value t → Value t → Option (Checked t)}
    (h : ∀ {l r : Value t}, RangesHold op l r → Preserves op l r (f l r))
    (hlr : DecidedByConstant op left right ∨ InRange 5 left ∧ InRange 5 right) :
    Preserves op left right
      (f (handleCommutativity g left right).1 (handleCommutativity g left right).2) := by
  have hranges : RangesHold op (handleCommutativity g left right).1
      (handleCommutativity g left right).2 := by
    intro hnot
    have hconst (c : BitVec t.bits) : InRange 5 (.const c : Value t) :=
      inRange_of_wellRanged 5 _ trivial
    rcases hlr with (⟨c, hc, hdec⟩ | ⟨-, c, hc, hdec⟩) | ⟨hl, hr⟩
    · obtain rfl := asInt?_eq_some hc
      cases left <;> exact absurd hdec (hnot c rfl)
    · -- the left operand is moved to the right, unless both are constant
      obtain rfl := asInt?_eq_some hc
      cases right with
      | const c' => exact ⟨hconst c, hconst c'⟩
      | _ => exact absurd hdec (hnot c rfl)
    · rcases handleCommutativity_cases g left right with heq | heq <;> rw [heq]
      · exact ⟨hl, hr⟩
      · exact ⟨hr, hl⟩
  obtain ⟨c, hc, heval⟩ := h hranges
  refine ⟨c, hc, fun env => (heval env).trans ?_⟩
  rcases handleCommutativity_cases g left right with heq | heq <;> rw [heq]
  refine CheckOp.eval_congr ?_
  cases op with
  | add => exact add_comm _ _
  | sub => exact absurd rfl hop
  | mul => exact mul_comm _ _

lemma preserves_reduceCheckAdd
    (h : DecidedByConstant .add left right ∨ InRange 5 left ∧ InRange 5 right) :
    Preserves .add left right (reduceCheckAdd g left right) := by
  have key : ∀ {l r : Value t}, RangesHold .add l r → Preserves .add l r
      (if r.asInt? = some 0 then some (.value l) else uncheckByRange .add l r) := by
    intro l r hlr
    split
    · rename_i hzero
      apply preserves_value
      rw [asInt?_eq_some hzero]
      simp [CheckOp.exact]
    · rename_i hzero
      obtain ⟨hl, hr⟩ := hlr fun c hc hdec => hzero (hdec ▸ hc)
      exact preserves_uncheckByRange hl hr
  unfold reduceCheckAdd
  split
  · exact preserves_checkConstant (by assumption)
  · exact preserves_commute g CheckOp.noConfusion key h

lemma IntType.toInt_neg_of_ne (h : x ≠ -x) : (-x).toInt = -x.toInt := by
  have hne : x ≠ intMin t.bits := by
    rintro rfl
    exact h neg_intMin.symm
  exact toInt_neg_of_ne_intMin hne

lemma preserves_reduceCheckSub
    (h : DecidedByConstant .sub left right ∨ InRange 5 left ∧ InRange 5 right) :
    Preserves .sub left right (reduceCheckSub left right) := by
  unfold reduceCheckSub
  split
  · exact preserves_checkConstant (by assumption)
  · split
    · rename_i hzero
      apply preserves_value
      rw [asInt?_eq_some hzero]
      simp [CheckOp.exact]
    · rename_i hzero
      split
      · rename_i c hc
        apply preserves_check
        intro env
        unfold checkNegConstant at hc
        split at hc
        · rename_i x hx
          split at hc
          · cases hc
          · cases hc
            rename_i hne
            rw [asInt?_eq_some hx, eval_const, eval_const]
            simp only [CheckOp.exact, IntType.toInt_neg_of_ne hne]
            ring
        · cases hc
      · rename_i hneg
        obtain ⟨hl, hr⟩ := h.resolve_left (by
          rintro (⟨c, hc, rfl | hne⟩ | ⟨hsub, -⟩)
          · exact hzero hc
          · simp [checkNegConstant, hc, hne] at hneg
          · exact hsub rfl)
        exact preserves_uncheckByRange hl hr

lemma preserves_reduceCheckMul
    (h : DecidedByConstant .mul left right ∨ InRange 5 left ∧ InRange 5 right) :
    Preserves .mul left right (reduceCheckMul g left right) := by
  have key : ∀ {l r : Value t}, RangesHold .mul l r → Preserves .mul l r
      (if r.asInt? = some 0 then some (.value (.const 0))
        else if r.asInt? = some 1 then some (.value l)
        else if r.asInt? = some 2 then some (.check .add l l)
        else uncheckByRange .mul l r) := by
    intro l r hlr
    split_ifs with hzero hone htwo
    · apply preserves_value
      rw [asInt?_eq_some hzero]
      simp [CheckOp.exact]
    · apply preserves_value
      intro env
      have : (1 : BitVec t.bits).toInt = 1 := by cases t <;> rfl
      rw [asInt?_eq_some hone, eval_const, CheckOp.exact, this, mul_one]
    · apply preserves_check
      intro env
      have : (2 : BitVec t.bits).toInt = 2 := by cases t <;> rfl
      rw [asInt?_eq_some htwo, eval_const, this]
      exact mul_two _
    · obtain ⟨hl, hr⟩ := hlr (by rintro c hc (rfl | rfl | rfl) <;> contradiction)
      exact preserves_uncheckByRange hl hr
  unfold reduceCheckMul
  split
  · exact preserves_checkConstant (by assumption)
  · exact preserves_commute g CheckOp.noConfusion key h

end

/-! ### Soundness -/

/-- The range of a well ranged value holds its value for every assignment, and dropping the check of
an operation on well ranged values drops no overflow, nor does a check that a constant decides. -/
theorem rangeFor_sound {t : IntType} :
    (∀ (timeToLive : ℕ) (e : Value t), WellRanged timeToLive e →
      ∃ r, rangeFor timeToLive e = some r ∧
        ∀ env, r.min ≤ (e.eval env).toInt ∧ (e.eval env).toInt ≤ r.max) ∧
    (∀ (g : Graph) (op : CheckOp) (left right : Value t),
      DecidedByConstant op left right ∨ WellRanged 5 left ∧ WellRanged 5 right →
      ∃ c, reduceCheck g op left right = some c ∧
        ∀ env, c.eval env = op.eval (left.eval env) (right.eval env)) := by
  refine ⟨fun timeToLive e h => ?_, fun g op left right h => ?_⟩
  · obtain ⟨r, hr, -, hmem⟩ := inRange_of_wellRanged timeToLive e h
    exact ⟨r, hr, hmem⟩
  · have h := h.imp_right fun ⟨hl, hr⟩ =>
      And.intro (inRange_of_wellRanged 5 left hl) (inRange_of_wellRanged 5 right hr)
    cases op with
    | add => exact preserves_reduceCheckAdd g h
    | sub => exact preserves_reduceCheckSub h
    | mul => exact preserves_reduceCheckMul g h

/-- `((x & 0xff) - (y >>> 3)) * 3`. -/
def sampleValue : Value .int32 :=
  .binary .mul
    (.binary .sub (.binary .bitAnd (.leaf .int32 0) (.const 0xff))
      (.shift .zShr (.leaf .int32 1) (.const 3)))
    (.const 3)

theorem rangeFor_sampleValue :
    rangeFor 5 sampleValue = some ⟨-1610612733, 765⟩ ∧
      (∃ r, rangeFor 5 sampleValue = some r ∧
        ∀ env, r.min ≤ (sampleValue.eval env).toInt ∧ (sampleValue.eval env).toInt ≤ r.max) ∧
      ∃ c, reduceCheck .inOrder .add sampleValue sampleValue = some c ∧
        ∀ env, c.eval env = CheckOp.add.eval (sampleValue.eval env) (sampleValue.eval env) := by
  have hwell : WellRanged 5 sampleValue :=
    ⟨⟨show -1 ≤ BitVec.toInt 0xff by decide, trivial, by decide⟩, trivial⟩
  exact ⟨by decide, rangeFor_sound.1 5 sampleValue hwell,
    rangeFor_sound.2 .inOrder .add sampleValue sampleValue (.inr ⟨hwell, hwell⟩)⟩

def maskedLeaf : Value .int32 := .binary .bitAnd (.leaf .int32 0) (.const (-2))

def shiftedLeaf : Value .int32 :=
  .shift .shl (.binary .bitAnd (.leaf .int32 0) (.const 0x7fffffff)) (.const 1)

/-- The range of a negative mask is empty, and that of a shift misses the values that wrap: both
additions overflow after their checks are dropped. -/
theorem rangeFor_unsound :
    (∃ env : Value.Assignment, rangeFor 5 maskedLeaf = some ⟨0, -2⟩ ∧
      (maskedLeaf.eval env).toInt = 2 ^ 31 - 2 ∧
      reduceCheck .inOrder .add maskedLeaf (.const 2) =
        some (.value (.binary .add maskedLeaf (.const 2))) ∧
      CheckOp.add.eval (maskedLeaf.eval env) (2 : BitVec 32) = none) ∧
    (∃ env : Value.Assignment, rangeFor 5 shiftedLeaf = some ⟨0, 2 ^ 31 - 1⟩ ∧
      (shiftedLeaf.eval env).toInt = -2 ^ 31 ∧
      reduceCheck .inOrder .add shiftedLeaf (.const (-1)) =
        some (.value (.binary .add shiftedLeaf (.const (-1)))) ∧
      CheckOp.add.eval (shiftedLeaf.eval env) (-1 : BitVec 32) = none) := by
  refine ⟨⟨fun t _ => BitVec.ofInt t.bits (2 ^ 31 - 1), ?_, ?_, ?_, ?_⟩,
    ⟨fun t _ => BitVec.ofInt t.bits (2 ^ 30), ?_, ?_, ?_, ?_⟩⟩
  all_goals rfl

end WebKit.B3
