import WebKit.B3.ReduceStrength.Bits

/-!
# The pass `B3ReduceStrength` on integer values

The rules for the comparisons and `Select`, and the whole pass: any of the rewrites, at any place
of an expression and any number of times, keeps the value of the expression.
-/

namespace WebKit.B3

open Value CompareOp BitVec

variable {t u : IntType}

/-! ### Comparisons -/

/-- The value is `0` or `1`. -/
def Value.returnsBool : {t : IntType} → Value t → Bool
  | .int32, .const value => value == 0 || value == 1
  | .int32, .binary .bitAnd left right =>
    right.isInt 1 || (left.returnsBool && (right.asInt?.any fun x => x &&& 1 != 0))
  | _, .compare _ _ _ => true
  | _, _ => false

/-- `equalConstant`, `lessThanConstant` and so on. -/
def foldCompare (op : CompareOp) (left right : Value t) : Option (Value .int32) := do
  let x ← left.asInt?
  let y ← right.asInt?
  return .const (if op.holds x y then 1 else 0)

/-- `Equal(bool, 0)` and `Equal(bool, 1)`. -/
def equalBool : {t : IntType} → Value t → Value t → Option (Value .int32)
  | .int32, left, right =>
    if left.returnsBool ∧ right.isInt 0 then some (.binary .bitXor left (.const (1 : BitVec 32)))
    else if left.returnsBool ∧ right.isInt 1 then some left
    else none
  | .int64, _, _ => none

/-- `NotEqual(bool, 0)` and `NotEqual(bool, 1)`. -/
def notEqualBool : {t : IntType} → Value t → Value t → Option (Value .int32)
  | .int32, left, right =>
    if left.returnsBool ∧ right.isInt 0 then some left
    else if left.returnsBool ∧ right.isInt 1 then
      some (.compare .equal left (.const (0 : BitVec 32)))
    else none
  | .int64, _, _ => none

def reduceCompare (g : Graph) (op : CompareOp) (left right : Value t) : Value .int32 :=
  match op with
  | .equal =>
    let (left, right) := handleCommutativity g left right
    (equalBool left right <|> foldCompare .equal left right).getD (.compare .equal left right)
  | .notEqual =>
    let (left, right) := handleCommutativity g left right
    (notEqualBool left right <|> foldCompare .notEqual left right).getD
      (.compare .notEqual left right)
  | op => (foldCompare op left right).getD (.compare op left right)

lemma and_one_cases (x : BitVec 32) : x &&& 1 = 0 ∨ x &&& 1 = 1 := by
  have hmod : (x &&& 1).toNat = x.toNat % 2 := by
    exact Nat.and_one_is_mod _
  rcases Nat.mod_two_eq_zero_or_one x.toNat with h | h
  · exact .inl (eq_of_toNat_eq (hmod.trans h))
  · exact .inr (eq_of_toNat_eq (hmod.trans h))

lemma returnsBool_eval (v : Value t) (h : v.returnsBool = true) (env : Value.Assignment) :
    v.eval env = 0 ∨ v.eval env = 1 := by
  fun_induction returnsBool v with
  | case1 value => simpa using h
  | case2 left right ih =>
    simp only [Bool.or_eq_true, Bool.and_eq_true] at h
    rcases h with h | ⟨hl, hr⟩
    · obtain ⟨x, rfl, hx⟩ := isInt_iff.1 h
      obtain rfl : x = 1 := eq_one_of_toInt hx
      exact and_one_cases _
    · rcases hx : right.asInt? with _ | x
      · rw [hx] at hr
        cases hr
      · rw [asInt?_eq_some hx]
        show left.eval env &&& x = 0 ∨ left.eval env &&& x = 1
        rcases ih hl with heq | heq <;> rw [heq]
        · exact .inl zero_and
        · rw [BitVec.and_comm]
          exact and_one_cases x
  | case3 op left right =>
    show (if _ then _ else _ : BitVec 32) = 0 ∨ (if _ then _ else _ : BitVec 32) = 1
    split
    · exact .inr rfl
    · exact .inl rfl
  | case4 => cases h

section

variable (left right : Value t)

lemma sound_foldCompare (op : CompareOp) :
    Sound (.compare op left right) (foldCompare op left right) := by
  refine .bind fun x hx => .bind fun y hy => .some ?_
  rw [asInt?_eq_some hx, asInt?_eq_some hy]
  exact fun env _ => ⟨trivial, rfl⟩

lemma Value.isInt_one {v : Value t} (h : v.isInt 1 = true) : v = .const 1 := by
  obtain ⟨x, rfl, hx⟩ := isInt_iff.1 h
  rw [eq_one_of_toInt hx]

lemma sound_equalBool : Sound (.compare .equal left right) (equalBool left right) := by
  cases t with
  | int64 => exact .none
  | int32 =>
    refine .ite (fun h => .some ?_) fun _ => .ite (fun h => .some ?_) fun _ => .none
    · rw [isInt_zero h.2]
      rintro env ⟨hleft, -⟩
      refine ⟨⟨hleft, trivial, trivial⟩, ?_⟩
      show left.eval env ^^^ 1 = equal.eval (left.eval env) 0
      rcases returnsBool_eval left h.1 env with heq | heq <;> rw [heq] <;> rfl
    · rw [isInt_one h.2]
      rintro env ⟨hleft, -⟩
      refine ⟨hleft, ?_⟩
      show left.eval env = equal.eval (left.eval env) 1
      rcases returnsBool_eval left h.1 env with heq | heq <;> rw [heq] <;> rfl

lemma sound_notEqualBool : Sound (.compare .notEqual left right) (notEqualBool left right) := by
  cases t with
  | int64 => exact .none
  | int32 =>
    refine .ite (fun h => .some ?_) fun _ => .ite (fun h => .some ?_) fun _ => .none
    · rw [isInt_zero h.2]
      rintro env ⟨hleft, -⟩
      refine ⟨hleft, ?_⟩
      show left.eval env = notEqual.eval (left.eval env) 0
      rcases returnsBool_eval left h.1 env with heq | heq <;> rw [heq] <;> rfl
    · rw [isInt_one h.2]
      rintro env ⟨hleft, -⟩
      refine ⟨⟨hleft, trivial⟩, ?_⟩
      show equal.eval (left.eval env) 0 = notEqual.eval (left.eval env) 1
      rcases returnsBool_eval left h.1 env with heq | heq <;> rw [heq] <;> rfl

/-- The order of the children makes no difference to a symmetric comparison. -/
lemma refines_compare (g : Graph) {op : CompareOp}
    (hop : ∀ {w : ℕ} (x y : BitVec w), op.holds x y = op.holds y x)
    {reduce : Value t → Value t → Value .int32}
    (h : ∀ left right, Refines (.compare op left right) (reduce left right)) :
    Refines (.compare op left right)
      (reduce (handleCommutativity g left right).1 (handleCommutativity g left right).2) := by
  rcases handleCommutativity_cases g left right with heq | heq <;> rw [heq]
  · exact h left right
  · refine .trans ?_ (h right left)
    rintro env ⟨hl, hr⟩
    refine ⟨⟨hr, hl⟩, ?_⟩
    simp [CompareOp.eval, hop]

lemma refines_reduceCompare (g : Graph) (op : CompareOp) :
    Refines (.compare op left right) (reduceCompare g op left right) := by
  cases op with
  | equal =>
    exact refines_compare left right g (fun _ _ => BEq.comm)
      (fun l r => .getD (.orElse (sound_equalBool l r) (sound_foldCompare l r .equal)) (.refl _))
  | notEqual =>
    refine refines_compare left right g (fun x y => ?_) fun l r => .getD
      (.orElse (sound_notEqualBool l r) (sound_foldCompare l r .notEqual)) (.refl _)
    exact bne_comm
  | _ => exact .getD (sound_foldCompare left right _) (.refl _)

end

/-! ### `Select` -/

/-- The first rules that apply to the predicate. -/
def selectOfPredicate : {t u : IntType} → Value u → Value t → Value t → Option (Value t)
  | _, .int32, .const x, thenCase, elseCase => some (if x ≠ 0 then thenCase else elseCase)
  | _, _, .compare .equal x zero, thenCase, elseCase =>
    if zero.isInt 0 then some (.select x elseCase thenCase) else none
  | _, _, .binary .bitXor x one, thenCase, elseCase =>
    if one.asInt32? = some 1 ∧ x.returnsBool then some (.select x elseCase thenCase) else none
  | _, _, .binary .bitAnd x constant, thenCase, elseCase =>
    if (constant.asInt?.any fun y => y &&& 1 != 0) ∧ x.returnsBool then
      some (.select x thenCase elseCase)
    else none
  | _, _, _, _, _ => none

def reduceSelect (g : Graph) (predicate : Value u) (thenCase elseCase : Value t) : Value t :=
  (selectOfPredicate predicate thenCase elseCase
    <|> if g.same thenCase elseCase then some thenCase else none).getD
    (.select predicate thenCase elseCase)

lemma sound_selectOfPredicate (predicate : Value u) (thenCase elseCase : Value t) :
    Sound (.select predicate thenCase elseCase)
      (selectOfPredicate predicate thenCase elseCase) := by
  unfold selectOfPredicate
  -- a constant; then a comparison with zero, a negated Boolean, a masked Boolean
  split
  · rename_i x
    refine .some ?_
    rintro env ⟨-, hthen, helse⟩
    rw [eval_select, eval_const]
    split
    · exact ⟨hthen, rfl⟩
    · exact ⟨helse, rfl⟩
  · rename_i x zero
    refine .ite (fun h => .some ?_) fun _ => .none
    rw [isInt_zero h]
    rintro env ⟨⟨hx, -⟩, hthen, helse⟩
    refine ⟨⟨hx, helse, hthen⟩, ?_⟩
    rw [eval_select, eval_select]
    simp [CompareOp.eval, CompareOp.holds]
  · rename_i x one
    refine .ite (fun h => .some ?_) fun _ => .none
    obtain rfl := eq_int32_of_asInt32? h.1
    rw [asInt32?_eq_some h.1]
    rintro env ⟨⟨hx, -, -⟩, hthen, helse⟩
    refine ⟨⟨hx, helse, hthen⟩, ?_⟩
    rw [eval_select, eval_select, eval_binary]
    rcases returnsBool_eval x h.2 env with heq | heq <;> rw [heq] <;> simp [BinaryOp.eval]
  · rename_i x constant
    refine .ite (fun h => .some ?_) fun _ => .none
    obtain ⟨hodd, hbool⟩ := h
    rcases hy : constant.asInt? with _ | y
    · rw [hy] at hodd
      cases hodd
    rw [asInt?_eq_some hy]
    rintro env ⟨⟨hx, -, -⟩, hthen, helse⟩
    refine ⟨⟨hx, hthen, helse⟩, ?_⟩
    have hone : 1 &&& y ≠ 0 := by
      rw [hy] at hodd
      rw [BitVec.and_comm]
      simpa using hodd
    have hne : (1 : BitVec u.bits) ≠ 0 := by cases u <;> decide
    rw [eval_select, eval_select]
    show _ = if x.eval env &&& y ≠ 0 then _ else _
    rcases returnsBool_eval x hbool env with heq | heq <;> rw [heq]
    · rw [show 0 &&& y = 0 from zero_and]
    · rw [if_pos hne, if_pos hone]
  · exact .none

lemma refines_reduceSelect (g : Graph) (predicate : Value u) (thenCase elseCase : Value t) :
    Refines (.select predicate thenCase elseCase) (reduceSelect g predicate thenCase elseCase) := by
  refine .getD (.orElse (sound_selectOfPredicate predicate thenCase elseCase)
    (.ite (fun h => .some ?_) fun _ => .none)) (.refl _)
  rw [g.eq_of_same h]
  rintro env ⟨-, -, helse⟩
  refine ⟨helse, ?_⟩
  rw [eval_select, ite_self]

/-! ### The pass -/

/-- One visit of a value by `reduceValueStrength`. -/
def reduceValueStrength (g : Graph) (optLevel : ℕ) : {t : IntType} → Value t → Value t
  | _, .leaf t index => .leaf t index
  | _, .const value => .const value
  | _, .neg child => reduceNeg child
  | _, .binary .add left right => reduceAdd g left right
  | _, .binary .sub left right => reduceSub left right
  | _, .binary .mul left right => reduceMul g left right
  | _, .binary (.div chill) left right => reduceDiv optLevel chill left right
  | _, .binary .uDiv left right => reduceUDiv left right
  | _, .binary (.mod chill) left right => reduceMod optLevel chill left right
  | _, .binary .uMod left right => reduceUMod left right
  | _, .binary .bitAnd left right => reduceBitAnd g left right
  | _, .binary .bitOr left right => reduceBitOr g left right
  | _, .binary .bitXor left right => reduceBitXor g left right
  | _, .shift op child amount => reduceShift op child amount
  | _, .compare op left right => reduceCompare g op left right
  | _, .sExt8 child => reduceSExt8 child
  | _, .sExt16 child => reduceSExt16 child
  | _, .sExt32 child => reduceSExt32 child
  | _, .zExt32 child => reduceZExt32 child
  | _, .trunc child => reduceTrunc child
  | _, .select predicate thenCase elseCase => reduceSelect g predicate thenCase elseCase

lemma refines_reduceValueStrength (g : Graph) (optLevel : ℕ) (v : Value t) :
    Refines v (reduceValueStrength g optLevel v) := by
  cases v with
  | leaf | const => exact .refl _
  | neg child => exact refines_reduceNeg child
  | binary op left right =>
    cases op with
    | add => exact refines_reduceAdd left right g
    | sub => exact refines_reduceSub left right
    | mul => exact refines_reduceMul g left right
    | div chill => exact refines_reduceDiv chill optLevel left right
    | uDiv => exact refines_reduceUDiv left right
    | mod chill => exact refines_reduceMod chill optLevel left right
    | uMod => exact refines_reduceUMod left right
    | bitAnd => exact refines_reduceBitAnd left right g
    | bitOr => exact refines_reduceBitOr left right g
    | bitXor => exact refines_reduceBitXor left right g
  | shift op child amount => exact refines_reduceShift op child amount
  | compare op left right => exact refines_reduceCompare left right g op
  | sExt8 child => exact refines_reduceSExt8 child
  | sExt16 child => exact refines_reduceSExt16 child
  | sExt32 child => exact refines_reduceSExt32 child
  | zExt32 child => exact refines_reduceZExt32 child
  | trunc child => exact refines_reduceTrunc child
  | select predicate thenCase elseCase =>
    exact refines_reduceSelect g predicate thenCase elseCase

/-- One rewrite somewhere in an expression. The indices of the nodes may differ from one rewrite to
the next. -/
inductive Step (optLevel : ℕ) : {t : IntType} → Value t → Value t → Prop where
  | root (g : Graph) {t : IntType} (v : Value t) :
    Step optLevel v (reduceValueStrength g optLevel v)
  | neg {t : IntType} {a a' : Value t} : Step optLevel a a' → Step optLevel (.neg a) (.neg a')
  | binaryLeft {t : IntType} {a a' : Value t} (op : BinaryOp) (b : Value t) :
    Step optLevel a a' → Step optLevel (.binary op a b) (.binary op a' b)
  | binaryRight {t : IntType} {b b' : Value t} (op : BinaryOp) (a : Value t) :
    Step optLevel b b' → Step optLevel (.binary op a b) (.binary op a b')
  | shiftLeft {t : IntType} {a a' : Value t} (op : ShiftOp) (s : Value .int32) :
    Step optLevel a a' → Step optLevel (.shift op a s) (.shift op a' s)
  | shiftRight {t : IntType} {s s' : Value .int32} (op : ShiftOp) (a : Value t) :
    Step optLevel s s' → Step optLevel (.shift op a s) (.shift op a s')
  | compareLeft {t : IntType} {a a' : Value t} (op : CompareOp) (b : Value t) :
    Step optLevel a a' → Step optLevel (.compare op a b) (.compare op a' b)
  | compareRight {t : IntType} {b b' : Value t} (op : CompareOp) (a : Value t) :
    Step optLevel b b' → Step optLevel (.compare op a b) (.compare op a b')
  | sExt8 {a a' : Value .int32} : Step optLevel a a' → Step optLevel (.sExt8 a) (.sExt8 a')
  | sExt16 {a a' : Value .int32} : Step optLevel a a' → Step optLevel (.sExt16 a) (.sExt16 a')
  | sExt32 {a a' : Value .int32} : Step optLevel a a' → Step optLevel (.sExt32 a) (.sExt32 a')
  | zExt32 {a a' : Value .int32} : Step optLevel a a' → Step optLevel (.zExt32 a) (.zExt32 a')
  | trunc {a a' : Value .int64} : Step optLevel a a' → Step optLevel (.trunc a) (.trunc a')
  | selectPredicate {t u : IntType} {p p' : Value u} (a b : Value t) :
    Step optLevel p p' → Step optLevel (.select p a b) (.select p' a b)
  | selectThen {t u : IntType} {a a' : Value t} (p : Value u) (b : Value t) :
    Step optLevel a a' → Step optLevel (.select p a b) (.select p a' b)
  | selectElse {t u : IntType} {b b' : Value t} (p : Value u) (a : Value t) :
    Step optLevel b b' → Step optLevel (.select p a b) (.select p a b')

lemma Step.refines {optLevel : ℕ} {v v' : Value t} (h : Step optLevel v v') : Refines v v' := by
  induction h with
  | root g v => exact refines_reduceValueStrength g optLevel v
  | neg _ ih => exact ih.neg
  | binaryLeft op b _ ih => exact .binary op ih (.refl b)
  | binaryRight op a _ ih => exact .binary op (.refl a) ih
  | shiftLeft op s _ ih => exact .shift op ih (.refl s)
  | shiftRight op a _ ih => exact .shift op (.refl a) ih
  | compareLeft op b _ ih => exact .compare op ih (.refl b)
  | compareRight op a _ ih => exact .compare op (.refl a) ih
  | sExt8 _ ih => exact ih.sExt8
  | sExt16 _ ih => exact ih.sExt16
  | sExt32 _ ih => exact ih.sExt32
  | zExt32 _ ih => exact ih.zExt32
  | trunc _ ih => exact ih.trunc
  | selectPredicate a b _ ih => exact .select ih (.refl a) (.refl b)
  | selectThen p b _ ih => exact .select (.refl p) ih (.refl b)
  | selectElse p a _ ih => exact .select (.refl p) (.refl a) ih

/-- However the pass rewrites an expression, the result is defined for every assignment of the
leaves for which the expression is, and computes the same value. -/
theorem reduceStrength_preserves_value {optLevel : ℕ} {v v' : Value t}
    (h : Relation.ReflTransGen (Step optLevel) v v') (env : Value.Assignment)
    (hdef : v.Defined env) : v'.Defined env ∧ v'.eval env = v.eval env := by
  induction h with
  | refl => exact ⟨hdef, rfl⟩
  | tail _ hstep ih =>
    obtain ⟨hdef', heq⟩ := ih
    obtain ⟨hdef'', heq'⟩ := hstep.refines env hdef'
    exact ⟨hdef'', heq'.trans heq⟩

/-- `x % 7`. -/
def sampleMod : Value .int32 := .binary (.mod false) (.leaf .int32 0) (.const 7)

/-- The remainder becomes a subtraction, and its division a multiplication. -/
theorem reduceStrength_sampleMod :
    ∃ v : Value .int32, Relation.ReflTransGen (Step 2) sampleMod v ∧ v ≠ sampleMod ∧
      v.eval (fun t _ => BitVec.ofInt t.bits (-100)) = BitVec.ofInt 32 (-2) := by
  have hfirst : Step 2 sampleMod _ := .root .inOrder sampleMod
  have hsecond : Step 2 (reduceValueStrength .inOrder 2 sampleMod) _ :=
    .binaryRight .sub (.leaf .int32 0) (.binaryLeft .mul (.const 7)
      (.root .inOrder (.binary (.div false) (.leaf .int32 0) (.const 7))))
  have hrun := Relation.ReflTransGen.tail (.single hfirst) hsecond
  refine ⟨_, hrun, ?_, ?_⟩
  · intro h
    cases h
  · have hdef : sampleMod.Defined fun t _ => BitVec.ofInt t.bits (-100) :=
      ⟨trivial, trivial, by decide, by decide⟩
    exact (reduceStrength_preserves_value hrun _ hdef).2.trans (by decide)

end WebKit.B3
