import Mathlib

/-!
# Integer values of B3

The pure operations of B3 on `Int32` and `Int64`, with the value that they compute for an
assignment of the opaque values. A shift uses only the low bits of its amount, and a comparison
returns an `Int32`.
-/

namespace WebKit.B3

/-- The integer types of B3. -/
inductive IntType where
  | int32
  | int64
  deriving DecidableEq

variable {t : IntType}

namespace IntType

@[reducible]
def bits : IntType → ℕ
  | .int32 => 32
  | .int64 => 64

lemma bits_pos (t : IntType) : 0 < t.bits := by
  cases t <;> decide

/-- The integers that the signed C++ type holds. -/
def Fits (t : IntType) (x : ℤ) : Prop := -2 ^ (t.bits - 1) ≤ x ∧ x < 2 ^ (t.bits - 1)

instance (t : IntType) (x : ℤ) : Decidable (t.Fits x) := inferInstanceAs (Decidable (_ ∧ _))

lemma fits_toInt (x : BitVec t.bits) : t.Fits x.toInt := ⟨BitVec.le_toInt x, BitVec.toInt_lt⟩

lemma Fits.toInt_ofInt {x : ℤ} (h : t.Fits x) : (BitVec.ofInt t.bits x).toInt = x :=
  BitVec.toInt_ofInt_eq_self t.bits_pos h.1 h.2

lemma Fits.bmod_eq {x : ℤ} (h : t.Fits x) : x.bmod (2 ^ t.bits) = x := by
  rw [← BitVec.toInt_ofInt, h.toInt_ofInt]

end IntType

inductive BinaryOp where
  | add
  | sub
  | mul
  | div (chill : Bool)
  | uDiv
  | mod (chill : Bool)
  | uMod
  | bitAnd
  | bitOr
  | bitXor
  deriving DecidableEq

inductive ShiftOp where
  | shl
  | sShr
  | zShr
  deriving DecidableEq

inductive CompareOp where
  | equal
  | notEqual
  | lessThan
  | greaterThan
  | lessEqual
  | greaterEqual
  | above
  | below
  | aboveEqual
  | belowEqual
  deriving DecidableEq

/-- The pure integer values. A `leaf` is a value that the pass knows nothing about. -/
inductive Value : IntType → Type where
  | leaf (t : IntType) (index : ℕ) : Value t
  | const {t : IntType} (value : BitVec t.bits) : Value t
  | neg {t : IntType} (child : Value t) : Value t
  | binary {t : IntType} (op : BinaryOp) (left right : Value t) : Value t
  | shift {t : IntType} (op : ShiftOp) (child : Value t) (amount : Value .int32) : Value t
  | compare {t : IntType} (op : CompareOp) (left right : Value t) : Value .int32
  | sExt8 (child : Value .int32) : Value .int32
  | sExt16 (child : Value .int32) : Value .int32
  | sExt32 (child : Value .int32) : Value .int64
  | zExt32 (child : Value .int32) : Value .int64
  | trunc (child : Value .int64) : Value .int32
  | select {t u : IntType} (predicate : Value u) (thenCase elseCase : Value t) : Value t

section

variable {w : ℕ}

/-- The cases that `Div` and `Mod` leave undefined unless they are chill have a value here; see
`BinaryOp.Defined`. -/
def BinaryOp.eval : BinaryOp → BitVec w → BitVec w → BitVec w
  | .add, x, y => x + y
  | .sub, x, y => x - y
  | .mul, x, y => x * y
  | .div _, x, y => x.sdiv y
  | .uDiv, x, y => x / y
  | .mod _, x, y => if y = 0 then 0 else x.srem y
  | .uMod, x, y => if y = 0 then 0 else x % y
  | .bitAnd, x, y => x &&& y
  | .bitOr, x, y => x ||| y
  | .bitXor, x, y => x ^^^ y

/-- The operands for which an operation has a value. -/
def BinaryOp.Defined : BinaryOp → BitVec w → BitVec w → Prop
  | .div false, x, y | .mod false, x, y => y ≠ 0 ∧ ¬ (x = BitVec.intMin w ∧ y = -1)
  | .uDiv, _, y | .uMod, _, y => y ≠ 0
  | _, _, _ => True

def ShiftOp.eval (op : ShiftOp) (x : BitVec w) (amount : BitVec 32) : BitVec w :=
  let s := amount.toNat % w
  match op with
  | .shl => x <<< s
  | .sShr => x.sshiftRight s
  | .zShr => x >>> s

def CompareOp.holds : CompareOp → BitVec w → BitVec w → Bool
  | .equal, x, y => x == y
  | .notEqual, x, y => x != y
  | .lessThan, x, y => x.slt y
  | .greaterThan, x, y => y.slt x
  | .lessEqual, x, y => x.sle y
  | .greaterEqual, x, y => y.sle x
  | .above, x, y => y.ult x
  | .below, x, y => x.ult y
  | .aboveEqual, x, y => y.ule x
  | .belowEqual, x, y => x.ule y

def CompareOp.eval (op : CompareOp) (x y : BitVec w) : BitVec 32 :=
  if op.holds x y then 1 else 0

end

namespace Value

/-- The values of the leaves. -/
abbrev Assignment : Type := (t : IntType) → ℕ → BitVec t.bits

def eval (env : Assignment) : {t : IntType} → Value t → BitVec t.bits
  | _, .leaf t index => env t index
  | _, .const value => value
  | _, .neg child => -child.eval env
  | _, .binary op left right => op.eval (left.eval env) (right.eval env)
  | _, .shift op child amount => op.eval (child.eval env) (amount.eval env)
  | _, .compare op left right => op.eval (left.eval env) (right.eval env)
  | _, .sExt8 child => ((child.eval env).setWidth 8).signExtend 32
  | _, .sExt16 child => ((child.eval env).setWidth 16).signExtend 32
  | _, .sExt32 child => (child.eval env).signExtend 64
  | _, .zExt32 child => (child.eval env).setWidth 64
  | _, .trunc child => (child.eval env).setWidth 32
  | _, .select predicate thenCase elseCase =>
    if predicate.eval env ≠ 0 then thenCase.eval env else elseCase.eval env

/-- Every operation below has a value. Both cases of a `select` are computed. -/
def Defined (env : Assignment) : {t : IntType} → Value t → Prop
  | _, .leaf _ _ | _, .const _ => True
  | _, .neg child => child.Defined env
  | _, .binary op left right =>
    left.Defined env ∧ right.Defined env ∧ op.Defined (left.eval env) (right.eval env)
  | _, .shift _ child amount => child.Defined env ∧ amount.Defined env
  | _, .compare _ left right => left.Defined env ∧ right.Defined env
  | _, .sExt8 child | _, .sExt16 child | _, .sExt32 child | _, .zExt32 child | _, .trunc child =>
    child.Defined env
  | _, .select predicate thenCase elseCase =>
    predicate.Defined env ∧ thenCase.Defined env ∧ elseCase.Defined env

variable (env : Assignment)

@[simp]
lemma eval_const (v : BitVec t.bits) : (const v).eval env = v := rfl

@[simp]
lemma eval_binary (op : BinaryOp) (l r : Value t) :
    (binary op l r).eval env = op.eval (l.eval env) (r.eval env) := rfl

@[simp]
lemma eval_shift (op : ShiftOp) (x : Value t) (amount : Value .int32) :
    (shift op x amount).eval env = op.eval (x.eval env) (amount.eval env) := rfl

@[simp]
lemma eval_compare (op : CompareOp) (l r : Value t) :
    (compare op l r).eval env = op.eval (l.eval env) (r.eval env) := rfl

lemma eval_select {t u : IntType} (p : Value u) (a b : Value t) :
    (select p a b).eval env = if p.eval env ≠ 0 then a.eval env else b.eval env := rfl

/-- `hasInt` and `asInt`. -/
def asInt? {t : IntType} : Value t → Option (BitVec t.bits)
  | .const value => some value
  | _ => none

lemma asInt?_eq_some {v : Value t} {x : BitVec t.bits} (h : v.asInt? = some x) : v = .const x := by
  cases v <;> simp_all [asInt?]

end Value

/-- What the pass reads of the nodes of a procedure besides the expressions: whether the index of
one child is greater than that of another, and whether two children are one node. -/
structure Graph where
  indexGreater : {t : IntType} → Value t → Value t → Bool
  same : {t : IntType} → Value t → Value t → Bool
  eq_of_same : ∀ {t : IntType} {a b : Value t}, same a b = true → a = b

/-- The children stand in the order of their indices, and no node is used twice. -/
def Graph.inOrder : Graph where
  indexGreater _ _ := false
  same _ _ := false
  eq_of_same h := by cases h

/-- A constant comes last, and otherwise the child with the greater index does. -/
def handleCommutativity (g : Graph) {t : IntType} (left right : Value t) : Value t × Value t :=
  match left, right with
  | left, .const v => (left, .const v)
  | .const v, right => (right, .const v)
  | left, right => if g.indexGreater left right then (right, left) else (left, right)

lemma handleCommutativity_cases (g : Graph) (left right : Value t) :
    handleCommutativity g left right = (left, right) ∨
      handleCommutativity g left right = (right, left) := by
  unfold handleCommutativity
  split
  · exact .inl rfl
  · exact .inr rfl
  · split
    · exact .inr rfl
    · exact .inl rfl

end WebKit.B3
