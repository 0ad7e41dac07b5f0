import WebKit.B3.Value

/-!
# Rewriting values in `B3ReduceStrength`

A rule looks at the children of a value and gives the value that replaces it, if it applies. It is
sound when the replacement is defined whenever the old value is, and computes the same.
-/

namespace WebKit.B3

variable {t : IntType}

/-! ### Looking at a value -/

variable {v : Value t} {a : Value t}

namespace Value

/-- `isInt`: the constant is compared as a signed integer. -/
def isInt (v : Value t) (value : ℤ) : Bool :=
  match v.asInt? with
  | some x => x.toInt == value
  | none => false

/-- `hasInt32` and `asInt32`. -/
def asInt32? : {t : IntType} → Value t → Option (BitVec 32)
  | .int32, .const value => some value
  | _, _ => none

/-- The children of a value with the opcode `op`. -/
def binary? (op : BinaryOp) : Value t → Option (Value t × Value t)
  | .binary op' left right => if op' = op then some (left, right) else none
  | _ => none

def shift? (op : ShiftOp) : Value t → Option (Value t × Value .int32)
  | .shift op' child amount => if op' = op then some (child, amount) else none
  | _ => none

def neg? : Value t → Option (Value t)
  | .neg child => some child
  | _ => none

def sExt8? : {t : IntType} → Value t → Option (Value t)
  | _, .sExt8 child => some child
  | _, _ => none

def sExt16? : {t : IntType} → Value t → Option (Value t)
  | _, .sExt16 child => some child
  | _, _ => none

lemma isInt_iff {n : ℤ} : v.isInt n = true ↔ ∃ x, v = .const x ∧ x.toInt = n := by
  cases v <;> simp [isInt, asInt?]

variable {x : BitVec 32}

lemma asInt32?_eq_some {v : Value .int32} (h : v.asInt32? = some x) : v = .const x := by
  cases v <;> simp_all [asInt32?]

lemma eq_int32_of_asInt32? (h : v.asInt32? = some x) : t = .int32 := by
  cases t with
  | int32 => rfl
  | int64 => cases v <;> simp [asInt32?] at h

lemma binary?_eq_some {op : BinaryOp} {b : Value t} (h : v.binary? op = some (a, b)) :
    v = .binary op a b := by
  cases v <;> simp_all [binary?]

lemma shift?_eq_some {op : ShiftOp} {s : Value .int32}
    (h : v.shift? op = some (a, s)) : v = .shift op a s := by
  cases v <;> simp_all [shift?]

lemma neg?_eq_some (h : v.neg? = some a) : v = .neg a := by
  cases v <;> simp_all [neg?]

lemma sExt8?_eq_some {v a : Value .int32} (h : v.sExt8? = some a) : v = .sExt8 a := by
  cases v <;> simp_all [sExt8?]

lemma sExt16?_eq_some {v a : Value .int32} (h : v.sExt16? = some a) : v = .sExt16 a := by
  cases v <;> simp_all [sExt16?]

end Value

/-! ### Refinement -/

/-- Wherever `v` is defined, so is `v'`, with the same value. -/
def Refines (v v' : Value t) : Prop :=
  ∀ env, v.Defined env → v'.Defined env ∧ v'.eval env = v.eval env

namespace Refines

variable {u : IntType}

lemma refl (v : Value t) : Refines v v := fun _ h => ⟨h, rfl⟩

lemma trans {b c : Value t} (hab : Refines a b) (hbc : Refines b c) : Refines a c := by
  intro env h
  obtain ⟨hb, heq⟩ := hab env h
  obtain ⟨hc, heq'⟩ := hbc env hb
  exact ⟨hc, heq'.trans heq⟩

lemma neg {a' : Value t} (h : Refines a a') : Refines (.neg a) (.neg a') := by
  intro env ha
  obtain ⟨hdef, heval⟩ := h env ha
  exact ⟨hdef, congrArg (fun x => -x) heval⟩

variable {a a' b b' : Value t}

lemma binary (op : BinaryOp) (ha : Refines a a') (hb : Refines b b') :
    Refines (.binary op a b) (.binary op a' b') := by
  rintro env ⟨hda, hdb, hop⟩
  obtain ⟨hda, hea⟩ := ha env hda
  obtain ⟨hdb, heb⟩ := hb env hdb
  refine ⟨⟨hda, hdb, ?_⟩, ?_⟩
  · rwa [hea, heb]
  · simp [hea, heb]

lemma shift {a' : Value t} {s s' : Value .int32} (op : ShiftOp) (ha : Refines a a')
    (hs : Refines s s') : Refines (.shift op a s) (.shift op a' s') := by
  rintro env ⟨hda, hds⟩
  obtain ⟨hda, hea⟩ := ha env hda
  obtain ⟨hds, hes⟩ := hs env hds
  exact ⟨⟨hda, hds⟩, by simp [hea, hes]⟩

lemma compare (op : CompareOp) (ha : Refines a a') (hb : Refines b b') :
    Refines (.compare op a b) (.compare op a' b') := by
  rintro env ⟨hda, hdb⟩
  obtain ⟨hda, hea⟩ := ha env hda
  obtain ⟨hdb, heb⟩ := hb env hdb
  exact ⟨⟨hda, hdb⟩, by simp [hea, heb]⟩

lemma select {p p' : Value u} (hp : Refines p p') (ha : Refines a a')
    (hb : Refines b b') : Refines (.select p a b) (.select p' a' b') := by
  rintro env ⟨hdp, hda, hdb⟩
  obtain ⟨hdp, hep⟩ := hp env hdp
  obtain ⟨hda, hea⟩ := ha env hda
  obtain ⟨hdb, heb⟩ := hb env hdb
  exact ⟨⟨hdp, hda, hdb⟩, by rw [Value.eval_select, Value.eval_select, hep, hea, heb]⟩

section

variable {a a' : Value .int32} (h : Refines a a')

include h

lemma sExt8 : Refines (.sExt8 a) (.sExt8 a') :=
  fun env ha => ⟨(h env ha).1, congrArg (fun x => (x.setWidth 8).signExtend 32) (h env ha).2⟩

lemma sExt16 : Refines (.sExt16 a) (.sExt16 a') :=
  fun env ha => ⟨(h env ha).1, congrArg (fun x => (x.setWidth 16).signExtend 32) (h env ha).2⟩

lemma sExt32 : Refines (.sExt32 a) (.sExt32 a') :=
  fun env ha => ⟨(h env ha).1, congrArg (BitVec.signExtend 64) (h env ha).2⟩

lemma zExt32 : Refines (.zExt32 a) (.zExt32 a') :=
  fun env ha => ⟨(h env ha).1, congrArg (BitVec.setWidth 64) (h env ha).2⟩

end

lemma trunc {a a' : Value .int64} (h : Refines a a') : Refines (.trunc a) (.trunc a') :=
  fun env ha => ⟨(h env ha).1, congrArg (BitVec.setWidth 32) (h env ha).2⟩

end Refines

/-- Every replacement that the rule gives for `v` is sound. -/
def Sound (v : Value t) (rule : Option (Value t)) : Prop := ∀ v', rule = some v' → Refines v v'

namespace Sound

variable {v v' : Value t} {rule rule' : Option (Value t)}

lemma some (h : Refines v v') : Sound v (Option.some v') := by
  rintro _ ⟨⟩
  exact h

lemma none : Sound v Option.none := by
  rintro _ ⟨⟩

lemma bind {α : Type} {o : Option α} {f : α → Option (Value t)}
    (h : ∀ a, o = Option.some a → Sound v (f a)) : Sound v (o >>= f) := by
  intro v' hv
  obtain ⟨a, ha, hf⟩ := Option.bind_eq_some_iff.1 hv
  exact h a ha v' hf

lemma ite {p : Prop} [Decidable p] (h : p → Sound v rule) (h' : ¬ p → Sound v rule') :
    Sound v (if p then rule else rule') := by
  split
  · exact h (by assumption)
  · exact h' (by assumption)

lemma orElse (h : Sound v rule) (h' : Sound v rule') : Sound v (rule <|> rule') := by
  cases rule with
  | none => exact h'
  | some a => exact h

end Sound

lemma Refines.getD {v' : Value t} {rule : Option (Value t)} (h : Sound v rule)
    (h' : Refines v v') : Refines v (rule.getD v') := by
  cases rule with
  | none => exact h'
  | some a => exact h a rfl

/-- The order of the children makes no difference to a commutative operation. -/
lemma refines_commute (g : Graph) (op : BinaryOp)
    (hop : ∀ {w : ℕ} (x y : BitVec w), op.eval x y = op.eval y x)
    (hdef : ∀ {w : ℕ} (x y : BitVec w), op.Defined x y) {reduce : Value t → Value t → Value t}
    (h : ∀ left right, Refines (.binary op left right) (reduce left right)) (left right : Value t) :
    Refines (.binary op left right)
      (reduce (handleCommutativity g left right).1 (handleCommutativity g left right).2) := by
  rcases handleCommutativity_cases g left right with heq | heq <;> rw [heq]
  · exact h left right
  · refine .trans ?_ (h right left)
    rintro env ⟨hl, hr, -⟩
    exact ⟨⟨hr, hl, hdef _ _⟩, hop _ _⟩

end WebKit.B3
