import Mathlib

/-!
# Growable vectors

A vector is its size and its contents as a function. Reading is total: what stands at an index
past the end is arbitrary, and nothing is proved about it.
-/

/-- A growable vector: `get` is meaningful below `size`. -/
structure Vec (α : Type*) where
  size : ℕ
  get : ℕ → α

namespace Vec

variable {α β : Type*}

/-- The vector without elements. -/
def empty [Inhabited α] : Vec α := ⟨0, fun _ => default⟩

/-- A vector of `n` copies of `a`. -/
def replicate (n : ℕ) (a : α) : Vec α := ⟨n, fun _ => a⟩

/-- Append an element. -/
def push (v : Vec α) (a : α) : Vec α := ⟨v.size + 1, Function.update v.get v.size a⟩

/-- Overwrite the element at `i`. -/
def set (v : Vec α) (i : ℕ) (a : α) : Vec α := ⟨v.size, Function.update v.get i a⟩

/-- Apply a function to every element. -/
def map (f : α → β) (v : Vec α) : Vec β := ⟨v.size, fun i => f (v.get i)⟩

@[simp] lemma size_map (f : α → β) (v : Vec α) : (v.map f).size = v.size := rfl

@[simp] lemma get_map (f : α → β) (v : Vec α) (i : ℕ) : (v.map f).get i = f (v.get i) := rfl

@[simp] lemma size_empty [Inhabited α] : (empty : Vec α).size = 0 := rfl

variable (v : Vec α) (a : α)

@[simp] lemma size_push : (v.push a).size = v.size + 1 := rfl

@[simp] lemma size_set (i : ℕ) (a : α) : (v.set i a).size = v.size := rfl

@[simp] lemma size_replicate (n : ℕ) (a : α) : (replicate n a).size = n := rfl

@[simp] lemma get_replicate (n : ℕ) (a : α) (i : ℕ) : (replicate n a).get i = a := rfl

lemma get_push (i : ℕ) : (v.push a).get i = if i = v.size then a else v.get i := by
  simp [push, Function.update_apply]

lemma get_set (i j : ℕ) (a : α) : (v.set i a).get j = if j = i then a else v.get j := by
  simp [set, Function.update_apply]

@[simp] lemma get_push_self : (v.push a).get v.size = a := by
  simp [get_push]

lemma get_push_of_lt {i : ℕ} (h : i < v.size) : (v.push a).get i = v.get i := by
  rw [get_push, if_neg (by omega)]

@[simp] lemma get_set_self (i : ℕ) (a : α) : (v.set i a).get i = a := by
  simp [get_set]

lemma get_set_of_ne {i j : ℕ} (h : j ≠ i) : (v.set i a).get j = v.get j := by
  rw [get_set, if_neg h]

lemma get_foldl_set {ι : Type*} (f : ι → ℕ) (a : α) (is : List ι) (v : Vec α) (j : ℕ) :
    (is.foldl (fun v i => v.set (f i) a) v).get j = if ∃ i ∈ is, f i = j then a else v.get j := by
  induction is generalizing v with
  | nil => simp
  | cons i is ih =>
    rw [List.foldl_cons, ih, get_set]
    simp only [List.exists_mem_cons_iff, eq_comm (a := j)]
    by_cases hmem : ∃ i ∈ is, f i = j
    · rw [if_pos hmem, if_pos (.inr hmem)]
    · by_cases hi : f i = j <;> simp [hi]

/-- Different places are written one after another. -/
lemma forall_get_set {v : Vec α} {p : ℕ → ℕ} {m : ℕ} {a : α} {P : ℕ → α → Prop}
    (hp : ∀ i < m, p i ≠ p m) (h : ∀ i < m, P i (v.get (p i))) (ha : P m a) :
    ∀ i < m + 1, P i ((v.set (p m) a).get (p i)) := by
  intro i hi
  rcases Nat.lt_succ_iff_lt_or_eq.mp hi with hi | rfl
  · rw [get_set_of_ne _ _ (hp i hi)]
    exact h i hi
  · rwa [get_set_self]

end Vec
