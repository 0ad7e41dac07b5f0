import Mathlib

/-!
# Hash sets

A `HashSet` keeps each element once. The order in which it is iterated depends on the hash
function and on the history of the table, so it is left open: an `IterationOrder` says in which
order the elements are visited, and the results hold for all of them.
-/

namespace WebKit.WTF

variable {α : Type*}

/-- The elements of a set, each of them once, in the order in which they were added. -/
structure HashSet (α : Type*) where
  elements : List α
  nodup : elements.Nodup

variable {s : HashSet α} {a : α} {l : List α}

/-- A loop that only adds: what holds at its end held at the start or came with an element. -/
lemma foldl_iff {β : Type*} {P : β → Prop} {Q : α → Prop} {f : β → α → β}
    (h : ∀ b, ∀ a ∈ l, (P (f b a) ↔ P b ∨ Q a)) (b : β) : P (l.foldl f b) ↔ P b ∨ ∃ a ∈ l, Q a := by
  induction l generalizing b with
  | nil => simp
  | cons a l ih =>
    rw [List.foldl_cons, ih fun b a' ha' => h b a' (.tail _ ha'), h b a (.head _), or_assoc]
    simp

namespace HashSet

instance : Membership α (HashSet α) := ⟨fun s a => a ∈ s.elements⟩

lemma mem_def : a ∈ s ↔ a ∈ s.elements := Iff.rfl

def empty : HashSet α := ⟨[], List.nodup_nil⟩

instance : Inhabited (HashSet α) := ⟨empty⟩

@[simp] lemma not_mem_empty (a : α) : a ∉ (empty : HashSet α) := List.not_mem_nil

def size (s : HashSet α) : ℕ := s.elements.length

variable [DecidableEq α]

def contains (s : HashSet α) (a : α) : Bool := decide (a ∈ s.elements)

@[simp] lemma contains_eq_true : s.contains a = true ↔ a ∈ s := by
  simp [contains, mem_def]

/-- `add` leaves a set that has the element as it is. -/
def add (s : HashSet α) (a : α) : HashSet α :=
  if h : a ∈ s.elements then s
  else ⟨s.elements ++ [a], by
    rw [List.nodup_append]
    refine ⟨s.nodup, List.nodup_singleton a, ?_⟩
    rintro b hb c hc rfl
    exact h (List.mem_singleton.mp hc ▸ hb)⟩

lemma size_add_of_not_mem (h : a ∉ s) : (s.add a).size = s.size + 1 := by
  rw [mem_def] at h
  simp [add, size, h]

/-- A set of numbers below `n` has at most `n` elements. -/
lemma size_le {s : HashSet ℕ} {n : ℕ} (h : ∀ a ∈ s, a < n) : s.size ≤ n := by
  have hsub : s.elements ⊆ List.range n := fun a ha => List.mem_range.mpr (h a ha)
  simpa [size] using (s.nodup.subperm hsub).length_le

/-- `add(begin, end)`. -/
def addAll (s : HashSet α) (l : List α) : HashSet α := l.foldl add s

@[simp] lemma mem_add {a b : α} : b ∈ s.add a ↔ b ∈ s ∨ b = a := by
  unfold add
  split_ifs with h
  · refine ⟨Or.inl, ?_⟩
    rintro (hb | rfl)
    · exact hb
    · exact h
  · simp [mem_def]

@[simp] lemma mem_addAll {b : α} : b ∈ s.addAll l ↔ b ∈ s ∨ b ∈ l :=
  (foldl_iff (P := (b ∈ ·)) (Q := (b = ·)) (fun _ _ _ => mem_add) s).trans (by simp)

end HashSet

/-- An order of visiting the elements of a table, given the order in which they were added. -/
structure IterationOrder (α : Type*) where
  order : List α → List α
  perm : ∀ l, (order l).Perm l

variable (ord : IterationOrder α)

namespace IterationOrder

/-- The order in which the elements were added. -/
def insertion : IterationOrder α := ⟨id, fun _ => List.Perm.refl _⟩

instance : Inhabited (IterationOrder α) := ⟨insertion⟩

@[simp] lemma mem_order : a ∈ ord.order l ↔ a ∈ l := (ord.perm l).mem_iff

end IterationOrder

namespace HashSet

/-- `begin()` to `end()`. -/
def iterate (ord : IterationOrder α) (s : HashSet α) : List α := ord.order s.elements

@[simp] lemma mem_iterate {ord : IterationOrder α} : a ∈ s.iterate ord ↔ a ∈ s := ord.mem_order

@[simp] lemma iterate_empty : (empty : HashSet α).iterate ord = [] := (ord.perm []).eq_nil

lemma nodup_iterate : (s.iterate ord).Nodup := (ord.perm _).nodup_iff.mpr s.nodup

@[simp] lemma length_iterate : (s.iterate ord).length = s.size := (ord.perm _).length_eq

end HashSet

end WebKit.WTF
