import Mathlib

/-!
# Placing elements into buckets

Elements with keys are placed one after another: the elements of a bucket stand next to each
other, in the order of the list, and the buckets stand in the order of their keys.
-/

namespace Bucket

open List

/-- Where the bucket of the key `k` starts. -/
def start (keys : List ℕ) (k : ℕ) : ℕ := keys.countP (· < k)

/-- The key of the element with number `m`. -/
def key (keys : List ℕ) (m : ℕ) : ℕ := keys.getD m 0

/-- The place of the element with number `m`: it stands after the earlier elements of its
bucket. -/
def place (keys : List ℕ) (m : ℕ) : ℕ :=
  start keys (key keys m) + (keys.take m).count (key keys m)

variable {keys : List ℕ} {k m m' : ℕ}

variable (keys)

@[simp] lemma start_zero : start keys 0 = 0 := by simp [start]

lemma start_succ (k : ℕ) : start keys (k + 1) = start keys k + keys.count k := by
  induction keys with
  | nil => rfl
  | cons a keys ih =>
    simp only [start, countP_cons, count_cons] at ih ⊢
    rw [ih]
    rcases lt_trichotomy a k with h | h | h <;> simp <;> split_ifs <;> omega

lemma start_le_start {k k' : ℕ} (h : k ≤ k') : start keys k ≤ start keys k' := by
  refine countP_mono_left fun a _ ha => ?_
  rw [decide_eq_true_eq] at ha ⊢
  exact ha.trans_le h

lemma start_le_length (k : ℕ) : start keys k ≤ keys.length := countP_le_length

variable {keys}

/-- When all keys are below `k`, the bucket of `k` starts at the end. -/
lemma start_eq_length (keys : List ℕ) (h : ∀ a ∈ keys, a < k) : start keys k = keys.length := by
  rw [start]
  simpa using h

lemma key_eq_getElem (h : m < keys.length) : key keys m = keys[m] := by
  simp [key, h]

/-- The elements before `m` and `m` itself. -/
lemma count_take_succ (h : m < keys.length) :
    (keys.take (m + 1)).count k = (keys.take m).count k + if key keys m = k then 1 else 0 := by
  rw [take_succ_eq_append_getElem h, count_append, key_eq_getElem h]
  simp [count_cons]

lemma start_le_place (keys : List ℕ) (m : ℕ) : start keys (key keys m) ≤ place keys m :=
  Nat.le_add_right _ _

variable (h : m < keys.length)
include h

lemma place_lt_start_succ : place keys m < start keys (key keys m + 1) := by
  rw [place, start_succ]
  have hle : (keys.take (m + 1)).count (key keys m) ≤ keys.count (key keys m) :=
    (take_sublist _ _).count_le _
  rw [count_take_succ h, if_pos rfl] at hle
  omega

lemma place_lt_length : place keys m < keys.length :=
  (place_lt_start_succ h).trans_le (start_le_length _ _)

/-- An element stands in the bucket of its key, and in no other. -/
lemma key_eq_iff :
    key keys m = k ↔ start keys k ≤ place keys m ∧ place keys m < start keys (k + 1) := by
  constructor
  · rintro rfl
    exact ⟨start_le_place keys m, place_lt_start_succ h⟩
  · rintro ⟨h₁, h₂⟩
    have h₃ := place_lt_start_succ h
    have h₄ := start_le_place keys m
    by_contra hne
    rcases lt_or_gt_of_ne hne with hlt | hgt
    · have := start_le_start keys (k := key keys m + 1) hlt
      omega
    · have := start_le_start keys (k := k + 1) hgt
      omega

omit h

lemma place_lt_place (h : m < m') (hm' : m' < keys.length) (hkey : key keys m = key keys m') :
    place keys m < place keys m' := by
  rw [place, place, hkey]
  have hle : (keys.take (m + 1)).count (key keys m') ≤ (keys.take m').count (key keys m') :=
    (take_sublist_take_left h).count_le _
  rw [count_take_succ (h.trans hm'), if_pos hkey] at hle
  omega

/-- Different elements have different places. -/
theorem place_injective (hm : m < keys.length) (hm' : m' < keys.length)
    (h : place keys m = place keys m') : m = m' := by
  have hkey : key keys m = key keys m' := by
    rw [key_eq_iff hm, h]
    exact (key_eq_iff hm').mp rfl
  rcases lt_trichotomy m m' with hlt | heq | hgt
  · exact absurd h (place_lt_place hlt hm' hkey).ne
  · exact heq
  · exact absurd h (place_lt_place hgt hm hkey.symm).ne'

/-- Every place is taken. -/
theorem exists_place_eq {i : ℕ} (hi : i < keys.length) : ∃ m < keys.length, place keys m = i := by
  let f : Fin keys.length → Fin keys.length := fun m => ⟨place keys m, place_lt_length m.2⟩
  have hf : Function.Injective f := by
    intro m m' h
    exact Fin.ext (place_injective m.2 m'.2 (congrArg Fin.val h))
  obtain ⟨m, hm⟩ := (Finite.injective_iff_surjective.mp hf) ⟨i, hi⟩
  exact ⟨m, m.2, congrArg Fin.val hm⟩

section

variable {α : Type*} {l : List α} {f : α → ℕ}

lemma key_map {a : α} (h : l[m]? = some a) : key (l.map f) m = f a := by
  simp [key, h]

lemma place_map_lt (h : m < l.length) : place (l.map f) m < l.length := by
  have hm : m < (l.map f).length := by simpa using h
  simpa using place_lt_length hm

lemma exists_place_map_eq {i : ℕ} (hi : i < l.length) : ∃ m < l.length, place (l.map f) m = i := by
  have hi : i < (l.map f).length := by simpa using hi
  simpa using exists_place_eq hi

end

end Bucket
