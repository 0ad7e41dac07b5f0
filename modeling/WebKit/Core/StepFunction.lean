import Mathlib

/-!
# Step functions

A step function is given by the points at which it takes new values, in ascending order, and the
value that it has before all of them. Two step functions are combined by sweeping over the points of
both. A list that leaves out the points at which nothing changes is determined by the function.
-/

namespace WebKit.Core

open List

variable {κ U V W : Type*}

/-- The value after the last point. -/
def lastValue (d : V) : List (κ × V) → V
  | [] => d
  | (_, v) :: l => lastValue v l

lemma lastValue_append (d : V) (l l' : List (κ × V)) :
    lastValue d (l ++ l') = lastValue (lastValue d l) l' := by
  induction l generalizing d with
  | nil => rfl
  | cons e l ih => exact ih e.2

variable {ι : Type*}

lemma lastValue_map (φ : κ → ι) (g : V → W) (d : V) (l : List (κ × V)) :
    lastValue (g d) (l.map fun e => (φ e.1, g e.2)) = g (lastValue d l) := by
  induction l generalizing d with
  | nil => rfl
  | cons e l ih => exact ih e.2

variable {l : List (κ × V)} {d : V}

section

variable [LinearOrder κ]

/-- The value of a step function that is `d` before the first point. -/
def valueAt (d : V) : List (κ × V) → κ → V
  | [], _ => d
  | (k, v) :: l, t => if t < k then d else valueAt v l t

/-- The points are in ascending order. -/
def Ascending (l : List (κ × V)) : Prop := l.Pairwise fun e e' => e.1 < e'.1

lemma ascending_cons {e : κ × V} :
    Ascending (e :: l) ↔ (∀ e' ∈ l, e.1 < e'.1) ∧ Ascending l := pairwise_cons

lemma valueAt_cons_lt {d v : V} {k t : κ} (h : t < k) : valueAt d ((k, v) :: l) t = d := if_pos h

lemma valueAt_cons_le {d v : V} {k t : κ} (h : k ≤ t) :
    valueAt d ((k, v) :: l) t = valueAt v l t := if_neg h.not_gt

/-- Before all points the function has its first value. -/
lemma valueAt_of_lt {t : κ} (h : ∀ e ∈ l, t < e.1) : valueAt d l t = d := by
  cases l with
  | nil => rfl
  | cons e l => exact valueAt_cons_lt (h e mem_cons_self)

/-- After all points the function has its last value. -/
lemma valueAt_of_le {t : κ} (h : ∀ e ∈ l, e.1 ≤ t) : valueAt d l t = lastValue d l := by
  induction l generalizing d with
  | nil => rfl
  | cons e l ih =>
    rw [valueAt_cons_le (h e mem_cons_self)]
    exact ih fun e' he' => h e' (mem_cons_of_mem _ he')

/-- The value at some point is the first one, or one that the function takes. -/
lemma valueAt_mem (d : V) (l : List (κ × V)) (t : κ) :
    valueAt d l t = d ∨ ∃ k, (k, valueAt d l t) ∈ l := by
  induction l generalizing d with
  | nil => exact Or.inl rfl
  | cons e l ih =>
    rw [valueAt]
    split_ifs with h
    · exact Or.inl rfl
    · rcases ih e.2 with heq | ⟨k, hk⟩
      · rw [heq]
        exact Or.inr ⟨e.1, mem_cons_self⟩
      · exact Or.inr ⟨k, mem_cons_of_mem _ hk⟩

variable {φ : κ → ι}

/-- Points and values are mapped, and the order of the points stays. -/
lemma valueAt_map [LinearOrder ι] (hφ : ∀ t k, φ t < φ k ↔ t < k)
    (g : V → W) (d : V) (l : List (κ × V)) (t : κ) :
    valueAt (g d) (l.map fun e => (φ e.1, g e.2)) (φ t) = g (valueAt d l t) := by
  induction l generalizing d with
  | nil => rfl
  | cons e l ih =>
    rw [map_cons, valueAt, valueAt, ih]
    simp only [hφ]
    split_ifs <;> rfl

/-! ### Reduced lists -/

/-- The points are in ascending order, and the value changes at each of them. -/
def Reduced (d : V) : List (κ × V) → Prop
  | [] => True
  | (k, v) :: l => v ≠ d ∧ (∀ e ∈ l, k < e.1) ∧ Reduced v l

lemma Reduced.ascending (h : Reduced d l) : Ascending l := by
  induction l generalizing d with
  | nil => exact List.Pairwise.nil
  | cons e l ih => exact ascending_cons.2 ⟨h.2.1, ih h.2.2⟩

lemma Reduced.map [LinearOrder ι] (hφ : ∀ t k, φ t < φ k ↔ t < k)
    {g : V → W} (hg : Function.Injective g) (h : Reduced d l) :
    Reduced (g d) (l.map fun e => (φ e.1, g e.2)) := by
  induction l generalizing d with
  | nil => trivial
  | cons e l ih =>
    refine ⟨fun heq => h.1 (hg heq), ?_, ih h.2.2⟩
    exact forall_mem_map.2 fun e' he' => (hφ _ _).2 (h.2.1 e' he')

/-- A reduced list is determined by its function. -/
lemma Reduced.ext {l l' : List (κ × V)} (h : Reduced d l) (h' : Reduced d l')
    (heq : ∀ t, valueAt d l t = valueAt d l' t) : l = l' := by
  induction l generalizing d l' with
  | nil =>
    cases l' with
    | nil => rfl
    | cons e' l' =>
      have hval := heq e'.1
      rw [valueAt_cons_le le_rfl, valueAt_of_lt h'.2.1] at hval
      exact absurd hval.symm h'.1
  | cons e l ih =>
    obtain ⟨k, v⟩ := e
    have hval := heq k
    rw [valueAt_cons_le le_rfl, valueAt_of_lt h.2.1] at hval
    cases l' with
    | nil => exact absurd hval h.1
    | cons e' l' =>
      obtain ⟨k', v'⟩ := e'
      have hval' := heq k'
      rw [valueAt_cons_le le_rfl, valueAt_of_lt h'.2.1] at hval'
      rcases lt_trichotomy k k' with hlt | rfl | hlt
      · rw [valueAt_cons_lt hlt] at hval
        exact absurd hval h.1
      · rw [valueAt_cons_le le_rfl, valueAt_of_lt h'.2.1] at hval
        subst hval
        have htail : l = l' := by
          refine ih h.2.2 h'.2.2 fun t => ?_
          rcases lt_or_ge t k with ht | ht
          · simp [valueAt_of_lt fun e he => ht.trans (h.2.1 e he),
              valueAt_of_lt fun e he => ht.trans (h'.2.1 e he)]
          · have htail := heq t
            rwa [valueAt_cons_le ht, valueAt_cons_le ht] at htail
        rw [htail]
      · rw [valueAt_cons_lt hlt] at hval'
        exact absurd hval'.symm h'.1

end

section

variable [DecidableEq V]

/-- Leave out the points at which the value does not change. -/
def reduce (d : V) : List (κ × V) → List (κ × V)
  | [] => []
  | (k, v) :: l => if v = d then reduce d l else (k, v) :: reduce v l

lemma mem_of_mem_reduce {e : κ × V} (h : e ∈ reduce d l) : e ∈ l := by
  induction l generalizing d with
  | nil => exact h
  | cons e' l ih =>
    rw [reduce] at h
    split_ifs at h with heq
    · exact mem_cons_of_mem _ (ih h)
    · rcases mem_cons.1 h with rfl | h
      · exact mem_cons_self
      · exact mem_cons_of_mem _ (ih h)

@[simp] lemma lastValue_reduce (d : V) (l : List (κ × V)) :
    lastValue d (reduce d l) = lastValue d l := by
  induction l generalizing d with
  | nil => rfl
  | cons e l ih =>
    rw [reduce]
    split_ifs with heq
    · rw [ih, ← heq]
      rfl
    · exact ih e.2

/-- A list without changes. -/
lemma reduce_eq_nil (h : ∀ e ∈ l, e.2 = d) : reduce d l = [] := by
  induction l with
  | nil => rfl
  | cons e l ih =>
    rw [reduce, if_pos (h e mem_cons_self)]
    exact ih fun e' he' => h e' (mem_cons_of_mem _ he')

variable [LinearOrder κ]

lemma reduced_reduce (h : Ascending l) (d : V) : Reduced d (reduce d l) := by
  induction l generalizing d with
  | nil => trivial
  | cons e l ih =>
    obtain ⟨hlt, hl⟩ := ascending_cons.1 h
    rw [reduce]
    split_ifs with heq
    · exact ih hl d
    · exact ⟨heq, fun e' he' => hlt e' (mem_of_mem_reduce he'), ih hl e.2⟩

lemma valueAt_reduce (h : Ascending l) (d : V) (t : κ) :
    valueAt d (reduce d l) t = valueAt d l t := by
  induction l generalizing d with
  | nil => rfl
  | cons e l ih =>
    obtain ⟨k, v⟩ := e
    obtain ⟨hlt, hl⟩ := ascending_cons.1 h
    rw [reduce]
    split_ifs with heq
    · subst heq
      rw [ih hl]
      rcases lt_or_ge t k with ht | ht
      · rw [valueAt_cons_lt ht, valueAt_of_lt fun e he => ht.trans (hlt e he)]
      · rw [valueAt_cons_le ht]
    · rcases lt_or_ge t k with ht | ht
      · simp [valueAt_cons_lt ht]
      · simp [valueAt_cons_le ht, ih hl]

lemma reduce_of_reduced (h : Reduced d l) : reduce d l = l := by
  induction l generalizing d with
  | nil => rfl
  | cons e l ih => rw [reduce, if_neg h.1, ih h.2.2]

end

/-! ### Combining step functions -/

variable [LinearOrder κ]

/-- Sweep over the points of two step functions. At each of them the values are combined. -/
def zipSteps (f : U → V → W) (d : U) (d' : V) :
    List (κ × U) → List (κ × V) → List (κ × W)
  | [], l' => l'.map fun e => (e.1, f d e.2)
  | l, [] => l.map fun e => (e.1, f e.2 d')
  | (k, v) :: l, (k', v') :: l' =>
    if k < k' then (k, f v d') :: zipSteps f v d' l ((k', v') :: l')
    else if k' < k then (k', f d v') :: zipSteps f d v' ((k, v) :: l) l'
    else (k, f v v') :: zipSteps f v v' l l'
termination_by l l' => l.length + l'.length

variable {f : U → V → W}

@[simp] lemma zipSteps_nil_left (d : U) (d' : V) (l' : List (κ × V)) :
    zipSteps f d d' [] l' = l'.map fun e => (e.1, f d e.2) := by
  rw [zipSteps]

@[simp] lemma zipSteps_nil_right (d : U) (d' : V) (l : List (κ × U)) :
    zipSteps f d d' l [] = l.map fun e => (e.1, f e.2 d') := by
  cases l with
  | nil =>
    rw [zipSteps]
    rfl
  | cons e l =>
    rw [zipSteps]
    exact nofun

variable {l' : List (κ × V)}

/-- Each point of the combination is one of the two functions. -/
lemma forall_fst_zipSteps {P : κ → Prop} {d : U} {d' : V} {l : List (κ × U)}
    (h : ∀ e ∈ l, P e.1) (h' : ∀ e ∈ l', P e.1) : ∀ e ∈ zipSteps f d d' l l', P e.1 := by
  fun_induction zipSteps f d d' l l' with
  | case1 d d' l' => exact forall_mem_map.2 h'
  | case2 d d' l => exact forall_mem_map.2 h
  | case3 d d' k v l k' v' l' hlt ih =>
    rw [forall_mem_cons] at h ⊢
    exact ⟨h.1, ih h.2 h'⟩
  | case4 d d' k v l k' v' l' hnot hlt ih =>
    rw [forall_mem_cons] at h' ⊢
    exact ⟨h'.1, ih h h'.2⟩
  | case5 d d' k v l k' v' l' hnot hnot' ih =>
    rw [forall_mem_cons] at h h' ⊢
    exact ⟨h.1, ih h.2 h'.2⟩

lemma ascending_map (h : Ascending l) (g : V → W) :
    Ascending (l.map fun e => (e.1, g e.2)) := pairwise_map.2 h

lemma ascending_zipSteps {l : List (κ × U)} (h : Ascending l)
    (h' : Ascending l') (d : U) (d' : V) : Ascending (zipSteps f d d' l l') := by
  fun_induction zipSteps f d d' l l' with
  | case1 d d' l' => exact ascending_map h' _
  | case2 d d' l => exact ascending_map h (f · d')
  | case3 d d' k v l k' v' l' hlt ih =>
    obtain ⟨hk, hl⟩ := ascending_cons.1 h
    obtain ⟨hk', -⟩ := ascending_cons.1 h'
    refine ascending_cons.2 ⟨forall_fst_zipSteps (P := (k < ·)) hk ?_, ih hl h'⟩
    exact forall_mem_cons.2 ⟨hlt, fun e he => hlt.trans (hk' e he)⟩
  | case4 d d' k v l k' v' l' hnot hlt ih =>
    obtain ⟨hk, -⟩ := ascending_cons.1 h
    obtain ⟨hk', hl'⟩ := ascending_cons.1 h'
    refine ascending_cons.2 ⟨forall_fst_zipSteps (P := (k' < ·)) ?_ hk', ih h hl'⟩
    exact forall_mem_cons.2 ⟨hlt, fun e he => hlt.trans (hk e he)⟩
  | case5 d d' k v l k' v' l' hnot hnot' ih =>
    obtain ⟨hk, hl⟩ := ascending_cons.1 h
    obtain ⟨hk', hl'⟩ := ascending_cons.1 h'
    obtain rfl : k = k' := le_antisymm (not_lt.1 hnot') (not_lt.1 hnot)
    exact ascending_cons.2 ⟨forall_fst_zipSteps (P := (k < ·)) hk hk', ih hl hl'⟩

/-- The combination has the combined values. -/
lemma valueAt_zipSteps {l : List (κ × U)} (h : Ascending l) (h' : Ascending l') (d : U) (d' : V)
    (t : κ) : valueAt (f d d') (zipSteps f d d' l l') t = f (valueAt d l t) (valueAt d' l' t) := by
  fun_induction zipSteps f d d' l l' with
  | case1 d d' l' => exact valueAt_map (φ := id) (fun _ _ => Iff.rfl) (f d) d' l' t
  | case2 d d' l => exact valueAt_map (φ := id) (fun _ _ => Iff.rfl) (f · d') d l t
  | case3 d d' k v l k' v' l' hlt ih =>
    rcases lt_or_ge t k with ht | ht
    · simp [valueAt_cons_lt ht, valueAt_cons_lt (ht.trans hlt)]
    · simp [valueAt_cons_le ht, ih (ascending_cons.1 h).2 h']
  | case4 d d' k v l k' v' l' hnot hlt ih =>
    rcases lt_or_ge t k' with ht | ht
    · simp [valueAt_cons_lt ht, valueAt_cons_lt (ht.trans hlt)]
    · rw [valueAt_cons_le ht, ih h (ascending_cons.1 h').2]
      rw [valueAt_cons_le ht]
  | case5 d d' k v l k' v' l' hnot hnot' ih =>
    obtain rfl : k = k' := le_antisymm (not_lt.1 hnot') (not_lt.1 hnot)
    rcases lt_or_ge t k with ht | ht
    · simp [valueAt_cons_lt ht]
    · simp [valueAt_cons_le ht, ih (ascending_cons.1 h).2 (ascending_cons.1 h').2]

lemma lastValue_zipSteps (d : U) (d' : V) (l : List (κ × U)) (l' : List (κ × V)) :
    lastValue (f d d') (zipSteps f d d' l l') = f (lastValue d l) (lastValue d' l') := by
  fun_induction zipSteps f d d' l l' with
  | case1 d d' l' => exact lastValue_map id (f d) d' l'
  | case2 d d' l => exact lastValue_map id (f · d') d l
  | case3 d d' k v l k' v' l' hlt ih => exact ih
  | case4 d d' k v l k' v' l' hnot hlt ih => exact ih
  | case5 d d' k v l k' v' l' hnot hnot' ih => exact ih

/-- The values of the combination are combined values. -/
lemma forall_mem_zipSteps {P : U → Prop} {Q : V → Prop} {R : W → Prop} {d : U} {d' : V}
    {l : List (κ × U)} (hf : ∀ u v, P u → Q v → R (f u v)) (hd : P d) (hd' : Q d')
    (h : ∀ e ∈ l, P e.2) (h' : ∀ e ∈ l', Q e.2) : ∀ e ∈ zipSteps f d d' l l', R e.2 := by
  fun_induction zipSteps f d d' l l' with
  | case1 d d' l' => exact forall_mem_map.2 fun e he => hf _ _ hd (h' e he)
  | case2 d d' l => exact forall_mem_map.2 fun e he => hf _ _ (h e he) hd'
  | case3 d d' k v l k' v' l' hlt ih =>
    rw [forall_mem_cons] at h ⊢
    exact ⟨hf _ _ h.1 hd', ih h.1 hd' h.2 h'⟩
  | case4 d d' k v l k' v' l' hnot hlt ih =>
    rw [forall_mem_cons] at h' ⊢
    exact ⟨hf _ _ hd h'.1, ih hd h'.1 h h'.2⟩
  | case5 d d' k v l k' v' l' hnot hnot' ih =>
    rw [forall_mem_cons] at h h' ⊢
    exact ⟨hf _ _ h.1 h'.1, ih h.1 h'.1 h.2 h'.2⟩

/-! ### Sets of points -/

omit [LinearOrder κ]

/-- The value changes at each point of the list. -/
def alternating (b : Bool) : List κ → List (κ × Bool)
  | [] => []
  | k :: l => (k, !b) :: alternating (!b) l

@[simp] lemma map_fst_alternating (b : Bool) (l : List κ) : (alternating b l).map Prod.fst = l := by
  induction l generalizing b with
  | nil => rfl
  | cons k l ih => rw [alternating, map_cons, ih]

lemma lastValue_alternating (b : Bool) (l : List κ) :
    lastValue b (alternating b l) = (b ^^ decide (Odd l.length)) := by
  induction l generalizing b with
  | nil => simp [alternating, lastValue]
  | cons k l ih =>
    rw [alternating, lastValue, ih]
    by_cases h : Odd l.length <;> simp [h, Nat.odd_add_one]

variable [LinearOrder κ]

lemma reduced_alternating {l : List κ} (h : l.Pairwise (· < ·)) (b : Bool) :
    Reduced b (alternating b l) := by
  induction l generalizing b with
  | nil => trivial
  | cons k l ih =>
    obtain ⟨hk, hl⟩ := pairwise_cons.1 h
    refine ⟨by simp, fun e he => hk e.1 ?_, ih hl (!b)⟩
    rw [← map_fst_alternating (!b) l]
    exact mem_map_of_mem he

/-- A reduced list of truth values is determined by its points. -/
lemma alternating_map_fst {b : Bool} {l : List (κ × Bool)} (h : Reduced b l) :
    alternating b (l.map Prod.fst) = l := by
  induction l generalizing b with
  | nil => rfl
  | cons e l ih =>
    obtain ⟨k, v⟩ := e
    obtain rfl : v = !b := Bool.eq_not.2 h.1
    rw [map_cons, alternating, ih h.2.2]

end WebKit.Core
