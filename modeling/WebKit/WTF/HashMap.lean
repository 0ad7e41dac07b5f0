import WebKit.WTF.HashSet

/-!
# Hash maps

A `HashMap` keeps one value for each key. As for hash sets, the order of iteration is left open.
-/

namespace WebKit.WTF

open List

variable {κ ν : Type*}

/-- The entries of a map, one for each key, in the order in which the keys were added. -/
structure HashMap (κ ν : Type*) where
  entries : List (κ × ν)
  nodup : (entries.map Prod.fst).Nodup

namespace HashMap

def empty : HashMap κ ν := ⟨[], List.nodup_nil⟩

instance : Inhabited (HashMap κ ν) := ⟨empty⟩

variable {m : HashMap κ ν}

/-- `begin()` to `end()`. -/
def iterate (ord : IterationOrder (κ × ν)) (m : HashMap κ ν) : List (κ × ν) := ord.order m.entries

@[simp] lemma mem_iterate {ord : IterationOrder (κ × ν)} {e : κ × ν} :
    e ∈ m.iterate ord ↔ e ∈ m.entries := ord.mem_order

variable (ord : IterationOrder (κ × ν))

@[simp] lemma iterate_empty : (empty : HashMap κ ν).iterate ord = [] := (ord.perm []).eq_nil

lemma nodup_fst_iterate :
    ((m.iterate ord).map Prod.fst).Nodup := ((ord.perm _).map _).nodup_iff.2 m.nodup

variable [DecidableEq κ]

/-- The value of the first entry of a key. -/
def find (k : κ) : List (κ × ν) → Option ν
  | [] => none
  | e :: es => if e.1 = k then some e.2 else find k es

def get? (m : HashMap κ ν) (k : κ) : Option ν := find k m.entries

/-- Update the value of a key that has one, or append the key with the value `v`. -/
def update (k : κ) (v : ν) (f : ν → ν) : List (κ × ν) → List (κ × ν)
  | [] => [(k, v)]
  | e :: es => if e.1 = k then (k, f e.2) :: es else e :: update k v f es

lemma mem_map_fst_update (k : κ) (v : ν) (f : ν → ν) (es : List (κ × ν)) (k' : κ) :
    k' ∈ (update k v f es).map Prod.fst ↔ k' = k ∨ k' ∈ es.map Prod.fst := by
  induction es with
  | nil => simp [update]
  | cons e es ih =>
    unfold update
    split_ifs with he
    · simp [he]
    · rw [map_cons, mem_cons, ih, map_cons, mem_cons, or_left_comm]

variable {es : List (κ × ν)}

lemma nodup_update (k : κ) (v : ν) (f : ν → ν)
    (h : (es.map Prod.fst).Nodup) : ((update k v f es).map Prod.fst).Nodup := by
  induction es with
  | nil => exact nodup_singleton k
  | cons e es ih =>
    rw [map_cons, nodup_cons] at h
    unfold update
    split_ifs with he
    · rw [map_cons, nodup_cons]
      exact ⟨he ▸ h.1, h.2⟩
    · rw [map_cons, nodup_cons, mem_map_fst_update]
      exact ⟨not_or.mpr ⟨he, h.1⟩, ih h.2⟩

/-- `add(k, d)`, followed by an update `f` of the value of `k`. -/
def modify (m : HashMap κ ν) (k : κ) (d : ν) (f : ν → ν) : HashMap κ ν :=
  ⟨update k (f d) f m.entries, nodup_update k (f d) f m.nodup⟩

@[simp] lemma get?_empty (k : κ) : (empty : HashMap κ ν).get? k = none := rfl

variable {k : κ} {v : ν}

lemma get?_eq_some_iff : m.get? k = some v ↔ (k, v) ∈ m.entries := by
  obtain ⟨entries, hnd⟩ := m
  simp only [get?]
  induction entries with
  | nil => simp [find]
  | cons e es ih =>
    rw [map_cons, nodup_cons] at hnd
    unfold find
    split_ifs with he
    · have hnot : (k, v) ∉ es := fun hmem => hnd.1 (he ▸ mem_map_of_mem hmem)
      rw [mem_cons, or_iff_left hnot, Option.some.injEq, ← he]
      exact ⟨fun hv => hv ▸ rfl, fun hv => (congrArg Prod.snd hv).symm⟩
    · have hne : (k, v) ≠ e := fun hv => he (congrArg Prod.fst hv).symm
      rw [mem_cons, or_iff_right hne]
      exact ih hnd.2

/-- The order of iteration does not matter for looking up a key. -/
lemma find_iterate : find k (m.iterate ord) = m.get? k := by
  apply Option.ext
  intro v
  have hiterate := get?_eq_some_iff (m := ⟨m.iterate ord, nodup_fst_iterate ord⟩) (k := k) (v := v)
  exact hiterate.trans (mem_iterate.trans get?_eq_some_iff.symm)

lemma get?_modify (k k' : κ) (d : ν) (f : ν → ν) :
    (m.modify k d f).get? k' = if k' = k then some (f ((m.get? k).getD d)) else m.get? k' := by
  obtain ⟨entries, hnd⟩ := m
  simp only [get?, modify]
  induction entries with
  | nil =>
    simp only [update, find]
    split_ifs <;> simp_all
  | cons e es ih =>
    rw [map_cons, nodup_cons] at hnd
    unfold update
    by_cases he : e.1 = k
    · by_cases hk : k' = k
      · simp [find, hk, he]
      · simp [find, hk, he, Ne.symm hk]
    · simp only [find, he, if_false, ih hnd.2]
      by_cases hk : k' = k
      · simp [hk, he]
      · simp [hk]

/-! ### Setting, adding and removing -/

def contains (m : HashMap κ ν) (k : κ) : Bool := (m.get? k).isSome

/-- `set(k, v)`. -/
def set (m : HashMap κ ν) (k : κ) (v : ν) : HashMap κ ν := m.modify k v fun _ => v

/-- `add(k, v)` keeps the value of a key that has one. -/
def add (m : HashMap κ ν) (k : κ) (v : ν) : HashMap κ ν := m.modify k v id

def remove (m : HashMap κ ν) (k : κ) : HashMap κ ν :=
  ⟨m.entries.filter (·.1 ≠ k), m.nodup.sublist (List.filter_sublist.map _)⟩

/-- Update all values in place. -/
def mapValues (f : ν → ν) (m : HashMap κ ν) : HashMap κ ν :=
  ⟨m.entries.map fun e => (e.1, f e.2), by rw [List.map_map]; exact m.nodup⟩

@[simp] lemma get?_set (k k' : κ) (v : ν) :
    (m.set k v).get? k' = if k' = k then some v else m.get? k' := get?_modify k k' v _

@[simp] lemma get?_add (k k' : κ) (v : ν) :
    (m.add k v).get? k' = if k' = k then some ((m.get? k).getD v) else m.get? k' :=
  get?_modify k k' v id

@[simp] lemma get?_remove (k k' : κ) :
    (m.remove k).get? k' = if k' = k then none else m.get? k' := by
  apply Option.ext
  intro v
  rw [get?_eq_some_iff]
  split_ifs with hk
  · simp [remove, hk]
  · simp [remove, hk, get?_eq_some_iff]

lemma remove_comm (k k' : κ) : (m.remove k).remove k' = (m.remove k').remove k := by
  simp only [remove, filter_filter, Bool.and_comm]

lemma get?_foldl_remove (ks : List κ) :
    (ks.foldl remove m).get? k = if k ∈ ks then none else m.get? k := by
  induction ks generalizing m with
  | nil => simp
  | cons k' ks ih =>
    rw [foldl_cons, ih]
    by_cases hmem : k ∈ ks
    · simp [hmem]
    · by_cases heq : k = k' <;> simp [heq]

@[simp] lemma get?_mapValues (f : ν → ν) : (m.mapValues f).get? k = (m.get? k).map f := by
  apply Option.ext
  intro v
  simp [get?_eq_some_iff, mapValues]

lemma update_of_not_mem {f : ν → ν}
    (h : k ∉ es.map Prod.fst) : update k v f es = es ++ [(k, v)] := by
  induction es with
  | nil => rfl
  | cons e es ih =>
    simp only [map_cons, mem_cons, not_or] at h
    rw [update, if_neg (Ne.symm h.1), ih h.2, cons_append]

/-- A new key goes to the end. -/
lemma entries_set_of_notMem (h : m.contains k = false)
    (v : ν) : (m.set k v).entries = m.entries ++ [(k, v)] := by
  refine update_of_not_mem fun hmem => ?_
  obtain ⟨e, he, rfl⟩ := mem_map.1 hmem
  rw [contains, get?_eq_some_iff.2 he] at h
  cases h

lemma not_contains_iff : m.contains k = false ↔ m.get? k = none := by
  simp [contains]

end HashMap

end WebKit.WTF
