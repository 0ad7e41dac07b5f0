import Mathlib

/-!
# Records written one after the other

A list of records is stored as the concatenation of their encodings, and a record is found again
by its offset. Appending records does not move the earlier ones.
-/

namespace Records

open List

variable {α β : Type*} (encode : α → List β)

def concat (rs : List α) : List β := rs.flatMap encode

/-- Where the record of index `k` starts. -/
def offset (rs : List α) (k : ℕ) : ℕ := (concat encode (rs.take k)).length

variable {encode} {rs rs' : List α} {k : ℕ}

lemma concat_append (rs rs' : List α) :
    concat encode (rs ++ rs') = concat encode rs ++ concat encode rs' := flatMap_append

lemma concat_singleton (encode : α → List β) (r : α) : concat encode [r] = encode r := by
  simp [concat]

lemma offset_length (rs : List α) : offset encode rs rs.length = (concat encode rs).length := by
  simp [offset]

lemma offset_append (rs' : List α) (hk : k ≤ rs.length) :
    offset encode (rs ++ rs') k = offset encode rs k := by
  rw [offset, take_append_of_le_length hk, offset]

/-- The encoding of a record is found at its offset. -/
lemma drop_offset (encode : α → List β) {r : α} (h : rs[k]? = some r) :
    ∃ rest, (concat encode rs).drop (offset encode rs k) = encode r ++ rest := by
  obtain ⟨hk, rfl⟩ := List.getElem?_eq_some_iff.mp h
  refine ⟨concat encode (rs.drop (k + 1)), ?_⟩
  have hspl : concat encode rs =
      concat encode (rs.take k) ++ (encode rs[k] ++ concat encode (rs.drop (k + 1))) := by
    rw [← concat_singleton encode rs[k], ← concat_append, ← concat_append,
      singleton_append, getElem_cons_drop, take_append_drop]
  rw [hspl, offset, drop_left]

end Records
