import WebKit.WTF.MetaAllocator.FreeSpace

/-!
# The occupancy of pages

Each page counts the handles on it. A page is committed with the first one and given back with the
last one.
-/

namespace WebKit.WTF

open WebKit.Core

namespace MetaAllocator

variable {a : MetaAllocator}

/-- The latest notification about a page does not say that it is needed. -/
def isReportedFree (page : ℕ) : List Notification → Bool
  | [] => true
  | .needPage page' :: rest => if page' = page then false else isReportedFree page rest
  | .pageIsFree page' :: rest => if page' = page then true else isReportedFree page rest

/-- The map counts what is on each page, and the pages without anything are reported free. -/
structure Occupied (a : MetaAllocator) (count : ℕ → ℕ) : Prop where
  get?_eq : ∀ page,
    a.pageOccupancyMap.get? page = if count page = 0 then none else some (count page)
  isReportedFree_iff : ∀ page, isReportedFree page a.notifications = true ↔ count page = 0

variable {count : ℕ → ℕ}

section

variable (h : a.Occupied count)

include h

lemma Occupied.incrementPage (page : ℕ) :
    (a.incrementPage page).Occupied fun page' => count page' + [page].count page' := by
  have hget := h.get?_eq page
  rw [MetaAllocator.incrementPage]
  by_cases hzero : count page = 0
  · rw [if_pos hzero] at hget
    rw [hget]
    refine ⟨fun page' => ?_, fun page' => ?_⟩ <;> obtain rfl | heq := eq_or_ne page' page
    · simp [hget, hzero]
    · simp [heq, h.get?_eq, heq.symm]
    · simp [isReportedFree]
    · simp [isReportedFree, heq.symm, h.isReportedFree_iff]
  · rw [if_neg hzero] at hget
    rw [hget]
    refine ⟨fun page' => ?_, fun page' => ?_⟩ <;> obtain rfl | heq := eq_or_ne page' page
    · simp
    · simp [heq, h.get?_eq, heq.symm]
    · simp [h.isReportedFree_iff, hzero]
    · simp [heq.symm, h.isReportedFree_iff]

lemma Occupied.decrementPage {page : ℕ} (hpos : count page ≠ 0) :
    (a.decrementPage page).Occupied fun page' => count page' - [page].count page' := by
  have hget := h.get?_eq page
  rw [if_neg hpos] at hget
  rw [MetaAllocator.decrementPage, hget]
  dsimp only
  split_ifs with hone
  · refine ⟨fun page' => ?_, fun page' => ?_⟩ <;> obtain rfl | heq := eq_or_ne page' page
    · simp [hone]
    · simp [heq, h.get?_eq, heq.symm]
    · simp [isReportedFree, hone]
    · simp [isReportedFree, heq.symm, h.isReportedFree_iff]
  · refine ⟨fun page' => ?_, fun page' => ?_⟩ <;> obtain rfl | heq := eq_or_ne page' page
    · simp [hone]
    · simp [heq, h.get?_eq, heq.symm]
    · simp [h.isReportedFree_iff, hpos, hone]
    · simp [heq.symm, h.isReportedFree_iff]

lemma Occupied.foldl_incrementPage (pages : List ℕ) :
    (pages.foldl MetaAllocator.incrementPage a).Occupied fun page =>
      count page + pages.count page := by
  induction pages generalizing a count with
  | nil => exact h
  | cons page pages ih =>
    have hrest := ih (h.incrementPage page)
    simpa [List.count_cons, Nat.add_assoc, Nat.add_comm (List.count _ pages)] using hrest

lemma Occupied.foldl_decrementPage {pages : List ℕ} (hle : ∀ page, pages.count page ≤ count page) :
    (pages.foldl MetaAllocator.decrementPage a).Occupied fun page =>
      count page - pages.count page := by
  induction pages generalizing a count with
  | nil => exact h
  | cons page pages ih =>
    have hpos : count page ≠ 0 := by
      have := hle page
      rw [List.count_cons_self] at this
      omega
    have hle' page' : pages.count page' ≤ count page' - [page].count page' := by
      have := hle page'
      rw [List.count_cons] at this ⊢
      simp only [List.count_nil]
      omega
    have hrest := ih (h.decrementPage hpos) hle'
    simpa [List.count_cons, Nat.sub_sub, Nat.add_comm (List.count _ pages)] using hrest

end

/-- The pages of a span that is not empty. -/
lemma count_pages {address sizeInBytes : ℕ} (hsize : 0 < sizeInBytes) (page : ℕ) :
    (a.pages address sizeInBytes).count page =
      occupancy a.pageSize [⟨address, sizeInBytes⟩] page := by
  have hmem : page ∈ a.pages address sizeInBytes ↔
      (Span.mk address sizeInBytes).Touches a.pageSize page := by
    rw [pages, List.mem_range'_1, Span.touches_iff]
    dsimp only [Span.stop]
    omega
  have hnd : (a.pages address sizeInBytes).Nodup := List.nodup_range'
  rw [hnd.count, occupancy_singleton]
  simp only [hmem]

end MetaAllocator

end WebKit.WTF
