import WebKit.WTF.MetaAllocator.PageOccupancy

/-!
# Memory in use

Free memory and memory in use make up what the allocator was given. Operations only move memory from
one to the other.
-/

namespace WebKit.WTF

open WebKit.Core

namespace MetaAllocator

variable {a a' a'' : MetaAllocator}

/-! ### What does not change -/

/-- Changes of free space. -/
structure KeepsBooks (a a' : MetaAllocator) : Prop where
  logAllocationGranule_eq : a'.logAllocationGranule = a.logAllocationGranule
  logPageSize_eq : a'.logPageSize = a.logPageSize
  bytesAllocated_eq : a'.bytesAllocated = a.bytesAllocated
  pageOccupancyMap_eq : a'.pageOccupancyMap = a.pageOccupancyMap
  notifications_eq : a'.notifications = a.notifications

lemma KeepsBooks.trans (h : KeepsBooks a a') (h' : KeepsBooks a' a'') : KeepsBooks a a'' :=
  ⟨h'.1.trans h.1, h'.2.trans h.2, h'.3.trans h.3, h'.4.trans h.4, h'.5.trans h.5⟩

lemma KeepsBooks.pageSize_eq (h : KeepsBooks a a') : a'.pageSize = a.pageSize := by
  rw [pageSize, h.logPageSize_eq, pageSize]

lemma keepsBooks_reserve (region : Span) : KeepsBooks a (a.reserve region) :=
  ⟨rfl, rfl, rfl, rfl, rfl⟩

lemma addFreeSpace_frame (start size : ℕ) :
    KeepsBooks a (a.addFreeSpace start size) ∧
      (a.addFreeSpace start size).reserved = a.reserved := by
  rw [addFreeSpace]
  split <;> exact ⟨⟨rfl, rfl, rfl, rfl, rfl⟩, rfl⟩

variable {shape size start : ℕ}

lemma findAndRemove_frame (h : a.findAndRemoveFreeSpace shape size = some (start, a')) :
    KeepsBooks a a' ∧ a'.reserved = a.reserved := by
  rw [findAndRemoveFreeSpace] at h
  rcases hfind : a.findLeastGreaterThanOrEqual shape size with - | node
  · simp [hfind] at h
  rw [hfind] at h
  dsimp only at h
  split_ifs at h <;>
    (obtain ⟨-, rfl⟩ : _ = start ∧ _ = a' := by simpa using h) <;>
    exact ⟨⟨rfl, rfl, rfl, rfl, rfl⟩, rfl⟩

/-- Changes of the occupancy of pages. -/
structure KeepsSpace (a a' : MetaAllocator) : Prop where
  logAllocationGranule_eq : a'.logAllocationGranule = a.logAllocationGranule
  logPageSize_eq : a'.logPageSize = a.logPageSize
  bytesAllocated_eq : a'.bytesAllocated = a.bytesAllocated
  reserved_eq : a'.reserved = a.reserved
  nodes_eq : a'.nodes = a.nodes
  nextNode_eq : a'.nextNode = a.nextNode
  tree_eq : a'.freeSpaceSizeMap = a.freeSpaceSizeMap
  starts_eq : a'.freeSpaceStartAddressMap = a.freeSpaceStartAddressMap
  stops_eq : a'.freeSpaceEndAddressMap = a.freeSpaceEndAddressMap

lemma KeepsSpace.refl (a : MetaAllocator) : KeepsSpace a a :=
  ⟨rfl, rfl, rfl, rfl, rfl, rfl, rfl, rfl, rfl⟩

lemma KeepsSpace.trans (h : KeepsSpace a a') (h' : KeepsSpace a' a'') : KeepsSpace a a'' :=
  ⟨h'.1.trans h.1, h'.2.trans h.2, h'.3.trans h.3, h'.4.trans h.4, h'.5.trans h.5, h'.6.trans h.6,
    h'.7.trans h.7, h'.8.trans h.8, h'.9.trans h.9⟩

lemma KeepsSpace.foldl {f : MetaAllocator → ℕ → MetaAllocator}
    (h : ∀ a page, KeepsSpace a (f a page)) (pages : List ℕ) (a : MetaAllocator) :
    KeepsSpace a (pages.foldl f a) := by
  induction pages generalizing a with
  | nil => exact .refl a
  | cons page pages ih => exact (h a page).trans (ih (f a page))

lemma keepsSpace_increment (address size : ℕ) :
    KeepsSpace a (a.incrementPageOccupancy address size) := by
  refine KeepsSpace.foldl (fun a page => ?_) _ a
  rw [incrementPage]
  split <;> exact ⟨rfl, rfl, rfl, rfl, rfl, rfl, rfl, rfl, rfl⟩

lemma keepsSpace_decrement (address size : ℕ) :
    KeepsSpace a (a.decrementPageOccupancy address size) := by
  refine KeepsSpace.foldl (fun a page => ?_) _ a
  rw [decrementPage]
  split
  · exact .refl a
  · split <;> exact ⟨rfl, rfl, rfl, rfl, rfl, rfl, rfl, rfl, rfl⟩

lemma keepsSpace_completelyFreePages (freeStart freeSize : ℕ) :
    KeepsSpace a (a.decrementCompletelyFreePages freeStart freeSize) := by
  rw [decrementCompletelyFreePages]
  split_ifs
  · exact keepsSpace_decrement _ _
  · exact .refl a

lemma KeepsSpace.freeBlocks_eq (h : KeepsSpace a a') : a'.freeBlocks = a.freeBlocks := by
  rw [freeBlocks, h.nodes_eq, h.tree_eq, freeBlocks]

lemma KeepsSpace.consistent (h : KeepsSpace a a') (hcons : a.Consistent) : a'.Consistent where
  nodup := h.tree_eq ▸ hcons.nodup
  lt_nextNode := h.tree_eq ▸ h.nextNode_eq ▸ hcons.lt_nextNode
  sorted := h.tree_eq ▸ h.nodes_eq ▸ hcons.sorted
  starts := h.tree_eq ▸ h.nodes_eq ▸ h.starts_eq ▸ hcons.starts
  stops := h.tree_eq ▸ h.nodes_eq ▸ h.stops_eq ▸ hcons.stops
  coalesced := h.freeBlocks_eq ▸ hcons.coalesced

variable {count : ℕ → ℕ}

lemma Occupied.incrementPageOccupancy (h : a.Occupied count) (address : ℕ)
    {size : ℕ} (hsize : 0 < size) :
    (a.incrementPageOccupancy address size).Occupied fun page =>
      occupancy a.pageSize [⟨address, size⟩] page + count page := by
  have hfold := h.foldl_incrementPage (a.pages address size)
  rw [MetaAllocator.incrementPageOccupancy]
  simpa only [count_pages hsize, Nat.add_comm] using hfold

lemma Occupied.decrementPageOccupancy {address size : ℕ} (hsize : 0 < size)
    (h : a.Occupied fun page => occupancy a.pageSize [⟨address, size⟩] page + count page) :
    (a.decrementPageOccupancy address size).Occupied count := by
  have hle page : (a.pages address size).count page ≤
      occupancy a.pageSize [⟨address, size⟩] page + count page := by
    rw [count_pages hsize]
    exact Nat.le_add_right _ _
  have hfold := h.foldl_decrementPage hle
  rw [MetaAllocator.decrementPageOccupancy]
  simpa only [count_pages hsize, Nat.add_sub_cancel_left] using hfold

/-! ### Memory in use -/

/-- Free memory and memory in use make up what is reserved. -/
structure Owns (a : MetaAllocator) (used : List Span) : Prop extends a.Consistent where
  tiles : ∀ x, cover a.freeBlocks x + cover used x = cover a.reserved x
  cover_reserved_le : ∀ x, cover a.reserved x ≤ 1

variable {used used' : List Span} {s : Span}

lemma Owns.congr (h : a.Owns used) (hcov : ∀ x, cover used' x = cover used x) : a.Owns used' where
  toConsistent := h.toConsistent
  tiles x := by rw [hcov, h.tiles]
  cover_reserved_le := h.cover_reserved_le

lemma KeepsSpace.owns (h : KeepsSpace a a') (howns : a.Owns used) : a'.Owns used where
  toConsistent := h.consistent howns.toConsistent
  tiles x := by rw [h.freeBlocks_eq, h.reserved_eq, howns.tiles]
  cover_reserved_le x := by rw [h.reserved_eq]; exact howns.cover_reserved_le x

lemma Owns.setBytesAllocated (h : a.Owns used) (bytesAllocated : ℕ) :
    { a with bytesAllocated := bytesAllocated }.Owns used :=
  ⟨⟨⟨h.nodup, h.lt_nextNode, h.sorted, h.starts, h.stops⟩, h.coalesced⟩, h.tiles,
    h.cover_reserved_le⟩

/-- A span that was in use becomes free. -/
lemma Owns.addFreeSpace (h : a.Owns (s :: used)) (hsize : 0 < s.size) :
    (a.addFreeSpace s.start s.size).Owns used := by
  have hrsv := (addFreeSpace_frame (a := a) s.start s.size).2
  have htiles x : cover [s] x + cover a.freeBlocks x + cover used x = cover a.reserved x := by
    rw [← h.tiles, cover_cons (l := used), Nat.add_assoc, Nat.add_left_comm]
  obtain ⟨hcons, hcov⟩ := h.toConsistent.addFreeSpace hsize fun x =>
    (Nat.le_add_right _ _).trans ((htiles x).le.trans (h.cover_reserved_le x))
  refine ⟨hcons, fun x => ?_, fun x => ?_⟩
  · rw [hcov, hrsv, htiles]
  · rw [hrsv]
    exact h.cover_reserved_le x

/-- Free space is taken into use. -/
lemma Owns.findAndRemoveFreeSpace (h : a.Owns used) (hsize : 0 < size)
    (htake : a.findAndRemoveFreeSpace shape size = some (start, a')) :
    a'.Owns (⟨start, size⟩ :: used) := by
  have hrsv := (findAndRemove_frame htake).2
  obtain ⟨hcons, hcov⟩ := h.toConsistent.findAndRemoveFreeSpace hsize htake
  refine ⟨hcons, fun x => ?_, fun x => ?_⟩
  · rw [hrsv, ← h.tiles, hcov, cover_cons, ← Nat.add_assoc, Nat.add_comm (cover a'.freeBlocks x)]
  · rw [hrsv]
    exact h.cover_reserved_le x

/-- A region of whole pages that was not given to the allocator before. -/
structure IsFresh (a : MetaAllocator) (region : Span) : Prop where
  start_ne_zero : region.start ≠ 0
  size_pos : 0 < region.size
  pageSize_dvd_start : a.pageSize ∣ region.start
  pageSize_dvd_size : a.pageSize ∣ region.size
  disjoint : ∀ s ∈ a.reserved, region.Disjoint s

/-- A new region is in use at first. -/
lemma Owns.reserve (h : a.Owns used) {region : Span} (hfresh : a.IsFresh region) :
    (a.reserve region).Owns (region :: used) where
  toConsistent := ⟨⟨h.nodup, h.lt_nextNode, h.sorted, h.starts, h.stops⟩, h.coalesced⟩
  tiles x := by
    have hfree : (a.reserve region).freeBlocks = a.freeBlocks := rfl
    have hrsv : (a.reserve region).reserved = region :: a.reserved := rfl
    rw [hfree, hrsv, cover_cons, cover_cons (l := a.reserved), ← h.tiles, Nat.add_left_comm]
  cover_reserved_le := pairwise_disjoint_iff.mp (List.pairwise_cons.mpr
    ⟨hfresh.disjoint, pairwise_disjoint_iff.mpr h.cover_reserved_le⟩)

/-- A span in use is cut in two. -/
lemma Owns.cut (h : a.Owns (s :: used)) {k : ℕ} (hk : k ≤ s.size) :
    a.Owns (⟨s.start + k, s.size - k⟩ :: ⟨s.start, k⟩ :: used) := by
  refine h.congr fun x => ?_
  rw [cover_cons, cover_cons (l := used), cover_cons (s := s), cover_cut hk, ← Nat.add_assoc,
    Nat.add_comm (cover _ x)]

/-- The contract of `allocateNewSpace`: it gives new pages, and enough of them. -/
def GivesFresh (a : MetaAllocator) (allocateNewSpace : NewSpace) (sizeInBytes : ℕ) : Prop :=
  ∀ start numberOfPages,
    allocateNewSpace (a.requestedNumberOfPages sizeInBytes) = some (start, numberOfPages) →
      a.IsFresh ⟨start, numberOfPages * a.pageSize⟩ ∧ sizeInBytes ≤ numberOfPages * a.pageSize

/-- The space for a new handle. -/
lemma Owns.takeSpace (h : a.Owns used) {allocateNewSpace : NewSpace}
    (hsize : 0 < size) (hnew : a.GivesFresh allocateNewSpace size)
    (htake : a.takeSpace shape allocateNewSpace size = some (start, a')) :
    a'.Owns (⟨start, size⟩ :: used) ∧ KeepsBooks a a' := by
  rw [MetaAllocator.takeSpace] at htake
  rcases hfind : a.findAndRemoveFreeSpace shape size with - | ⟨start', a''⟩
  · rw [hfind] at htake
    rcases hspace : allocateNewSpace (a.requestedNumberOfPages size) with
      - | ⟨start', numberOfPages⟩
    · simp [hspace] at htake
    rw [hspace] at htake
    obtain ⟨hfresh, hle⟩ := hnew _ _ hspace
    have howns := h.reserve hfresh
    dsimp only at htake
    split_ifs at htake with hlrg
    · obtain ⟨rfl, rfl⟩ : start' = start ∧ _ = a' := by simpa using htake
      exact ⟨(howns.cut hle).addFreeSpace (Nat.sub_pos_of_lt hlrg),
        (keepsBooks_reserve _).trans (addFreeSpace_frame _ _).1⟩
    · obtain ⟨rfl, rfl⟩ : start' = start ∧ _ = a' := by simpa using htake
      rw [Nat.le_antisymm hle (Nat.not_lt.mp hlrg)]
      exact ⟨howns, keepsBooks_reserve _⟩
  · rw [hfind] at htake
    obtain ⟨rfl, rfl⟩ : start' = start ∧ a'' = a' := by simpa using htake
    exact ⟨h.findAndRemoveFreeSpace hsize hfind, (findAndRemove_frame hfind).1⟩

/-! ### Rounding -/

lemma roundUp_spec {sizeInBytes rounded : ℕ} (h : a.roundUp sizeInBytes = some rounded) :
    sizeInBytes ≤ rounded ∧ a.allocationGranule ∣ rounded ∧
      ∀ size, a.allocationGranule ∣ size → sizeInBytes ≤ size → rounded ≤ size := by
  have hpos : 0 < a.allocationGranule := Nat.two_pow_pos _
  rw [roundUp] at h
  split_ifs at h
  obtain rfl := Option.some.inj h
  refine ⟨?_, Nat.dvd_mul_left _ _, ?_⟩
  · exact le_ceil_mul hpos sizeInBytes
  · rintro size ⟨m, rfl⟩ hle
    rw [Nat.mul_comm a.allocationGranule m]
    refine Nat.mul_le_mul_right _ (Nat.lt_succ_iff.mp ?_)
    rw [Nat.div_lt_iff_lt_mul hpos, Nat.succ_mul, Nat.mul_comm m]
    omega

/-- Memory that becomes free is no longer counted. -/
lemma Owns.addFreeSpaceFromReleasedHandle (h : a.Owns (s :: used)) (hsize : 0 < s.size) :
    (a.addFreeSpaceFromReleasedHandle s.start s.size).Owns used :=
  (h.setBytesAllocated (a.bytesAllocated - s.size)).addFreeSpace hsize

lemma addReleased_frame (start size : ℕ) :
    KeepsBooks { a with bytesAllocated := a.bytesAllocated - size }
      (a.addFreeSpaceFromReleasedHandle start size) := (addFreeSpace_frame _ _).1

lemma Occupied.congr (h : a.Occupied count) (hmap : a'.pageOccupancyMap = a.pageOccupancyMap)
    (hnots : a'.notifications = a.notifications) : a'.Occupied count :=
  ⟨fun page => hmap ▸ h.get?_eq page, fun page => hnots ▸ h.isReportedFree_iff page⟩

end MetaAllocator

end WebKit.WTF
