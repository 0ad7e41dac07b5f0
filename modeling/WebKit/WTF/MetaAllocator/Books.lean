import WebKit.WTF.MetaAllocator.Ownership

/-!
# The books of the allocator

A history keeps exact books unless a handle that does not start with a page is shrunk to nothing.
The page it was on is then never given back.
-/

namespace WebKit.WTF

open WebKit.Core List MetaAllocator

namespace Heap

/-- What holds after every history. A page may count more than the handles on it. -/
structure Inv (s : Heap) (leaked : ℕ → ℕ) : Prop where
  owns : s.allocator.Owns s.handles
  granule_dvd : ∀ h ∈ s.handles, s.allocator.allocationGranule ∣ h.size
  bytesAllocated_eq : s.allocator.bytesAllocated = (s.handles.map Span.size).sum
  occupied : s.allocator.Occupied fun page =>
    occupancy s.allocator.pageSize s.handles page + leaked page

variable {a a' : MetaAllocator} {handles handles' : List Span} {hd : Span} {leaked : ℕ → ℕ}

/-- The order of handles does not matter. -/
lemma Inv.perm (h : Inv ⟨a, handles⟩ leaked) (hperm : handles.Perm handles') :
    Inv ⟨a, handles'⟩ leaked where
  owns := h.owns.congr fun _ => cover_perm hperm.symm
  granule_dvd t ht := h.granule_dvd t (hperm.mem_iff.mpr ht)
  bytesAllocated_eq := h.bytesAllocated_eq.trans (hperm.map Span.size).sum_eq
  occupied := by
    have hocc := h.occupied
    simp only [occupancy_perm hperm] at hocc
    exact hocc

/-- The sizes of granules and pages stay the same. -/
lemma Inv.of_log_eq (hgranule_eq : a'.logAllocationGranule = a.logAllocationGranule)
    (hpage_eq : a'.logPageSize = a.logPageSize) (howns : a'.Owns handles)
    (hgranule : ∀ h ∈ handles, a.allocationGranule ∣ h.size)
    (hbyt : a'.bytesAllocated = (handles.map Span.size).sum)
    (hocc : a'.Occupied fun page => occupancy a.pageSize handles page + leaked page) :
    Inv ⟨a', handles⟩ leaked where
  owns := howns
  granule_dvd := by
    rw [allocationGranule, hgranule_eq]
    exact hgranule
  bytesAllocated_eq := hbyt
  occupied := by
    rw [pageSize, hpage_eq]
    exact hocc

lemma Inv.addFreshFreeSpace (h : Inv ⟨a, handles⟩ leaked) {start size : ℕ}
    (hfresh : a.IsFresh ⟨start, size⟩) : Inv ⟨a.addFreshFreeSpace start size, handles⟩ leaked := by
  have hkp : a.KeepsBooks (a.addFreshFreeSpace start size) :=
    (keepsBooks_reserve _).trans (addFreeSpace_frame _ _).1
  exact .of_log_eq hkp.logAllocationGranule_eq hkp.logPageSize_eq
    ((h.owns.reserve hfresh).addFreeSpace hfresh.size_pos) h.granule_dvd
    (hkp.bytesAllocated_eq.trans h.bytesAllocated_eq)
    (h.occupied.congr hkp.pageOccupancyMap_eq hkp.notifications_eq)

lemma Inv.allocate (h : Inv ⟨a, handles⟩ leaked) {shape size : ℕ}
    {allocateNewSpace : MetaAllocator.NewSpace} {result : Option Span}
    (hnew : ∀ rounded, a.roundUp size = some rounded → a.GivesFresh allocateNewSpace rounded)
    (hall : a.allocate shape allocateNewSpace size = some (result, a')) :
    Inv ⟨a', result.toList ++ handles⟩ leaked := by
  rw [MetaAllocator.allocate] at hall
  split_ifs at hall with hzero
  · obtain ⟨rfl, rfl⟩ : none = result ∧ a = a' := by simpa using hall
    exact h
  rcases hround : a.roundUp size with - | rounded
  · simp [hround] at hall
  obtain ⟨hle, hdvd, -⟩ := MetaAllocator.roundUp_spec hround
  have hsize : 0 < rounded := (Nat.pos_of_ne_zero hzero).trans_le hle
  rcases htake : a.takeSpace shape allocateNewSpace rounded with - | ⟨start, a₁⟩
  · obtain ⟨rfl, rfl⟩ : none = result ∧ a = a' := by simpa [hround, htake] using hall
    exact h
  obtain ⟨rfl, rfl⟩ : some (Span.mk start rounded) = result ∧ _ = a' := by
    simpa [hround, htake] using hall
  obtain ⟨howns, hkp⟩ := h.owns.takeSpace hsize (hnew rounded hround) htake
  have hspace := MetaAllocator.keepsSpace_increment (a := a₁) start rounded
  have hocc := (h.occupied.congr hkp.pageOccupancyMap_eq
    hkp.notifications_eq).incrementPageOccupancy start hsize
  refine .of_log_eq (hspace.logAllocationGranule_eq.trans hkp.logAllocationGranule_eq)
    (hspace.logPageSize_eq.trans hkp.logPageSize_eq)
    ((hspace.owns howns).setBytesAllocated _) (fun t ht => ?_) ?_ ?_
  · rcases mem_cons.mp ht with rfl | ht
    · exact hdvd
    · exact h.granule_dvd t ht
  · have hbyt : (a₁.incrementPageOccupancy start rounded).bytesAllocated =
        (handles.map Span.size).sum :=
      hspace.bytesAllocated_eq.trans (hkp.bytesAllocated_eq.trans h.bytesAllocated_eq)
    simp [hbyt, Nat.add_comm]
  · simp only [hkp.pageSize_eq, ← Nat.add_assoc, ← occupancy_cons] at hocc
    exact hocc.congr rfl rfl

/-- A handle without memory does not matter. -/
lemma Inv.drop (h : Inv ⟨a, hd :: handles⟩ leaked) (hzero : hd.size = 0) :
    Inv ⟨a, handles⟩ leaked where
  owns := h.owns.congr fun x => by simp [cover_cons, cover_of_size_eq_zero hzero]
  granule_dvd t ht := h.granule_dvd t (mem_cons_of_mem hd ht)
  bytesAllocated_eq := h.bytesAllocated_eq.trans (by simp [hzero])
  occupied := by
    have hocc := h.occupied
    simpa only [occupancy_cons, occupancy_of_size_eq_zero hzero, Nat.zero_add] using hocc

lemma Inv.release (h : Inv ⟨a, hd :: handles⟩ leaked) : Inv ⟨a.release hd, handles⟩ leaked := by
  rw [MetaAllocator.release]
  split_ifs with hzero
  · exact h.drop hzero
  · have hsize := Nat.pos_of_ne_zero hzero
    have hspace := MetaAllocator.keepsSpace_decrement (a := a) hd.start hd.size
    have hkp := MetaAllocator.addReleased_frame
      (a := a.decrementPageOccupancy hd.start hd.size) hd.start hd.size
    have hocc : a.Occupied fun page =>
        occupancy a.pageSize [⟨hd.start, hd.size⟩] page +
          (occupancy a.pageSize handles page + leaked page) := by
      have := h.occupied
      simpa only [occupancy_cons (l := handles), Nat.add_assoc] using this
    refine .of_log_eq (hkp.logAllocationGranule_eq.trans hspace.logAllocationGranule_eq)
      (hkp.logPageSize_eq.trans hspace.logPageSize_eq)
      ((hspace.owns h.owns).addFreeSpaceFromReleasedHandle hsize)
      (fun t ht => h.granule_dvd t (mem_cons_of_mem hd ht)) ?_ ?_
    · rw [hkp.bytesAllocated_eq]
      rw [hspace.bytesAllocated_eq, h.bytesAllocated_eq]
      simp
    · exact (hocc.decrementPageOccupancy hsize).congr hkp.pageOccupancyMap_eq hkp.notifications_eq

/-- The pages behind the new end of a handle. -/
lemma occupied_completelyFreePages {count : ℕ → ℕ} {k : ℕ} (hk : k < hd.size)
    (h : a.Occupied fun page => occupancy a.pageSize [hd] page + count page) :
    (a.decrementCompletelyFreePages (hd.start + k) (hd.size - k)).Occupied fun page =>
      occupancy a.pageSize [⟨hd.start, k⟩] page + (count page +
        if k = 0 ∧ ¬ a.pageSize ∣ hd.start ∧ page = hd.start / a.pageSize then 1
        else 0) := by
  have hpageSize : 0 < a.pageSize := Nat.two_pow_pos _
  have hceil := le_ceil_mul hpageSize (hd.start + k)
  have hstop : hd.start + k + (hd.size - k) = hd.stop := by
    rw [Span.stop]
    omega
  simp only [occupancy_shrink hpageSize hk] at h
  rw [decrementCompletelyFreePages, hstop]
  generalize (hd.start + k + a.pageSize - 1) / a.pageSize * a.pageSize = first at h hceil
  split_ifs with hfst
  · have hsize : hd.size - k - (first - (hd.start + k)) = hd.stop - first := by
      omega
    rw [hsize]
    refine MetaAllocator.Occupied.decrementPageOccupancy (Nat.sub_pos_of_lt hfst) ?_
    simp only [if_pos hfst] at h
    convert h using 2
    omega
  · simp only [if_neg hfst] at h
    convert h using 2
    omega

lemma Inv.shrink (h : Inv ⟨a, hd :: handles⟩ leaked) {newSizeInBytes : ℕ} {hd' : Span}
    (hle : newSizeInBytes ≤ hd.size) (hshr : a.shrink hd newSizeInBytes = some (hd', a')) :
    Inv ⟨a', hd' :: handles⟩ fun page => leaked page +
      if newSizeInBytes = 0 ∧ hd.size ≠ 0 ∧ ¬ a.pageSize ∣ hd.start ∧
        page = hd.start / a.pageSize then 1 else 0 := by
  rw [MetaAllocator.shrink] at hshr
  rcases hround : a.roundUp newSizeInBytes with - | rounded
  · simp [hround] at hshr
  obtain ⟨hge, hdvd, hleast⟩ := MetaAllocator.roundUp_spec hround
  have hrnd := hleast hd.size (h.granule_dvd hd mem_cons_self) hle
  have hzero : newSizeInBytes = 0 ↔ rounded = 0 := by
    constructor
    · rintro rfl
      exact Nat.le_zero.mp (hleast 0 (Nat.dvd_zero _) le_rfl)
    · omega
  simp only [hround, Option.bind_eq_bind, Option.bind_some] at hshr
  by_cases hsame : rounded = hd.size
  · rw [if_pos hsame] at hshr
    obtain ⟨rfl, rfl⟩ : hd = hd' ∧ a = a' := by simpa using hshr
    have hnot page : ¬ (newSizeInBytes = 0 ∧ hd.size ≠ 0 ∧ ¬ a.pageSize ∣ hd.start ∧
        page = hd.start / a.pageSize) := fun hleak => hleak.2.1 (hsame ▸ hzero.mp hleak.1)
    simpa only [if_neg (hnot _), Nat.add_zero] using h
  · rw [if_neg hsame] at hshr
    have hlt : rounded < hd.size := lt_of_le_of_ne hrnd hsame
    have hocc : a.Occupied fun page =>
        occupancy a.pageSize [hd] page + (occupancy a.pageSize handles page + leaked page) := by
      have := h.occupied
      simpa only [occupancy_cons (l := handles), Nat.add_assoc] using this
    -- the page of the start is kept, also if nothing is left in it
    have hocc := occupied_completelyFreePages hlt hocc
    have hspace := MetaAllocator.keepsSpace_completelyFreePages (a := a)
      (hd.start + rounded) (hd.size - rounded)
    generalize a.decrementCompletelyFreePages (hd.start + rounded) (hd.size - rounded) = a₁
      at hocc hspace hshr
    obtain ⟨rfl, rfl⟩ : Span.mk hd.start rounded = hd' ∧ _ = a' := by simpa using hshr
    have hkp := MetaAllocator.addReleased_frame (a := a₁) (hd.start + rounded) (hd.size - rounded)
    refine .of_log_eq (hkp.logAllocationGranule_eq.trans hspace.logAllocationGranule_eq)
      (hkp.logPageSize_eq.trans hspace.logPageSize_eq)
      (((hspace.owns h.owns).cut hrnd).addFreeSpaceFromReleasedHandle (Nat.sub_pos_of_lt hlt))
      (fun t ht => ?_) ?_ ?_
    · rcases mem_cons.mp ht with rfl | ht
      · exact hdvd
      · exact h.granule_dvd t (mem_cons_of_mem hd ht)
    · rw [hkp.bytesAllocated_eq]
      rw [hspace.bytesAllocated_eq, h.bytesAllocated_eq]
      simp only [map_cons, sum_cons]
      omega
    · have hcnt := hocc.congr hkp.pageOccupancyMap_eq hkp.notifications_eq
      convert hcnt using 2 with page
      have hsize : hd.size ≠ 0 := Nat.ne_zero_of_lt hlt
      simp only [occupancy_cons (l := handles), hzero, hsize, ne_eq, not_false_eq_true, true_and]
      omega

/-! ### Histories -/

/-- New regions are whole pages, and handles do not grow. -/
def Allowed (s : Heap) : Operation → Prop
  | .addFreshFreeSpace start sizeInBytes => s.allocator.IsFresh ⟨start, sizeInBytes⟩
  | .allocate _ allocateNewSpace sizeInBytes => ∀ rounded,
    s.allocator.roundUp sizeInBytes = some rounded → s.allocator.GivesFresh allocateNewSpace rounded
  | .shrink i newSizeInBytes => ∀ handle, s.handles[i]? = some handle → newSizeInBytes ≤ handle.size
  | .release _ => True

/-- A handle that is shrunk to nothing starts with a page. -/
def Careful (s : Heap) : Operation → Prop
  | .shrink i newSizeInBytes => ∀ handle, s.handles[i]? = some handle → newSizeInBytes = 0 →
    handle.size ≠ 0 → s.allocator.pageSize ∣ handle.start
  | _ => True

lemma perm_of_getElem? {i : ℕ} (h : handles[i]? = some hd) :
    handles.Perm (hd :: handles.eraseIdx i) := by
  obtain ⟨hlt, rfl⟩ := List.getElem?_eq_some_iff.mp h
  exact (List.getElem_cons_eraseIdx_perm hlt).symm

variable {s : Heap}

lemma Inv.step {s' : Heap} {op : Operation} (hstep : s.step op = some s')
    (hallow : s.Allowed op) (h : s.Inv leaked) :
    ∃ leaked', leaked ≤ leaked' ∧ s'.Inv leaked' ∧ (leaked' = leaked ↔ s.Careful op) := by
  obtain ⟨a, handles⟩ := s
  cases op with
  | addFreshFreeSpace start size =>
    obtain rfl := Option.some.inj hstep
    exact ⟨leaked, le_rfl, h.addFreshFreeSpace hallow, iff_of_true rfl trivial⟩
  | allocate shape allocateNewSpace size =>
    rw [Heap.step] at hstep
    rcases hall : a.allocate shape allocateNewSpace size with - | ⟨result, a'⟩
    · simp [hall] at hstep
    obtain rfl : Heap.mk a' (result.toList ++ handles) = s' := by simpa [hall] using hstep
    exact ⟨leaked, le_rfl, h.allocate hallow hall, iff_of_true rfl trivial⟩
  -- the only operation that can leak, and only if it is not careful
  | shrink i newSizeInBytes =>
    rw [Heap.step] at hstep
    rcases hhan : handles[i]? with - | hd
    · simp [hhan] at hstep
    rcases hshr : a.shrink hd newSizeInBytes with - | ⟨hd', a'⟩
    · simp [hhan, hshr] at hstep
    obtain rfl : Heap.mk a' (handles.set i hd') = s' := by
      simpa [hhan, hshr] using hstep
    have hperm : (hd' :: handles.eraseIdx i).Perm (handles.set i hd') :=
      (List.set_perm_cons_eraseIdx (List.getElem?_eq_some_iff.mp hhan).1 hd').symm
    refine ⟨_, fun page => Nat.le_add_right _ _, ((h.perm (perm_of_getElem? hhan)).shrink
      (hallow hd hhan) hshr).perm hperm, ?_⟩
    constructor
    · intro heq handle₂ hhandle₂ hnew hsize
      obtain rfl := Option.some.inj (hhan.symm.trans hhandle₂)
      by_contra hdvd
      have hpage := congrFun heq (hd.start / a.pageSize)
      rw [if_pos ⟨hnew, hsize, hdvd, rfl⟩] at hpage
      exact absurd hpage (Nat.succ_ne_self _)
    · intro hcareful
      funext page
      rw [if_neg, Nat.add_zero]
      exact fun hleak => hleak.2.2.1 (hcareful hd hhan hleak.1 hleak.2.1)
  | release i =>
    rw [Heap.step] at hstep
    rcases hhan : handles[i]? with - | hd
    · simp [hhan] at hstep
    obtain rfl : Heap.mk (a.release hd) (handles.eraseIdx i) = s' := by
      simpa [hhan] using hstep
    exact ⟨leaked, le_rfl, (h.perm (perm_of_getElem? hhan)).release, iff_of_true rfl trivial⟩

/-! ### Exact books -/

/-- What the books of the allocator are supposed to say. -/
structure Exact (s : Heap) : Prop where
  handles_disjoint : s.handles.Pairwise Span.Disjoint
  handles_disjoint_free : ∀ h ∈ s.handles, ∀ b ∈ s.allocator.freeBlocks, h.Disjoint b
  tiles : ∀ x, (∃ r ∈ s.allocator.reserved, r.Contains x) ↔
    (∃ b ∈ s.allocator.freeBlocks, b.Contains x) ∨ ∃ h ∈ s.handles, h.Contains x
  sorted : s.allocator.freeBlocks.Pairwise fun b c => b.size ≤ c.size
  starts : ∀ address b, (∃ node, s.allocator.freeSpaceStartAddressMap.get? address = some node ∧
    s.allocator.nodes node = b) ↔ b ∈ s.allocator.freeBlocks ∧ b.start = address
  stops : ∀ address b, (∃ node, s.allocator.freeSpaceEndAddressMap.get? address = some node ∧
    s.allocator.nodes node = b) ↔ b ∈ s.allocator.freeBlocks ∧ b.stop = address
  free_disjoint : s.allocator.freeBlocks.Pairwise Span.Disjoint
  maximal : ∀ b ∈ s.allocator.freeBlocks, 0 < b.size ∧ ∀ c ∈ s.allocator.freeBlocks,
    ¬ c.Contains b.stop ∧ ∀ x, x + 1 = b.start → ¬ c.Contains x
  bytesAllocated_eq : s.allocator.bytesAllocated = (s.handles.map Span.size).sum
  occupancy_eq : ∀ page, (s.allocator.pageOccupancyMap.get? page).getD 0 =
    occupancy s.allocator.pageSize s.handles page
  isReportedFree_iff : ∀ page,
    MetaAllocator.isReportedFree page s.allocator.notifications = true ↔
      ∀ h ∈ s.handles, ¬ h.Touches s.allocator.pageSize page

/-- The entries of a map of nodes, as blocks. -/
lemma exists_get?_iff {m : HashMap ℕ ℕ} {key : Span → ℕ}
    (h : Finds m.get? (fun node => key (a.nodes node)) (· ∈ a.freeSpaceSizeMap)) (address : ℕ)
    (b : Span) : (∃ node, m.get? address = some node ∧ a.nodes node = b) ↔
      b ∈ a.freeBlocks ∧ key b = address := by
  simp only [h _ _, freeBlocks, mem_map]
  constructor
  · rintro ⟨node, ⟨hnode, rfl⟩, rfl⟩
    exact ⟨⟨node, hnode, rfl⟩, rfl⟩
  · rintro ⟨⟨node, hnode, rfl⟩, rfl⟩
    exact ⟨node, ⟨hnode, rfl⟩, rfl⟩

lemma Inv.exact (h : s.Inv 0) : s.Exact := by
  have htotal x : cover (s.handles ++ s.allocator.freeBlocks) x = cover s.allocator.reserved x := by
    rw [← h.owns.tiles, cover_append, Nat.add_comm]
  have hdisj := pairwise_append.mp (pairwise_disjoint_iff.mpr fun x =>
    (htotal x).le.trans (h.owns.cover_reserved_le x))
  have hocc page := h.occupied.get?_eq page
  refine ⟨hdisj.1, hdisj.2.2, fun x => ?_, ?_, exists_get?_iff h.owns.starts,
    exists_get?_iff h.owns.stops, hdisj.2.1, fun b hb => ?_, h.bytesAllocated_eq,
    fun page => ?_, fun page => ?_⟩
  · simp [← cover_pos_iff, ← h.owns.tiles]
  · exact pairwise_map.mpr h.owns.sorted
  · exact ⟨h.owns.coalesced.size_pos b hb, fun c hc => h.owns.coalesced.maximal hb hc⟩
  · rw [hocc]
    split_ifs with hzero
    · exact hzero.symm
    · rfl
  · rw [h.occupied.isReportedFree_iff]
    simp [occupancy]

lemma Inv.exact_iff (h : s.Inv leaked) : s.Exact ↔ leaked = 0 := by
  constructor
  · intro hex
    funext page
    have hcnt := hex.occupancy_eq page
    rw [h.occupied.get?_eq] at hcnt
    split_ifs at hcnt with hzero
    · exact (Nat.add_eq_zero_iff.mp hzero).2
    · simpa using hcnt
  · rintro rfl
    exact h.exact

/-- An allocator without memory. -/
def empty (logAllocationGranule logPageSize : ℕ) : Heap :=
  ⟨{ logAllocationGranule := logAllocationGranule, logPageSize := logPageSize }, []⟩

lemma inv_empty (logAllocationGranule logPageSize : ℕ) :
    (empty logAllocationGranule logPageSize).Inv 0 where
  owns := ⟨⟨⟨nodup_nil, by simp [empty], List.Pairwise.nil, by simp [Finds, empty],
    by simp [Finds, empty]⟩, .nil⟩, fun _ => rfl, fun _ => Nat.zero_le _⟩
  granule_dvd := by simp [empty]
  bytesAllocated_eq := rfl
  occupied := ⟨fun page => rfl, fun page => iff_of_true rfl rfl⟩

/-- The books are exact after a history if and only if no handle was shrunk to nothing that did not
start with a page. -/
theorem exact_iff_careful {logAllocationGranule logPageSize : ℕ} {ops : List Operation} {s : Heap}
    (hrun : run Heap.step (empty logAllocationGranule logPageSize) ops = some s)
    (hallowed : EachStep Heap.step Allowed (empty logAllocationGranule logPageSize) ops) :
    s.Exact ↔ EachStep Heap.step Careful (empty logAllocationGranule logPageSize) ops := by
  obtain ⟨leaked, -, hinv, hcareful⟩ := run_defect
    (fun _ _ _ _ hstep hallowed hinv => hinv.step hstep hallowed) hrun hallowed
    (inv_empty logAllocationGranule logPageSize)
  rw [hinv.exact_iff, hcareful]

/-- Two pages at an allocator without other memory. -/
lemma isFresh_empty : (empty 5 12).allocator.IsFresh ⟨4096, 8192⟩ where
  start_ne_zero := by decide
  size_pos := by decide
  pageSize_dvd_start := by decide
  pageSize_dvd_size := by decide
  disjoint := by simp [empty]

lemma allowed_allocate (s : Heap) (shape size : ℕ) :
    s.Allowed (.allocate shape (fun _ => none) size) :=
  fun _ _ _ _ h => by cases h

/-- Of two handles the second is shrunk and the first is released. -/
def carefulHistory : List Operation :=
  [.addFreshFreeSpace 4096 8192, .allocate 0 (fun _ => none) 100, .allocate 0 (fun _ => none) 5000,
    .shrink 0 64, .release 1]

lemma allowed_carefulHistory : EachStep Heap.step Allowed (empty 5 12) carefulHistory := by
  refine ⟨isFresh_empty, fun s₁ h₁ => ⟨allowed_allocate s₁ _ _, fun s₂ h₂ =>
    ⟨allowed_allocate s₂ _ _, fun s₃ h₃ => ⟨fun handle hget => ?_, fun _ _ => ⟨trivial,
      fun _ _ => trivial⟩⟩⟩⟩⟩
  have hhandles : (run Heap.step (empty 5 12) (carefulHistory.take 3)).map (·.handles) =
      some [⟨4224, 5024⟩, ⟨4096, 128⟩] := by
    decide +kernel
  simp only [carefulHistory, take_succ_cons, take_zero, run, h₁, h₂, h₃, Option.bind_some,
    Option.map_some, Option.some.injEq] at hhandles
  obtain rfl : (⟨4224, 5024⟩ : Span) = handle := by simpa [hhandles] using hget
  decide

lemma careful_carefulHistory : EachStep Heap.step Careful (empty 5 12) carefulHistory :=
  ⟨trivial, fun _ _ => ⟨trivial, fun _ _ => ⟨trivial, fun _ _ => ⟨nofun, fun _ _ => ⟨trivial,
    fun _ _ => trivial⟩⟩⟩⟩⟩

lemma exists_run_carefulHistory : ∃ s, run Heap.step (empty 5 12) carefulHistory = some s ∧
    s.handles = [⟨4224, 64⟩] ∧ s.allocator.pageSize = 4096 := by
  have hrun : (run Heap.step (empty 5 12) carefulHistory).map
      (fun s => (s.handles, s.allocator.pageSize)) = some ([⟨4224, 64⟩], 4096) := by
    decide +kernel
  obtain ⟨s, hs, heq⟩ := Option.map_eq_some_iff.mp hrun
  exact ⟨s, hs, Prod.mk.inj heq⟩

theorem exact_carefulHistory :
    ∃ s, run Heap.step (empty 5 12) carefulHistory = some s ∧ s.Exact := by
  obtain ⟨s, hs, -⟩ := exists_run_carefulHistory
  exact ⟨s, hs, (exact_iff_careful hs allowed_carefulHistory).mpr careful_carefulHistory⟩

/-- Memory on the page of a live handle is always known as allocated. After a careful history no
other memory is. -/
theorem isInAllocatedMemory_run {granule page : ℕ} {ops : List Operation} {s : Heap}
    (hrun : run Heap.step (empty granule page) ops = some s)
    (hallowed : EachStep Heap.step Allowed (empty granule page) ops) (address : ℕ) :
    let live := ∃ hd ∈ s.handles, hd.Touches s.allocator.pageSize (address / s.allocator.pageSize)
    (live → s.allocator.isInAllocatedMemory address) ∧
      (EachStep Heap.step Careful (empty granule page) ops →
        s.allocator.isInAllocatedMemory address → live) := by
  intro live
  obtain ⟨leaked, -, hinv, hcareful⟩ := run_defect
    (fun _ _ _ _ hstep hallowed hinv => hinv.step hstep hallowed) hrun hallowed
    (inv_empty granule page)
  have hiff : s.allocator.isInAllocatedMemory address ↔
      live ∨ leaked (address / s.allocator.pageSize) ≠ 0 := by
    rw [isInAllocatedMemory, HashMap.contains, hinv.occupied.get?_eq]
    split_ifs with hzero
    · simpa [live, occupancy] using hzero
    · simpa [occupancy, imp_iff_not_or] using hzero
  refine ⟨fun hlive => hiff.2 (.inl hlive), fun hcare hin => ?_⟩
  obtain rfl := hcareful.2 hcare
  exact (hiff.1 hin).resolve_right fun h => h rfl

/-- The first of the two pages has a handle. -/
theorem isInAllocatedMemory_carefulHistory : ∃ s,
    run Heap.step (empty 5 12) carefulHistory = some s ∧
      s.allocator.isInAllocatedMemory 4100 ∧ ¬s.allocator.isInAllocatedMemory 8192 := by
  obtain ⟨s, hs, hhandles, hpage⟩ := exists_run_carefulHistory
  refine ⟨s, hs, (isInAllocatedMemory_run hs allowed_carefulHistory 4100).1 ?_, fun h => ?_⟩
  · rw [hhandles, hpage]
    exact ⟨_, mem_singleton_self _, by decide⟩
  · obtain ⟨hd, hmem, htouches⟩ :=
      (isInAllocatedMemory_run hs allowed_carefulHistory 8192).2 careful_carefulHistory h
    rw [hhandles, mem_singleton] at hmem
    rw [hmem, hpage] at htouches
    exact absurd htouches (by decide)

/-- Of two handles on a page, the second is shrunk to nothing before both are released. -/
def leakingHistory : List Operation :=
  [.addFreshFreeSpace 4096 8192, .allocate 0 (fun _ => none) 32, .allocate 0 (fun _ => none) 32,
    .shrink 0 0, .release 0, .release 0]

/-- The page still counts a handle, and is not reported free. -/
theorem shrink_leaks_page : EachStep Heap.step Allowed (empty 5 12) leakingHistory ∧
    ∃ s, run Heap.step (empty 5 12) leakingHistory = some s ∧ s.handles = [] ∧
      s.allocator.pageOccupancyMap.get? 1 = some 1 ∧
      MetaAllocator.isReportedFree 1 s.allocator.notifications = false ∧ ¬ s.Exact := by
  have hrun : (run Heap.step (empty 5 12) leakingHistory).map (fun s => (s.handles,
      s.allocator.pageOccupancyMap.get? 1,
      isReportedFree 1 s.allocator.notifications)) = some ([], some 1, false) := by
    decide +kernel
  obtain ⟨s, hs, heq⟩ := Option.map_eq_some_iff.mp hrun
  simp only [Prod.mk.injEq] at heq
  obtain ⟨hhandles, hget, hreported⟩ := heq
  refine ⟨?_, s, hs, hhandles, hget, hreported, fun hexact => ?_⟩
  · exact ⟨isFresh_empty, fun s _ => ⟨allowed_allocate s _ _, fun s _ => ⟨allowed_allocate s _ _,
      fun _ _ => ⟨fun _ _ => Nat.zero_le _, fun _ _ => ⟨trivial, fun _ _ => ⟨trivial,
        fun _ _ => trivial⟩⟩⟩⟩⟩⟩
  · have hcount := hexact.occupancy_eq 1
    rw [hget, hhandles] at hcount
    cases hcount

end Heap

end WebKit.WTF
