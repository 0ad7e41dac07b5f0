import WebKit.Core.Vec

/-!
# The partitions of `DFAMinimizer`

A partition of the elements `0, …, n - 1`: the elements of a set stand next to each other in
`partitionedElements`, and the marked elements of a set stand before its other elements.
-/

namespace WebKit.ContentExtensions

open List

structure SetDescriptor where
  start : ℕ
  size : ℕ
  markedCount : ℕ

instance : Inhabited SetDescriptor := ⟨⟨0, 0, 0⟩⟩

namespace SetDescriptor

def indexAfterMarkedElements (d : SetDescriptor) : ℕ := d.start + d.markedCount

/-- `end()`. -/
def stop (d : SetDescriptor) : ℕ := d.start + d.size

end SetDescriptor

structure Partition where
  sets : Vec SetDescriptor
  partitionedElements : Vec ℕ
  elementPositionInPartitionedNodes : Vec ℕ
  elementToSetMap : Vec ℕ
  setsMarkedInCurrentGeneration : List ℕ

namespace Partition

/-- The partition with all elements in one set. -/
def initialized (size : ℕ) : Partition where
  sets := if size = 0 then Vec.empty else Vec.empty.push ⟨0, size, 0⟩
  partitionedElements := ⟨size, id⟩
  elementPositionInPartitionedNodes := ⟨size, id⟩
  elementToSetMap := ⟨size, fun _ => 0⟩
  setsMarkedInCurrentGeneration := []

def addSetUnchecked (p : Partition) (start size : ℕ) : Partition :=
  { p with sets := p.sets.push ⟨start, size, 0⟩ }

def reserveUninitializedCapacity (p : Partition) (elementCount : ℕ) : Partition :=
  { p with
    partitionedElements := ⟨elementCount, p.partitionedElements.get⟩
    elementPositionInPartitionedNodes := ⟨elementCount, p.elementPositionInPartitionedNodes.get⟩
    elementToSetMap := ⟨elementCount, p.elementToSetMap.get⟩ }

def setElementUnchecked (p : Partition) (elementIndex positionInPartition setIndex : ℕ) :
    Partition :=
  { p with
    partitionedElements := p.partitionedElements.set positionInPartition elementIndex
    elementPositionInPartitionedNodes :=
      p.elementPositionInPartitionedNodes.set elementIndex positionInPartition
    elementToSetMap := p.elementToSetMap.set elementIndex setIndex }

def startOffsetOfSet (p : Partition) (setIndex : ℕ) : ℕ := (p.sets.get setIndex).start

def setIndex (p : Partition) (elementIndex : ℕ) : ℕ := p.elementToSetMap.get elementIndex

def firstElementInSet (p : Partition) (setIndex : ℕ) : ℕ :=
  p.partitionedElements.get (p.sets.get setIndex).start

/-- Swap the element with the first unmarked element of its set and count it as marked. -/
def markElementInCurrentGeneration (p : Partition) (elementIndex : ℕ) : Partition :=
  let setIndex := p.elementToSetMap.get elementIndex
  let setDescriptor := p.sets.get setIndex
  let elementPosition := p.elementPositionInPartitionedNodes.get elementIndex
  let firstUnmarkedPosition := setDescriptor.indexAfterMarkedElements
  let firstUnmarkedElement := p.partitionedElements.get firstUnmarkedPosition
  { p with
    partitionedElements := (p.partitionedElements.set firstUnmarkedPosition elementIndex).set
      elementPosition firstUnmarkedElement
    elementPositionInPartitionedNodes :=
      (p.elementPositionInPartitionedNodes.set elementIndex firstUnmarkedPosition).set
        firstUnmarkedElement elementPosition
    setsMarkedInCurrentGeneration :=
      if setDescriptor.markedCount = 0 then p.setsMarkedInCurrentGeneration ++ [setIndex]
      else p.setsMarkedInCurrentGeneration
    sets := p.sets.set setIndex
      { setDescriptor with markedCount := setDescriptor.markedCount + 1 } }

/-- The elements of a set, in the order in which `iterateSet` passes them. -/
def iterateSet (p : Partition) (setIndex : ℕ) : List ℕ :=
  (List.range (p.sets.get setIndex).size).map fun i =>
    p.partitionedElements.get ((p.sets.get setIndex).start + i)

/-- One iteration of `refineGeneration`. Unless all elements of the set are marked, the marked or
the other elements get a new set, whose index is returned. -/
def refineSet (p : Partition) (setIndex : ℕ) : Partition × Option ℕ :=
  let setDescriptor := p.sets.get setIndex
  if setDescriptor.markedCount = setDescriptor.size then
    ({ p with sets := p.sets.set setIndex { setDescriptor with markedCount := 0 } }, none)
  else
    let newSetIsMarkedSet := decide (setDescriptor.markedCount * 2 ≤ setDescriptor.size)
    let newSet : SetDescriptor :=
      if newSetIsMarkedSet then ⟨setDescriptor.start, setDescriptor.markedCount, 0⟩
      else
        ⟨setDescriptor.start + setDescriptor.markedCount,
          setDescriptor.size - setDescriptor.markedCount, 0⟩
    let start :=
      if newSetIsMarkedSet then setDescriptor.start + setDescriptor.markedCount
      else setDescriptor.start
    let newSetIndex := p.sets.size
    ({ p with
       sets := (p.sets.set setIndex ⟨start, setDescriptor.size - newSet.size, 0⟩).push newSet
       elementToSetMap := (List.range newSet.size).foldl
         (fun map i => map.set (p.partitionedElements.get (newSet.start + i)) newSetIndex)
         p.elementToSetMap },
      some newSetIndex)

/-- Split a set and let `function` see the partition and the index of the new set. -/
def refineStep {σ : Type*} (function : Partition → ℕ → σ → σ) (ps : Partition × σ)
    (setIndex : ℕ) : Partition × σ :=
  match ps.1.refineSet setIndex with
  | (p, none) => (p, ps.2)
  | (p, some newSetIndex) => (p, function p newSetIndex ps.2)

/-- Split every set that has marked elements. -/
def refineGeneration {σ : Type*} (function : Partition → ℕ → σ → σ) (p : Partition) (s : σ) :
    Partition × σ :=
  let result := p.setsMarkedInCurrentGeneration.foldl (refineStep function) (p, s)
  ({ result.1 with setsMarkedInCurrentGeneration := [] }, result.2)

/-! ### Well-formed partitions -/

/-- The position of an element. -/
def pos (p : Partition) (e : ℕ) : ℕ := p.elementPositionInPartitionedNodes.get e

/-- A partition of `n` elements, where `marked` are the sets with marked elements. -/
structure WF (n : ℕ) (p : Partition) (marked : List ℕ) : Prop where
  pos_lt : ∀ e < n, p.pos e < n
  element_lt : ∀ i < n, p.partitionedElements.get i < n
  element_pos : ∀ e < n, p.partitionedElements.get (p.pos e) = e
  pos_element : ∀ i < n, p.pos (p.partitionedElements.get i) = i
  setIndex_lt : ∀ e < n, p.setIndex e < p.sets.size
  setIndex_iff : ∀ e < n, ∀ s < p.sets.size,
    p.setIndex e = s ↔ (p.sets.get s).start ≤ p.pos e ∧ p.pos e < (p.sets.get s).stop
  stop_le : ∀ s < p.sets.size, (p.sets.get s).stop ≤ n
  size_pos : ∀ s < p.sets.size, 0 < (p.sets.get s).size
  markedCount_le : ∀ s < p.sets.size, (p.sets.get s).markedCount ≤ (p.sets.get s).size
  mem_marked : ∀ s, s ∈ marked ↔ s < p.sets.size ∧ 0 < (p.sets.get s).markedCount
  nodup_marked : marked.Nodup

/-- The element was marked in the current generation. -/
def IsMarked (p : Partition) (e : ℕ) : Prop :=
  p.pos e < (p.sets.get (p.setIndex e)).indexAfterMarkedElements

/-- The position of the first unmarked element in the set of the element. -/
def firstUnmarkedPosition (p : Partition) (e : ℕ) : ℕ :=
  (p.sets.get (p.setIndex e)).indexAfterMarkedElements

variable {e : ℕ}

lemma isMarked_iff {p : Partition} : p.IsMarked e ↔ p.pos e < p.firstUnmarkedPosition e := Iff.rfl

lemma wf_initialized {n : ℕ} (hn : 0 < n) : WF n (initialized n) [] := by
  have hsets : (initialized n).sets = Vec.empty.push ⟨0, n, 0⟩ := if_neg hn.ne'
  have hsize : (initialized n).sets.size = 1 := by rw [hsets]; rfl
  have hget : (initialized n).sets.get 0 = ⟨0, n, 0⟩ := by rw [hsets]; rfl
  have hzero : ∀ s < (initialized n).sets.size, (initialized n).sets.get s = ⟨0, n, 0⟩ := by
    intro s hs
    obtain rfl : s = 0 := by omega
    exact hget
  refine ⟨fun _ h => h, fun _ h => h, fun _ _ => rfl, fun _ _ => rfl, ?_, ?_, ?_, ?_, ?_, ?_,
    nodup_nil⟩
  · exact fun _ _ => hsize ▸ Nat.zero_lt_one
  · intro e he s hs
    rw [hzero s hs]
    refine ⟨fun _ => ⟨Nat.zero_le _, ?_⟩, fun _ => ?_⟩
    · change e < 0 + n
      omega
    · change 0 = s
      omega
  · exact fun s hs => hzero s hs ▸ (Nat.zero_add n).le
  · exact fun s hs => hzero s hs ▸ hn
  · exact fun s hs => hzero s hs ▸ Nat.zero_le _
  · intro s
    refine ⟨fun hs => absurd hs not_mem_nil, ?_⟩
    rintro ⟨hs, hpos⟩
    rw [hzero s hs] at hpos
    exact absurd hpos (lt_irrefl _)

variable {n : ℕ} {p p' : Partition} {marked : List ℕ} {s : ℕ}

section

variable (h : WF n p marked)

include h

lemma WF.setIndex_element {i : ℕ} (hs : s < p.sets.size)
    (hi : (p.sets.get s).start ≤ i ∧ i < (p.sets.get s).stop) :
    p.partitionedElements.get i < n ∧ p.setIndex (p.partitionedElements.get i) = s := by
  have hlt : i < n := hi.2.trans_le (h.stop_le s hs)
  refine ⟨h.element_lt _ hlt, (h.setIndex_iff _ (h.element_lt _ hlt) s hs).mpr ?_⟩
  rwa [h.pos_element _ hlt]

lemma WF.firstElementInSet_mem (hs : s < p.sets.size) :
    p.firstElementInSet s < n ∧ p.setIndex (p.firstElementInSet s) = s :=
  h.setIndex_element hs ⟨le_rfl, Nat.lt_add_of_pos_right (h.size_pos s hs)⟩

/-- Sets are not empty, so there are no more sets than elements. -/
lemma WF.size_sets_le : p.sets.size ≤ n := by
  have hinj : Set.InjOn p.firstElementInSet (Finset.range p.sets.size) := by
    intro s hs s' hs' heq
    rw [Finset.coe_range] at hs hs'
    rw [← (h.firstElementInSet_mem hs).2, heq, (h.firstElementInSet_mem hs').2]
  have hcard := Finset.card_le_card_of_injOn p.firstElementInSet
    (fun s hs => Finset.mem_range.mpr (h.firstElementInSet_mem (Finset.mem_range.mp hs)).1) hinj
  simpa using hcard

lemma WF.mem_set (he : e < n) :
    (p.sets.get (p.setIndex e)).start ≤ p.pos e ∧ p.pos e < (p.sets.get (p.setIndex e)).stop :=
  (h.setIndex_iff e he _ (h.setIndex_lt e he)).mp rfl

/-- Only elements of marked sets are marked. -/
lemma WF.setIndex_mem_of_isMarked (he : e < n) (hm : p.IsMarked e) : p.setIndex e ∈ marked := by
  rw [h.mem_marked]
  refine ⟨h.setIndex_lt e he, ?_⟩
  have := (h.mem_set he).1
  simp only [IsMarked, SetDescriptor.indexAfterMarkedElements] at hm
  omega

end

lemma WF.not_isMarked (h : WF n p []) (he : e < n) : ¬ p.IsMarked e :=
  fun hm => not_mem_nil (h.setIndex_mem_of_isMarked he hm)

variable {e' : ℕ}

lemma WF.eq_iff_pos_eq (h : WF n p marked) (he : e < n) (he' : e' < n) :
    e = e' ↔ p.pos e = p.pos e' := by
  refine ⟨congrArg p.pos, fun hpos => ?_⟩
  rw [← h.element_pos e he, hpos, h.element_pos e' he']

lemma WF.mem_iterateSet (h : WF n p marked) (hs : s < p.sets.size) (e : ℕ) :
    e ∈ p.iterateSet s ↔ e < n ∧ p.setIndex e = s := by
  simp only [iterateSet, mem_map, mem_range]
  constructor
  · rintro ⟨i, hi, rfl⟩
    exact h.setIndex_element hs ⟨Nat.le_add_right _ _, Nat.add_lt_add_left hi _⟩
  · rintro ⟨he, hse⟩
    have hmem := (h.setIndex_iff e he s hs).mp hse
    rw [SetDescriptor.stop] at hmem
    refine ⟨p.pos e - (p.sets.get s).start, by omega, ?_⟩
    rw [Nat.add_sub_cancel' hmem.1, h.element_pos e he]

lemma WF.nodup_iterateSet (h : WF n p marked) (hs : s < p.sets.size) : (p.iterateSet s).Nodup := by
  have hstop := h.stop_le s hs
  simp only [SetDescriptor.stop] at hstop
  refine List.Nodup.map_on ?_ nodup_range
  intro i hi j hj hij
  rw [mem_range] at hi hj
  have := congrArg p.pos hij
  rw [h.pos_element _ (by omega), h.pos_element _ (by omega)] at this
  omega

/-! ### Marking -/

section

variable {e : ℕ}

/-- The first unmarked element of the set of an unmarked element. -/
lemma WF.firstUnmarked (h : WF n p marked) (he : e < n) (hm : ¬ p.IsMarked e) :
    p.firstUnmarkedPosition e < n ∧
      p.setIndex (p.partitionedElements.get (p.firstUnmarkedPosition e)) = p.setIndex e := by
  have hmem := h.mem_set he
  have hstop := h.stop_le _ (h.setIndex_lt e he)
  rw [isMarked_iff, not_lt] at hm
  exact ⟨by omega,
    (h.setIndex_element (h.setIndex_lt e he) ⟨Nat.le_add_right _ _, hm.trans_lt hmem.2⟩).2⟩

/-- What marking does to the positions. -/
def markSwap (p : Partition) (e : ℕ) : Equiv.Perm ℕ :=
  Equiv.swap (p.pos e) (p.firstUnmarkedPosition e)

/-- Marking exchanges the positions of the element and of the first unmarked element. -/
lemma pos_mark (h : WF n p marked) (he : e < n) (hm : ¬ p.IsMarked e) {x : ℕ} (hx : x < n) :
    (p.markElementInCurrentGeneration e).pos x = p.markSwap e (p.pos x) := by
  obtain ⟨hlt, -⟩ := h.firstUnmarked he hm
  have hraw : (p.markElementInCurrentGeneration e).pos x =
      if x = p.partitionedElements.get (p.firstUnmarkedPosition e) then p.pos e
      else if x = e then p.firstUnmarkedPosition e else p.pos x := by
    simp only [markElementInCurrentGeneration, pos, Vec.get_set]
    rfl
  have hfst : x = p.partitionedElements.get (p.firstUnmarkedPosition e) ↔
      p.pos x = p.firstUnmarkedPosition e := by
    constructor
    · rintro rfl
      exact h.pos_element _ hlt
    · intro hpos
      rw [← hpos, h.element_pos x hx]
  rw [hraw, markSwap, Equiv.swap_apply_def, if_congr hfst rfl rfl,
    if_congr (h.eq_iff_pos_eq hx he) rfl rfl]
  split_ifs with h₁ h₂
  · rw [← h₁, h₂]
  · rfl
  · rfl
  · rfl

lemma element_mark (e i : ℕ) (h : p.partitionedElements.get (p.pos e) = e) :
    (p.markElementInCurrentGeneration e).partitionedElements.get i =
      p.partitionedElements.get (p.markSwap e i) := by
  have hraw : (p.markElementInCurrentGeneration e).partitionedElements.get i =
      if i = p.pos e then p.partitionedElements.get (p.firstUnmarkedPosition e)
      else if i = p.firstUnmarkedPosition e then e else p.partitionedElements.get i := by
    simp only [markElementInCurrentGeneration, Vec.get_set]
    rfl
  rw [hraw, markSwap, Equiv.swap_apply_def]
  split_ifs
  · rfl
  · exact h.symm
  · rfl

@[simp] lemma setIndex_mark (e x : ℕ) :
    (p.markElementInCurrentGeneration e).setIndex x = p.setIndex x := rfl

@[simp] lemma size_sets_mark : (p.markElementInCurrentGeneration e).sets.size = p.sets.size := rfl

lemma sets_mark :
    (p.markElementInCurrentGeneration e).sets.get s =
      if s = p.setIndex e then
        { p.sets.get (p.setIndex e) with
          markedCount := (p.sets.get (p.setIndex e)).markedCount + 1 }
      else p.sets.get s := by
  simp only [markElementInCurrentGeneration, Vec.get_set]
  rfl

lemma setsMarked_mark :
    (p.markElementInCurrentGeneration e).setsMarkedInCurrentGeneration =
      if (p.sets.get (p.setIndex e)).markedCount = 0 then
        p.setsMarkedInCurrentGeneration ++ [p.setIndex e]
      else p.setsMarkedInCurrentGeneration := rfl

lemma markSwap_markSwap (e i : ℕ) : p.markSwap e (p.markSwap e i) = i :=
  DFunLike.congr_fun (Equiv.swap_swap _ _) i

/-- Exchanging two points of an interval, or two points outside of it, keeps the interval. -/
lemma swap_mem_Ico {a b l r : ℕ} (hab : l ≤ a ∧ a < r ↔ l ≤ b ∧ b < r) (i : ℕ) :
    l ≤ Equiv.swap a b i ∧ Equiv.swap a b i < r ↔ l ≤ i ∧ i < r := by
  rw [Equiv.swap_apply_def]
  split_ifs with h₁ h₂
  · rw [h₁, hab]
  · rw [h₂, hab]
  · rfl

/-- Another number of marked elements does not move a set. -/
lemma get_set_markedCount (sets : Vec SetDescriptor) (s k t : ℕ) :
    ((sets.set s { sets.get s with markedCount := k }).get t).start = (sets.get t).start ∧
      ((sets.set s { sets.get s with markedCount := k }).get t).size = (sets.get t).size ∧
      ((sets.set s { sets.get s with markedCount := k }).get t).stop = (sets.get t).stop := by
  rw [Vec.get_set]
  split_ifs with h <;> simp [h, SetDescriptor.stop]

/-- The two exchanged positions belong to the same set. -/
lemma WF.swap_mem_set (h : WF n p marked) (he : e < n) (hm : ¬ p.IsMarked e)
    (hs : s < p.sets.size) (i : ℕ) :
    (p.sets.get s).start ≤ p.markSwap e i ∧ p.markSwap e i < (p.sets.get s).stop ↔
      (p.sets.get s).start ≤ i ∧ i < (p.sets.get s).stop := by
  obtain ⟨hlt, hfst⟩ := h.firstUnmarked he hm
  have hfirst_iff := h.setIndex_iff _ (h.element_lt _ hlt) s hs
  rw [hfst, h.pos_element _ hlt] at hfirst_iff
  refine swap_mem_Ico ?_ i
  rw [← h.setIndex_iff e he s hs, hfirst_iff]

/-- Marking an unmarked element keeps the sets. -/
lemma WF.mark (h : WF n p p.setsMarkedInCurrentGeneration) (he : e < n) (hm : ¬ p.IsMarked e) :
    WF n (p.markElementInCurrentGeneration e)
      (p.markElementInCurrentGeneration e).setsMarkedInCurrentGeneration := by
  obtain ⟨hlt, hfst⟩ := h.firstUnmarked he hm
  have hset := h.setIndex_lt e he
  have hpos := fun x (hx : x < n) => pos_mark h he hm hx
  have helem := fun i => element_mark e i (h.element_pos e he)
  have hswap_lt : ∀ i < n, p.markSwap e i < n := by
    have hpe := h.pos_lt e he
    exact fun i hi => ((swap_mem_Ico (by omega) i).mpr ⟨Nat.zero_le _, hi⟩).2
  have hsets := get_set_markedCount p.sets (p.setIndex e)
    ((p.sets.get (p.setIndex e)).markedCount + 1)
  constructor
  · intro x hx
    rw [hpos x hx]
    exact hswap_lt _ (h.pos_lt x hx)
  · intro i hi
    rw [helem]
    exact h.element_lt _ (hswap_lt i hi)
  · intro x hx
    rw [helem, hpos x hx, markSwap_markSwap, h.element_pos x hx]
  · intro i hi
    rw [helem, hpos _ (h.element_lt _ (hswap_lt i hi)), h.pos_element _ (hswap_lt i hi),
      markSwap_markSwap]
  · exact h.setIndex_lt
  · intro x hx s hs
    rw [hpos x hx, setIndex_mark, h.setIndex_iff x hx s hs, ← h.swap_mem_set he hm hs,
      ← (hsets s).1, ← (hsets s).2.2]
    rfl
  · exact fun s hs => (hsets s).2.2.trans_le (h.stop_le s hs)
  · exact fun s hs => (h.size_pos s hs).trans_eq (hsets s).2.1.symm
  · intro s hs
    refine le_of_le_of_eq ?_ (hsets s).2.1.symm
    rw [sets_mark]
    split_ifs with hse
    · -- the element itself is unmarked, so not all elements of its set are marked
      have hmem := (h.mem_set he).2
      simp only [IsMarked, SetDescriptor.indexAfterMarkedElements] at hm
      rw [SetDescriptor.stop] at hmem
      rw [hse]
      change (p.sets.get (p.setIndex e)).markedCount + 1 ≤ (p.sets.get (p.setIndex e)).size
      omega
    · exact h.markedCount_le s hs
  · intro s
    have hmk := h.mem_marked s
    rw [setsMarked_mark, sets_mark]
    by_cases hse : s = p.setIndex e
    · subst hse
      rw [if_pos rfl]
      split_ifs with h0
      · simp [hset]
      · simp [hmk, Nat.pos_of_ne_zero h0]
    · split_ifs with h0
      · simp [hmk, hse]
      · exact hmk
  · rw [setsMarked_mark]
    split_ifs with h0
    · refine List.Nodup.append h.nodup_marked (nodup_singleton _) ?_
      simp [h.mem_marked, h0]
    · exact h.nodup_marked

lemma WF.isMarked_mark (h : WF n p marked) (he : e < n) (hm : ¬ p.IsMarked e) {x : ℕ} (hx : x < n) :
    (p.markElementInCurrentGeneration e).IsMarked x ↔ p.IsMarked x ∨ x = e := by
  obtain ⟨hlt, hfst⟩ := h.firstUnmarked he hm
  rw [h.eq_iff_pos_eq hx he, IsMarked, pos_mark h he hm hx, setIndex_mark, sets_mark, isMarked_iff,
    markSwap]
  rw [isMarked_iff] at hm
  by_cases hse : p.setIndex x = p.setIndex e
  · have hfst' : p.firstUnmarkedPosition x = p.firstUnmarkedPosition e :=
      congrArg (fun s => (p.sets.get s).indexAfterMarkedElements) hse
    rw [if_pos hse, Equiv.swap_apply_def]
    change _ < p.firstUnmarkedPosition e + 1 ↔ _
    split_ifs <;> omega
  · have hxf : p.pos x ≠ p.firstUnmarkedPosition e := by
      intro hpos
      rw [← hpos, h.element_pos x hx] at hfst
      exact hse hfst
    have hxe : p.pos x ≠ p.pos e := fun hpos => hse (by rw [(h.eq_iff_pos_eq hx he).2 hpos])
    rw [if_neg hse, Equiv.swap_apply_of_ne_of_ne hxe hxf, or_iff_left hxe]
    rfl

/-- Marking different elements that are not marked yet. -/
theorem WF.foldl_mark (es : List ℕ) (h : WF n p p.setsMarkedInCurrentGeneration)
    (hlt : ∀ e ∈ es, e < n) (hnd : es.Nodup) (hm : ∀ e ∈ es, ¬ p.IsMarked e) :
    let p' := es.foldl markElementInCurrentGeneration p
    WF n p' p'.setsMarkedInCurrentGeneration ∧ (∀ x, p'.setIndex x = p.setIndex x) ∧
      p'.sets.size = p.sets.size ∧ ∀ x < n, p'.IsMarked x ↔ p.IsMarked x ∨ x ∈ es := by
  induction es generalizing p with
  | nil => exact ⟨h, fun _ => rfl, rfl, by simp⟩
  | cons e es ih =>
    rw [forall_mem_cons] at hlt hm
    rw [nodup_cons] at hnd
    have hmark := fun x hx => h.isMarked_mark hlt.1 hm.1 (x := x) hx
    obtain ⟨hwf, hset, hsize, hmk⟩ := ih (h.mark hlt.1 hm.1) hlt.2 hnd.2 (by
      intro x hx hmx
      rcases (hmark x (hlt.2 x hx)).mp hmx with hmx | rfl
      · exact hm.2 x hx hmx
      · exact hnd.1 hx)
    refine ⟨hwf, hset, hsize, fun x hx => (hmk x hx).trans ?_⟩
    rw [hmark x hx, mem_cons, or_assoc]

end

/-! ### Splitting a set -/

section

variable {s : ℕ}

/-- What splitting the set `s` does to the sets: the elements that `moved` selects get the new set
`new`. -/
structure Split (n : ℕ) (p p' : Partition) (s new : ℕ) (moved : ℕ → Prop) : Prop where
  new_eq : new = p.sets.size
  size_sets : p'.sets.size = new + 1
  setIndex_of_moved : ∀ e < n, p.setIndex e = s → moved e → p'.setIndex e = new
  setIndex_of_not : ∀ e < n, ¬ (p.setIndex e = s ∧ moved e) → p'.setIndex e = p.setIndex e

/-- The elements of the set `s` are no longer marked, and nothing else is. -/
def Unmarked (n : ℕ) (p p' : Partition) (s : ℕ) : Prop :=
  ∀ e < n, p'.IsMarked e ↔ p.IsMarked e ∧ p.setIndex e ≠ s

lemma refineSet_all (h : WF n p (s :: marked))
    (hall : (p.sets.get s).markedCount = (p.sets.get s).size) :
    ∃ p', p.refineSet s = (p', none) ∧ WF n p' marked ∧ p'.sets.size = p.sets.size ∧
      (∀ e, p'.setIndex e = p.setIndex e) ∧ Unmarked n p p' s ∧
      ∀ e < n, p.setIndex e = s → p.IsMarked e := by
  -- nothing is split off: only the count of marks is reset
  let p₁ : Partition := { p with sets := p.sets.set s { p.sets.get s with markedCount := 0 } }
  have hget : ∀ t, p₁.sets.get t =
      if t = s then { p.sets.get s with markedCount := 0 } else p.sets.get t :=
    fun t => Vec.get_set _ _ _ _
  have hsets := get_set_markedCount p.sets s 0
  refine ⟨p₁, if_pos hall, ?_, rfl, fun _ => rfl, ?_, ?_⟩
  · refine ⟨h.pos_lt, h.element_lt, h.element_pos, h.pos_element, h.setIndex_lt, ?_, ?_, ?_, ?_, ?_,
      (nodup_cons.mp h.nodup_marked).2⟩
    · intro e he t ht
      rw [(hsets t).1, (hsets t).2.2]
      exact h.setIndex_iff e he t ht
    · exact fun t ht => (hsets t).2.2.trans_le (h.stop_le t ht)
    · exact fun t ht => (h.size_pos t ht).trans_eq (hsets t).2.1.symm
    · intro t ht
      rw [hget]
      split_ifs
      · exact Nat.zero_le _
      · exact h.markedCount_le t ht
    · intro t
      have hmem := h.mem_marked t
      rw [mem_cons] at hmem
      rw [hget]
      split_ifs with ht
      · have hnot := (nodup_cons.mp h.nodup_marked).1
        simp [ht, hnot]
      · rwa [or_iff_right ht] at hmem
  · intro e he
    rw [IsMarked, hget]
    split_ifs with hse
    · have hle := (h.mem_set he).1
      rw [show p₁.setIndex e = p.setIndex e from rfl] at hse
      rw [hse] at hle
      simp only [hse, ne_eq, not_true_eq_false, and_false, iff_false, not_lt]
      exact hle
    · exact ⟨fun hm => ⟨hm, hse⟩, fun hm => hm.1⟩
  · intro e he hse
    have hlt := (h.mem_set he).2
    rw [hse, SetDescriptor.stop, ← hall] at hlt
    rw [IsMarked, hse]
    exact hlt

/-- Two descriptors that share the interval of the set `s` among them. -/
structure Halves (p : Partition) (s : ℕ) (new rest : SetDescriptor) : Prop where
  new_pos : 0 < new.size
  rest_pos : 0 < rest.size
  new_unmarked : new.markedCount = 0
  rest_unmarked : rest.markedCount = 0
  cover : ∀ i, ((p.sets.get s).start ≤ i ∧ i < (p.sets.get s).stop) ↔
    (new.start ≤ i ∧ i < new.stop) ∨ (rest.start ≤ i ∧ i < rest.stop)
  apart : ∀ i, ¬ ((new.start ≤ i ∧ i < new.stop) ∧ (rest.start ≤ i ∧ i < rest.stop))

/-- The partition in which the elements of `new` have left the set `s` for a new set. -/
def splitSet (p : Partition) (s : ℕ) (new rest : SetDescriptor) : Partition :=
  { p with
    sets := (p.sets.set s rest).push new
    elementToSetMap := (List.range new.size).foldl
      (fun map i => map.set (p.partitionedElements.get (new.start + i)) p.sets.size)
      p.elementToSetMap }

variable {new rest : SetDescriptor}

lemma sets_splitSet (s t : ℕ) :
    (p.splitSet s new rest).sets.get t =
      if t = p.sets.size then new else if t = s then rest else p.sets.get t := by
  simp [splitSet, Vec.get_push, Vec.get_set]

lemma Halves.stop_le (hh : Halves p s new rest) (h : WF n p marked) (hs : s < p.sets.size) :
    new.stop ≤ n ∧ rest.stop ≤ n := by
  have hstop := h.stop_le s hs
  have hnew := (hh.cover (new.stop - 1)).mpr (.inl (by
    have := hh.new_pos; rw [SetDescriptor.stop]; omega))
  have hrest := (hh.cover (rest.stop - 1)).mpr (.inr (by
    have := hh.rest_pos; rw [SetDescriptor.stop]; omega))
  omega

lemma setIndex_splitSet (h : WF n p marked) (hs : s < p.sets.size) (hh : Halves p s new rest)
    (he : e < n) : (p.splitSet s new rest).setIndex e =
      if new.start ≤ p.pos e ∧ p.pos e < new.stop then p.sets.size else p.setIndex e := by
  have hle := (hh.stop_le h hs).1
  simp only [setIndex, splitSet, Vec.get_foldl_set, mem_range]
  refine if_congr ?_ rfl rfl
  rw [SetDescriptor.stop] at hle ⊢
  constructor
  · rintro ⟨i, hi, rfl⟩
    rw [h.pos_element _ (by omega)]
    omega
  · rintro ⟨h₁, h₂⟩
    refine ⟨p.pos e - new.start, by omega, ?_⟩
    rw [Nat.add_sub_cancel' h₁, h.element_pos e he]

section

variable (hh : Halves p s new rest) (h : WF n p (s :: marked))

include hh h

lemma Halves.wf_splitSet : WF n (p.splitSet s new rest) marked := by
  have hs : s < p.sets.size := ((h.mem_marked s).mp mem_cons_self).1
  have hset := fun e (he : e < n) => setIndex_splitSet h hs hh he
  have hlt : ∀ t, t < (p.splitSet s new rest).sets.size ↔ t < p.sets.size ∨ t = p.sets.size :=
    fun t => Nat.lt_succ_iff_lt_or_eq
  -- only the sets `s` and the new last one change their descriptors
  have hdesc : ∀ t < (p.splitSet s new rest).sets.size,
      let d := (p.splitSet s new rest).sets.get t
      d.stop ≤ n ∧ 0 < d.size ∧ d.markedCount ≤ d.size := by
    intro t ht
    have hle := hh.stop_le h hs
    rw [sets_splitSet]
    split_ifs with h₁ h₂
    · exact ⟨hle.1, hh.new_pos, hh.new_unmarked ▸ Nat.zero_le _⟩
    · exact ⟨hle.2, hh.rest_pos, hh.rest_unmarked ▸ Nat.zero_le _⟩
    · have ht := ((hlt t).1 ht).resolve_right h₁
      exact ⟨h.stop_le t ht, h.size_pos t ht, h.markedCount_le t ht⟩
  refine ⟨h.pos_lt, h.element_lt, h.element_pos, h.pos_element, ?_, ?_, ?_, ?_, ?_, ?_,
    (nodup_cons.mp h.nodup_marked).2⟩
  · intro e he
    rw [hset e he, hlt]
    split_ifs
    · exact .inr rfl
    · exact .inl (h.setIndex_lt e he)
  · intro e he t ht
    change _ ↔ _ ≤ p.pos e ∧ p.pos e < _
    rw [hset e he, sets_splitSet]
    rw [hlt] at ht
    have hcov := hh.cover (p.pos e)
    have hapart := hh.apart (p.pos e)
    rw [← h.setIndex_iff e he s hs] at hcov
    -- an element of `s` is in exactly one of the two halves
    rcases ht with ht | rfl
    · rw [if_neg ht.ne]
      by_cases hts : t = s
      · subst hts
        rw [if_pos rfl]
        split_ifs with hnew
        · exact ⟨fun heq => absurd heq.symm ht.ne, fun hrest => absurd ⟨hnew, hrest⟩ hapart⟩
        · rw [hcov, or_iff_right hnew]
      · rw [if_neg hts, ← h.setIndex_iff e he t ht]
        split_ifs with hnew
        · have hse := hcov.mpr (.inl hnew)
          exact ⟨fun heq => absurd heq.symm ht.ne, fun hte => absurd (hte.symm.trans hse) hts⟩
        · rfl
    · rw [if_pos rfl]
      split_ifs with hnew
      · exact ⟨fun _ => hnew, fun _ => rfl⟩
      · exact ⟨fun heq => absurd heq (h.setIndex_lt e he).ne, fun hin => absurd hin hnew⟩
  · exact fun t ht => (hdesc t ht).1
  · exact fun t ht => (hdesc t ht).2.1
  · exact fun t ht => (hdesc t ht).2.2
  · intro t
    have hmem := h.mem_marked t
    have hnot := (nodup_cons.mp h.nodup_marked).1
    rw [mem_cons] at hmem
    rw [hlt, sets_splitSet]
    split_ifs with h₁ h₂
    · subst h₁
      have hno : p.sets.size ∉ marked := fun hm => absurd (hmem.mp (.inr hm)).1 (lt_irrefl _)
      simp [hno, hh.new_unmarked]
    · subst h₂
      simp [hnot, hh.rest_unmarked]
    · rw [or_iff_right h₂] at hmem
      rw [or_iff_left h₁, hmem]

lemma Halves.unmarked : Unmarked n p (p.splitSet s new rest) s := by
  have hs : s < p.sets.size := ((h.mem_marked s).mp mem_cons_self).1
  intro e he
  have hcov := hh.cover (p.pos e)
  rw [← h.setIndex_iff e he s hs] at hcov
  change p.pos e < _ ↔ _
  rw [setIndex_splitSet h hs hh he, sets_splitSet]
  by_cases hnew : new.start ≤ p.pos e ∧ p.pos e < new.stop
  · have hse := hcov.mpr (.inl hnew)
    simp [hnew, SetDescriptor.indexAfterMarkedElements, hh.new_unmarked, hse]
  · rw [if_neg hnew, if_neg (h.setIndex_lt e he).ne]
    by_cases hse : p.setIndex e = s
    · have hrest := (hcov.mp hse).resolve_left hnew
      simp [hse, SetDescriptor.indexAfterMarkedElements, hh.rest_unmarked, hrest.1]
    · rw [if_neg hse]
      exact ⟨fun hm => ⟨hm, hse⟩, fun hm => hm.1⟩

lemma Halves.split :
    Split n p (p.splitSet s new rest) s p.sets.size
      fun e => new.start ≤ p.pos e ∧ p.pos e < new.stop := by
  have hs : s < p.sets.size := ((h.mem_marked s).mp mem_cons_self).1
  refine ⟨rfl, rfl, ?_, ?_⟩
  · intro e he _ hmoved
    rw [setIndex_splitSet h hs hh he, if_pos hmoved]
  · intro e he hnot
    rw [setIndex_splitSet h hs hh he, if_neg]
    intro hmoved
    refine hnot ⟨?_, hmoved⟩
    exact (h.setIndex_iff e he s hs).mpr ((hh.cover _).mpr (.inl hmoved))

end

/-- A set with marked and unmarked elements is split into them. -/
lemma refineSet_split (h : WF n p (s :: marked))
    (hne : (p.sets.get s).markedCount ≠ (p.sets.get s).size) :
    ∃ p' new moved, p.refineSet s = (p', some new) ∧ WF n p' marked ∧ Unmarked n p p' s ∧
      Split n p p' s new moved ∧
      ∀ e < n, ∀ e' < n, p.setIndex e = s → p.setIndex e' = s →
        ((moved e ↔ moved e') ↔ (p.IsMarked e ↔ p.IsMarked e')) := by
  obtain ⟨hs, hpos⟩ := (h.mem_marked s).mp mem_cons_self
  have hle := h.markedCount_le s hs
  obtain ⟨d, hd⟩ : ∃ d, p.sets.get s = d := ⟨_, rfl⟩
  rw [hd] at hpos hle hne
  have hmem : ∀ e < n, p.setIndex e = s → d.start ≤ p.pos e ∧ p.pos e < d.start + d.size :=
    fun e he hse => hd ▸ (h.setIndex_iff e he s hs).mp hse
  have hmk : ∀ e, p.setIndex e = s → (p.IsMarked e ↔ p.pos e < d.start + d.markedCount) :=
    fun e hse => by rw [IsMarked, hse, hd, SetDescriptor.indexAfterMarkedElements]
  obtain ⟨new, rest, hh, href, hnew⟩ : ∃ new rest, Halves p s new rest ∧
      p.refineSet s = (p.splitSet s new rest, some p.sets.size) ∧
      (d.start = new.start ∧ d.start + d.markedCount = new.stop ∨
        d.start + d.markedCount = new.start ∧ d.stop = new.stop) := by
    by_cases hhalf : d.markedCount * 2 ≤ d.size
    · -- the marked elements get the new set
      refine ⟨⟨d.start, d.markedCount, 0⟩, ⟨d.start + d.markedCount, d.size - d.markedCount, 0⟩,
        ?_, ?_, .inl ⟨rfl, rfl⟩⟩
      · refine ⟨hpos, Nat.sub_pos_of_lt (by omega), rfl, rfl, fun i => ?_, fun i => ?_⟩ <;>
          simp only [hd, SetDescriptor.stop] <;> omega
      · simp only [refineSet, hd, if_neg hne, hhalf]
        rfl
    · refine ⟨⟨d.start + d.markedCount, d.size - d.markedCount, 0⟩,
        ⟨d.start, d.size - (d.size - d.markedCount), 0⟩, ?_, ?_, .inr ⟨rfl, ?_⟩⟩
      · refine ⟨Nat.sub_pos_of_lt (by omega), ?_, rfl, rfl, fun i => ?_, fun i => ?_⟩ <;>
          simp only [hd, SetDescriptor.stop] <;> omega
      · simp only [refineSet, hd, if_neg hne, hhalf]
        rfl
      · simp only [SetDescriptor.stop]
        omega
  refine ⟨_, _, _, href, hh.wf_splitSet h, hh.unmarked h, hh.split h, ?_⟩
  intro e he e' he' hse hse'
  have h₁ := hmem e he hse
  have h₂ := hmem e' he' hse'
  rw [hmk e hse, hmk e' hse']
  simp only [SetDescriptor.stop] at hnew ⊢
  omega

section

variable {moved : ℕ → Prop} {new : ℕ} (h : Split n p p' s new moved) (hp : WF n p marked)
  (he : e < n)

include h hp he

open Classical in
lemma Split.setIndex_eq :
    p'.setIndex e = (if p.setIndex e = s ∧ moved e then new else p.setIndex e) ∧
      p.setIndex e ≠ new := by
  refine ⟨?_, (h.new_eq ▸ hp.setIndex_lt e he).ne⟩
  split_ifs with hm
  · exact h.setIndex_of_moved e he hm.1 hm.2
  · exact h.setIndex_of_not e he hm

lemma Split.same_iff (he' : e' < n) : p'.setIndex e = p'.setIndex e' ↔
      p.setIndex e = p.setIndex e' ∧ (p.setIndex e = s → (moved e ↔ moved e')) := by
  obtain ⟨heq, hne⟩ := h.setIndex_eq hp he
  obtain ⟨heq', hne'⟩ := h.setIndex_eq hp he'
  rw [heq, heq']
  by_cases hse : p.setIndex e = s <;> by_cases hse' : p.setIndex e' = s
  · by_cases hm : moved e <;> by_cases hm' : moved e' <;> simp_all [eq_comm]
  · by_cases hm : moved e <;> simp_all [eq_comm]
  · by_cases hm' : moved e' <;> simp_all
  · simp [hse, hse']

/-- A split separates the elements of the new set from the others, and nothing else. -/
lemma Split.same_iff_new (he' : e' < n) : p'.setIndex e = p'.setIndex e' ↔
      p.setIndex e = p.setIndex e' ∧ (p'.setIndex e = new ↔ p'.setIndex e' = new) := by
  have hnew : ∀ x < n, p'.setIndex x = new ↔ p.setIndex x = s ∧ moved x := by
    intro x hx
    obtain ⟨heq, hne⟩ := h.setIndex_eq hp hx
    simp [heq, hne]
  rw [h.same_iff hp he he', hnew e he, hnew e' he']
  refine and_congr_right fun heq => ?_
  rw [← heq]
  by_cases hse : p.setIndex e = s <;> simp

end

/-- The partition `p'` splits the sets of `p` by their marked elements. A set keeps its index, or
gets an index that was not used before. -/
structure Refined (n : ℕ) (p p' : Partition) : Prop where
  size_le : p.sets.size ≤ p'.sets.size
  relabel : ∀ e < n, p'.setIndex e = p.setIndex e ∨ p.sets.size ≤ p'.setIndex e
  same_iff : ∀ e < n, ∀ e' < n, p'.setIndex e = p'.setIndex e' ↔
    p.setIndex e = p.setIndex e' ∧ (p.IsMarked e ↔ p.IsMarked e')

section

variable {σ : Type*} (function : Partition → ℕ → σ → σ) (J : Partition → σ → Prop)
  (hsame : ∀ p p' x, (∀ e, p'.setIndex e = p.setIndex e) → p'.sets.size = p.sets.size →
    J p x → J p' x)
  (hspl : ∀ p p' new marked x, WF n p' marked → new < p'.sets.size →
    p.sets.size ≤ p'.sets.size →
    (∀ e < n, ∀ e' < n, p'.setIndex e = p'.setIndex e' ↔
      p.setIndex e = p.setIndex e' ∧ (p'.setIndex e = new ↔ p'.setIndex e' = new)) →
    J p x → J p' (function p' new x))

include hsame hspl

lemma foldl_refineStep (x : σ) (h : WF n p marked) (hJ : J p x) :
    let result := marked.foldl (refineStep function) (p, x)
    WF n result.1 [] ∧ Refined n p result.1 ∧ J result.1 result.2 := by
  induction marked generalizing p x with
  | nil =>
    refine ⟨h, ⟨le_rfl, fun _ _ => .inl rfl, fun e he e' he' => ?_⟩, hJ⟩
    simp [h.not_isMarked he, h.not_isMarked he']
  | cons s marked ih =>
    dsimp only [foldl_cons]
    -- a set that is marked as a whole is not split; the handler runs for the others only
    by_cases hall : (p.sets.get s).markedCount = (p.sets.get s).size
    · obtain ⟨p', hrefine, hwf, hsize, hset, hun, hmk⟩ := refineSet_all h hall
      have hstep : refineStep function (p, x) s = (p', x) := by simp [refineStep, hrefine]
      rw [hstep]
      obtain ⟨hwf', href, hJ'⟩ := ih x hwf (hsame p p' x hset hsize hJ)
      refine ⟨hwf', ⟨hsize ▸ href.size_le, ?_, ?_⟩, hJ'⟩
      · intro e he
        rw [← hset, ← hsize]
        exact href.relabel e he
      · intro e he e' he'
        rw [href.same_iff e he e' he', hset, hset, hun e he, hun e' he']
        refine and_congr_right fun heq => ?_
        by_cases hse : p.setIndex e = s
        · simp [hmk e he hse, hmk e' he' (heq ▸ hse), ← heq]
        · simp [hse, ← heq]
    · obtain ⟨p', new, moved, hrefine, hwf, hun, hsp, hmoved⟩ := refineSet_split h hall
      have hstep : refineStep function (p, x) s = (p', function p' new x) := by
        simp [refineStep, hrefine]
      rw [hstep]
      have hnew : new < p'.sets.size := by rw [hsp.size_sets]; exact Nat.lt_succ_self _
      have hle : p.sets.size ≤ p'.sets.size := hsp.new_eq ▸ hnew.le
      obtain ⟨hwf', href, hJ'⟩ := ih (function p' new x) hwf
        (hspl p p' new marked x hwf hnew hle (fun e he e' he' => hsp.same_iff_new h he he') hJ)
      refine ⟨hwf', ⟨hle.trans href.size_le, ?_, ?_⟩, hJ'⟩
      · intro e he
        rcases href.relabel e he with heq | hge
        · rw [heq]
          rw [(hsp.setIndex_eq h he).1]
          split_ifs
          · exact .inr hsp.new_eq.ge
          · exact .inl rfl
        · exact .inr (hle.trans hge)
      · intro e he e' he'
        rw [href.same_iff e he e' he', hsp.same_iff h he he', hun e he, hun e' he', and_assoc]
        refine and_congr_right fun heq => ?_
        by_cases hse : p.setIndex e = s
        · have hse' := heq ▸ hse
          simp [hse, hse', hmoved e he e' he' hse hse']
        · simp [hse, ← heq]

/-- Refining splits the sets by their marked elements. A property of the partition and of the state
of `function` that every single split keeps is kept. -/
theorem refineGeneration_spec (x : σ) (h : WF n p p.setsMarkedInCurrentGeneration) (hJ : J p x) :
    let result := refineGeneration function p x
    WF n result.1 [] ∧ result.1.setsMarkedInCurrentGeneration = [] ∧ Refined n p result.1 ∧
      J result.1 result.2 := by
  obtain ⟨hwf, href, hJ'⟩ := foldl_refineStep function J hsame hspl x h hJ
  refine ⟨{ hwf with }, rfl, { href with }, hsame _ _ _ ?_ ?_ hJ'⟩
  · exact fun _ => rfl
  · rfl

/-- Marking some elements and refining splits the sets by these elements. -/
theorem refineGeneration_mark (x : σ) {es : List ℕ} (h : WF n p [])
    (hmk : p.setsMarkedInCurrentGeneration = []) (hlt : ∀ e ∈ es, e < n) (hnd : es.Nodup)
    (hJ : J p x) :
    ∃ p' x', refineGeneration function (es.foldl markElementInCurrentGeneration p) x = (p', x') ∧
      (WF n p' [] ∧ p'.setsMarkedInCurrentGeneration = []) ∧ p.sets.size ≤ p'.sets.size ∧
      (∀ e < n, p'.setIndex e = p.setIndex e ∨ p.sets.size ≤ p'.setIndex e) ∧
      (∀ e < n, ∀ e' < n, p'.setIndex e = p'.setIndex e' ↔
        p.setIndex e = p.setIndex e' ∧ (e ∈ es ↔ e' ∈ es)) ∧ J p' x' := by
  obtain ⟨hwf, hset, hsize, hmark⟩ := WF.foldl_mark es (hmk ▸ h) hlt hnd
    fun e he => h.not_isMarked (hlt e he)
  obtain ⟨hwf', hcln, href, hJ'⟩ := refineGeneration_spec function J hsame hspl x hwf
    (hsame p _ x hset hsize hJ)
  refine ⟨_, _, Prod.mk.eta.symm, ⟨hwf', hcln⟩, hsize ▸ href.size_le, fun e he => ?_,
    fun e he e' he' => ?_, hJ'⟩
  · rw [← hset, ← hsize]
    exact href.relabel e he
  · rw [href.same_iff e he e' he', hset, hset, hmark e he, hmark e' he',
      or_iff_right (h.not_isMarked he), or_iff_right (h.not_isMarked he')]

end

end

end Partition

end WebKit.ContentExtensions
