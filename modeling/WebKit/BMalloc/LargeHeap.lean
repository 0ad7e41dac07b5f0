import WebKit.Core.Run
import WebKit.Core.Span

/-!
# The heap for large objects

`Heap` takes large objects out of free ranges, and gets memory from the VM layer when no range
fits. The free ranges are kept in no order, and are merged with their neighbors. Of the physical
memory behind a range, only the size of a first fragment is known.
-/

namespace WebKit.BMalloc

open WebKit.Core Nat
open List hiding merge rotate

def smallMax : ℕ := 32 * 1024

def pageSizeWasteFactor : ℕ := 8

def largeAlignment : ℕ := smallMax / pageSizeWasteFactor

def chunkSize : ℕ := 1024 * 1024

/-- The source computes with masks, for a power of two. -/
def roundUpToMultipleOf (divisor x : ℕ) : ℕ := (x + (divisor - 1)) / divisor * divisor

/-! ### Ranges -/

structure LargeRange extends Span where
  physicalSize : ℕ
deriving DecidableEq

namespace LargeRange

def canMerge (a b : LargeRange) : Prop := a.stop = b.start ∨ b.stop = a.start

instance (a b : LargeRange) : Decidable (canMerge a b) := inferInstanceAs (Decidable (_ ∨ _))

def merge (a b : LargeRange) : LargeRange :=
  let left := if b.start < a.start then b else a
  if left.size = left.physicalSize then
    ⟨⟨left.start, a.size + b.size⟩, a.physicalSize + b.physicalSize⟩
  else ⟨⟨left.start, a.size + b.size⟩, left.physicalSize⟩

def split (r : LargeRange) (size : ℕ) : LargeRange × LargeRange :=
  if size ≤ r.physicalSize then
    (⟨⟨r.start, size⟩, size⟩, ⟨⟨r.start + size, r.size - size⟩, r.physicalSize - size⟩)
  else (⟨⟨r.start, size⟩, r.physicalSize⟩, ⟨⟨r.start + size, r.size - size⟩, 0⟩)

/-- The alignment prefix, and the aligned rest. -/
def alignFront (r : LargeRange) (alignment : ℕ) : LargeRange × LargeRange :=
  if alignment ∣ r.start then (⟨⟨0, 0⟩, 0⟩, r)
  else r.split (roundUpToMultipleOf alignment r.start - r.start)

/-- The prefix, the range for the object, and the tail if it is not too small. -/
def carve (r : LargeRange) (alignment size : ℕ) : LargeRange × LargeRange × LargeRange :=
  let (prev, range) := r.alignFront alignment
  let (range, next) :=
    if size / pageSizeWasteFactor < range.size - size then range.split size
    else (range, ⟨⟨0, 0⟩, 0⟩)
  (prev, range, next)

end LargeRange

namespace LargeMap

open LargeRange

/-- What `pop` leaves of the elements behind the one that it takes: the last one comes first. -/
def rotate (l : List LargeRange) : List LargeRange :=
  match l.getLast? with
  | none => []
  | some last => last :: l.dropLast

/-- The ranges `done` have been looked at. There are as many rounds as other ranges. -/
def addLoop : ℕ → LargeRange → List LargeRange → List LargeRange → List LargeRange
  | n + 1, merged, done, r :: rest =>
    if canMerge merged r then addLoop n (merge merged r) done (rotate rest)
    else addLoop n merged (done ++ [r]) rest
  | _, merged, done, rest => done ++ rest ++ [merged]

def add (free : List LargeRange) (range : LargeRange) : List LargeRange :=
  addLoop free.length range [] free

/-- A range that has room for an object. A sum that overflows is above the end of any range. -/
def Fits (alignment size : ℕ) (r : LargeRange) : Prop :=
  size ≤ r.size ∧ (alignment ∣ r.start ∨ roundUpToMultipleOf alignment r.start + size ≤ r.stop)

instance (alignment size : ℕ) (r : LargeRange) : Decidable (Fits alignment size r) :=
  inferInstanceAs (Decidable (_ ∧ _))

/-- The lowest range that fits, with its index. -/
def candidate (alignment size : ℕ) :
    List LargeRange → ℕ → Option (ℕ × LargeRange) → Option (ℕ × LargeRange)
  | [], _, best => best
  | r :: rest, i, best =>
    candidate alignment size rest (i + 1) <|
      if Fits alignment size r ∧ ∀ b ∈ best, ¬b.2.start < r.start then some (i, r) else best

def remove (alignment size : ℕ) (free : List LargeRange) : Option (LargeRange × List LargeRange) :=
  (candidate alignment size free 0 none).map fun (i, r) =>
    (r, free.take i ++ rotate (free.drop (i + 1)))

end LargeMap

/-! ### The heap -/

inductive AllocationKind where
  | virtual
  | physical
deriving DecidableEq

/-- What the caller of an allocation asks for. -/
structure Request where
  alignment : ℕ
  size : ℕ
  kind : AllocationKind

/-- A live object, with the last request for it. -/
structure Object extends Span where
  request : Request

/-- The objects in `largeAllocated` are found by their address. As a history, the ranges that the VM
layer has returned are kept, and the objects that the callers have. -/
structure Heap where
  vmPageSizePhysical : ℕ
  vmPageSizePhysical_pos : 0 < vmPageSizePhysical
  largeFree : List LargeRange := []
  largeAllocated : List Span := []
  physicalPages : ℕ → Bool := fun _ => false
  reserved : List Span := []
  live : List Object := []

inductive Operation where
  | allocate (request : Request) (memory : Option ℕ)
  | shrink (object newSize : ℕ)
  | deallocate (object : ℕ) (kind : AllocationKind)
  | scavenge

namespace Heap

open LargeRange LargeMap

variable (h : Heap)

/-- Expands requests that are not page-aligned. -/
def vmAllocatePhysicalPagesSloppy (start size : ℕ) : Heap :=
  { h with physicalPages := fun page => h.physicalPages page ||
      (start / h.vmPageSizePhysical ≤ page &&
        page < (start + size + h.vmPageSizePhysical - 1) / h.vmPageSizePhysical) }

/-- Shrinks requests that are not page-aligned. -/
def vmDeallocatePhysicalPagesSloppy (start size : ℕ) : Heap :=
  { h with physicalPages := fun page => h.physicalPages page &&
      !((start + h.vmPageSizePhysical - 1) / h.vmPageSizePhysical ≤ page &&
        page < (start + size) / h.vmPageSizePhysical) }

def addFree (range : LargeRange) : Heap :=
  if range.size = 0 then h else { h with largeFree := add h.largeFree range }

/-- The pages behind a range that becomes an object. -/
def adjustPages (range : LargeRange) : AllocationKind → Heap
  | .virtual =>
    if range.physicalSize = 0 then h
    else h.vmDeallocatePhysicalPagesSloppy range.start range.size
  | .physical =>
    if range.physicalSize < range.size then
      h.vmAllocatePhysicalPagesSloppy (range.start + range.physicalSize)
        (range.size - range.physicalSize)
    else h

def splitAndAllocate (range : LargeRange) (alignment size : ℕ) (kind : AllocationKind) : Heap × ℕ :=
  let (prev, range, next) := range.carve alignment size
  let h := ((h.adjustPages range kind).addFree prev).addFree next
  ({ h with
    largeAllocated := range.toSpan :: h.largeAllocated.filter (·.start ≠ range.start) },
    range.start)

/-- Takes the range at `memory` from the VM layer. -/
def tryAllocateLargeChunk (size memory : ℕ) (kind : AllocationKind) : Heap :=
  let h := if kind = .virtual then h.vmDeallocatePhysicalPagesSloppy memory size else h
  { h with reserved := ⟨memory, size⟩ :: h.reserved }

def roundedSize (size : ℕ) : ℕ :=
  if size = 0 then largeAlignment else roundUpToMultipleOf largeAlignment size

/-- The VM layer would return `memory`. The result has no object for a null pointer, which leaves
the heap as it is. An empty range would be split, which is `none`. -/
def tryAllocateLarge (request : Request) (memory : Option ℕ) : Option (Heap × Option ℕ) :=
  let size := roundedSize request.size
  let alignment := roundUpToMultipleOf largeAlignment request.alignment
  if 2 ^ 64 ≤ size ∨ 2 ^ 64 ≤ alignment then some (h, none)
  else
    match remove alignment size h.largeFree with
    | some (range, free) =>
      some (({ h with largeFree := free }.splitAndAllocate range alignment size
        request.kind).map id some)
    | none =>
      let chunk := roundUpToMultipleOf chunkSize size
      if 2 ^ 64 ≤ chunk ∨ 2 ^ 64 ≤ roundUpToMultipleOf chunkSize alignment then some (h, none)
      else
        match memory with
        | none => some (h, none)
        | some memory =>
          let h := (h.tryAllocateLargeChunk chunk memory request.kind).addFree ⟨⟨memory, chunk⟩, 0⟩
          (remove alignment size h.largeFree).map fun (range, free) =>
            ({ h with largeFree := free }.splitAndAllocate range alignment size
              request.kind).map id some

/-- The size of an object, or zero. -/
def largeSize (object : ℕ) : ℕ := (h.largeAllocated.find? (·.start = object)).elim 0 (·.size)

def removeAllocated (object : ℕ) : Heap :=
  { h with largeAllocated := h.largeAllocated.eraseP (·.start = object) }

def shrinkLarge (object newSize : ℕ) : Option Heap :=
  (h.largeAllocated.find? (·.start = object)).map fun o =>
    ((h.removeAllocated object).splitAndAllocate ⟨o, o.size⟩ 8 newSize .physical).1

def deallocateLarge (object : ℕ) (kind : AllocationKind) : Option Heap :=
  (h.largeAllocated.find? (·.start = object)).map fun o =>
    { h.removeAllocated object with
      largeFree := add h.largeFree ⟨o, if kind = .physical then o.size else 0⟩ }

def scavenge : Heap :=
  { h.largeFree.foldl (fun h r => h.vmDeallocatePhysicalPagesSloppy r.start r.size) h with
    largeFree := h.largeFree.map fun r => { r with physicalSize := 0 } }

/-- The caller has an object at the address, of the size that the heap tells. -/
def acquire (object : ℕ) (request : Request) : Heap :=
  { h with live := ⟨⟨object, h.largeSize object⟩, request⟩ :: h.live }

/-- The caller no longer has the object. -/
def release (object : ℕ) : Heap := { h with live := h.live.eraseP (·.start = object) }

/-- An operation, after which the caller knows its objects from the pointers it has. -/
def step (h : Heap) : Operation → Option Heap
  | .allocate request memory => (h.tryAllocateLarge request memory).map fun (h, object) =>
      object.elim h (h.acquire · request)
  | .shrink object newSize => do
    let h' ← h.shrinkLarge object newSize
    let o ← h.live.find? (·.start = object)
    return (h'.release object).acquire object ⟨o.request.alignment, newSize, .physical⟩
  | .deallocate object kind => (h.deallocateLarge object kind).map (·.release object)
  | .scavenge => some h.scavenge

/-- The VM layer returns memory that is fresh and aligned, and the callers have the objects that
they shrink or give back. An object is shrunk to a smaller size that is large-aligned. -/
def Valid (h : Heap) : Operation → Prop
  | .allocate request memory => (∃ k, request.alignment = 2 ^ k) ∧ ∀ m ∈ memory,
      roundUpToMultipleOf chunkSize (roundUpToMultipleOf largeAlignment request.alignment) ∣ m ∧
        ∀ r ∈ h.reserved,
          Span.Disjoint ⟨m, roundUpToMultipleOf chunkSize (roundedSize request.size)⟩ r
  | .shrink object newSize => ∃ o ∈ h.live.find? (·.start = object),
      largeAlignment ∣ newSize ∧ 0 < newSize ∧ newSize < o.size
  | .deallocate object _ => ∃ o, o ∈ h.live.find? (·.start = object)
  | .scavenge => True

/-- The memory of a virtual object is not shrunk or given back as physical memory. -/
def KeepsKind (h : Heap) : Operation → Prop
  | .shrink object _ => ∀ o ∈ h.live.find? (·.start = object), o.request.kind = .physical
  | .deallocate object kind =>
    kind = .physical → ∀ o ∈ h.live.find? (·.start = object), o.request.kind = .physical
  | _ => True

end Heap

/-! ### Ranges that are merged and split -/

/-- What an object is good for. -/
structure Object.Serves (P : ℕ → Prop) (o : Object) : Prop where
  size_pos : 0 < o.size
  largeAlignment_dvd : largeAlignment ∣ o.start
  alignment_dvd : o.request.alignment ∣ o.start
  size_le : o.request.size ≤ o.size
  physical : o.request.kind = .physical → ∀ x, o.Contains x → P x

/-- The first `physicalSize` bytes are physical. -/
structure LargeRange.Backed (P : ℕ → Prop) (r : LargeRange) : Prop where
  physicalSize_le : r.physicalSize ≤ r.size
  physical : ∀ x, r.start ≤ x → x < r.start + r.physicalSize → P x

section

open LargeRange LargeMap

variable {P : ℕ → Prop} {a b r merged : LargeRange} {l l' done rest : List LargeRange}
  {alignment size k x : ℕ}

def spans (l : List LargeRange) : List Span := l.map (·.toSpan)

lemma merge_cases (h : canMerge a b) (ha : 0 < a.size) (hb : 0 < b.size) :
    ∃ left right, (left = a ∧ right = b ∨ left = b ∧ right = a) ∧ left.stop = right.start ∧
      merge a b = ⟨⟨left.start, left.size + right.size⟩, if left.size = left.physicalSize then
        left.physicalSize + right.physicalSize else left.physicalSize⟩ := by
  simp only [canMerge, Span.stop] at h
  rcases h with h | h
  · have hleft : ¬b.start < a.start := by omega
    refine ⟨a, b, .inl ⟨rfl, rfl⟩, h, ?_⟩
    simp only [merge]
    split_ifs <;> rfl
  · have hleft : b.start < a.start := by omega
    refine ⟨b, a, .inr ⟨rfl, rfl⟩, h, ?_⟩
    simp only [merge, Nat.add_comm b.size, Nat.add_comm b.physicalSize]
    split_ifs <;> rfl

lemma LargeRange.Backed.merge (h : canMerge a b) (ha : 0 < a.size) (hb : 0 < b.size)
    (hPa : a.Backed P) (hPb : b.Backed P) : (merge a b).Backed P := by
  obtain ⟨left, right, hlr, hstop, heq⟩ := merge_cases h ha hb
  obtain ⟨⟨hl, hl'⟩, hr, hr'⟩ : left.Backed P ∧ right.Backed P := by
    rcases hlr with ⟨rfl, rfl⟩ | ⟨rfl, rfl⟩
    · exact ⟨hPa, hPb⟩
    · exact ⟨hPb, hPa⟩
  rw [Span.stop] at hstop
  rw [heq]
  split_ifs with hfull
  · refine ⟨by dsimp only; omega, fun x hx hx' => ?_⟩
    dsimp only at hx hx'
    by_cases hlt : x < left.start + left.physicalSize
    · exact hl' x hx hlt
    · exact hr' x (by omega) (by omega)
  · exact ⟨by dsimp only; omega, hl'⟩

lemma LargeRange.Backed.split (h : r.Backed P) (hk : k ≤ r.size) :
    (r.split k).1.Backed P ∧ (r.split k).2.Backed P := by
  obtain ⟨hle, hP⟩ := h
  unfold LargeRange.split
  split_ifs with hphys
  · refine ⟨⟨le_rfl, fun x hx hx' => hP x hx ?_⟩, ?_, fun x hx hx' => hP x ?_ ?_⟩
    all_goals dsimp only at *; omega
  · exact ⟨⟨by dsimp only; omega, hP⟩, zero_le _, fun x hx hx' => absurd hx' hx.not_gt⟩

lemma split_toSpan : (r.split k).1.toSpan = ⟨r.start, k⟩ ∧
    (r.split k).2.toSpan = ⟨r.start + k, r.size - k⟩ := by
  unfold LargeRange.split
  split_ifs <;> exact ⟨rfl, rfl⟩

lemma le_roundUp (hk : 0 < k) : x ≤ roundUpToMultipleOf k x := by
  have hdiv := div_add_mod' (x + (k - 1)) k
  have hmod := mod_lt (x + (k - 1)) hk
  rw [roundUpToMultipleOf]
  omega

lemma roundUp_le {m : ℕ} (hk : 0 < k) (hm : k ∣ m) (hx : x ≤ m) : roundUpToMultipleOf k x ≤ m := by
  obtain ⟨n, rfl⟩ := hm
  rw [Nat.mul_comm k n]
  refine mul_le_mul_right k (le_of_lt_succ ((div_lt_iff_lt_mul hk).2 ?_))
  rw [succ_mul, Nat.mul_comm n k]
  omega

lemma backed_zero (s : Span) : LargeRange.Backed P ⟨s, 0⟩ :=
  ⟨zero_le _, fun _ hx hx' => absurd hx' hx.not_gt⟩

lemma cover_triple (s t u : Span) :
    cover [s, t, u] x = cover [s] x + cover [t] x + cover [u] x := by
  rw [cover_cons, cover_cons (l := [u]), Nat.add_assoc]

section

variable (hfits : Fits alignment size r) (halig : 0 < alignment) (h : r.Backed P)

include hfits halig h

lemma alignFront_spec :
    let (prev, range) := r.alignFront alignment
    (∀ x, cover [r.toSpan] x = cover [prev.toSpan] x + cover [range.toSpan] x) ∧
      prev.Backed P ∧ range.Backed P ∧ alignment ∣ range.start ∧
      (alignment ∣ r.start → range.start = r.start) ∧ size ≤ range.size := by
  have hup := @le_roundUp alignment r.start halig
  obtain ⟨hsize, hfits⟩ := hfits
  unfold alignFront
  by_cases hdvd : alignment ∣ r.start
  · rw [if_pos hdvd]
    refine ⟨fun x => ?_, backed_zero _, h, hdvd, fun _ => rfl, hsize⟩
    simp [cover_of_size_eq_zero (s := ⟨0, 0⟩) rfl]
  · have hroom := hfits.resolve_left hdvd
    rw [Span.stop] at hroom
    obtain ⟨hspan, hspan'⟩ := @split_toSpan r (roundUpToMultipleOf alignment r.start - r.start)
    obtain ⟨hP, hP'⟩ := h.split (k := roundUpToMultipleOf alignment r.start - r.start) (by omega)
    rw [if_neg hdvd]
    generalize r.split (roundUpToMultipleOf alignment r.start - r.start) = parts at *
    obtain ⟨prev, range⟩ := parts
    refine ⟨fun x => ?_, hP, hP', ?_, fun hdvd' => absurd hdvd' hdvd, ?_⟩
    · rw [hspan, hspan']
      exact cover_cut (by omega)
    all_goals dsimp only at hspan'; rw [hspan']
    · rw [Nat.add_sub_cancel' hup]
      exact Nat.dvd_mul_left _ _
    · dsimp only
      omega

/-- The three parts of a range that fits. -/
lemma carve_spec : let (prev, range, next) := r.carve alignment size
    (∀ x, cover [r.toSpan] x = cover (spans [range, prev, next]) x) ∧
      (∀ r' ∈ [range, prev, next], r'.Backed P) ∧
      alignment ∣ range.start ∧ (alignment ∣ r.start → range.start = r.start) ∧
      size ≤ range.size := by
  have hfront := alignFront_spec hfits halig h
  unfold carve
  generalize r.alignFront alignment = parts at hfront
  obtain ⟨prev, range⟩ := parts
  obtain ⟨hcov, hprev, hrng, hdvd, hle, hroom⟩ := hfront
  dsimp only
  split_ifs
  · obtain ⟨hspan, hspan'⟩ := @split_toSpan range size
    obtain ⟨hP, hP'⟩ := hrng.split hroom
    refine ⟨fun x => ?_, by simp [hP, hprev, hP'], ?_⟩
    · have hcut : cover [range.toSpan] x = _ := cover_cut hroom
      simp only [spans, List.map, hspan, hspan']
      rw [hcov, cover_triple]
      omega
    · simp only [hspan]
      exact ⟨hdvd, hle, le_rfl⟩
  · refine ⟨fun x => ?_, by simp [hrng, hprev, backed_zero], hdvd, hle, hroom⟩
    simp only [spans, List.map]
    rw [hcov, cover_triple, cover_of_size_eq_zero (s := ⟨0, 0⟩) rfl, Nat.add_zero, Nat.add_comm]

end

lemma rotate_perm : (rotate l).Perm l := by
  unfold rotate
  cases hlast : l.getLast? with
  | none => rw [getLast?_eq_none_iff.1 hlast]
  | some last =>
    obtain ⟨l', rfl⟩ := getLast?_eq_some_iff.1 hlast
    rw [dropLast_concat]
    exact (perm_append_singleton last l').symm

/-- What is merged while a range is added. -/
structure Merging (P : ℕ → Prop) (merged : LargeRange) (done rest : List LargeRange) : Prop where
  coalesced : Coalesced (spans (done ++ rest))
  cover_le : ∀ x, cover (merged.toSpan :: spans (done ++ rest)) x ≤ 1
  size_pos : 0 < merged.size
  backed : ∀ r ∈ merged :: (done ++ rest), r.Backed P
  apart : ∀ r ∈ done, ¬canMerge merged r

/-- The free ranges after a range is added. -/
structure Added (P : ℕ → Prop) (merged : LargeRange) (free l : List LargeRange) : Prop where
  coalesced : Coalesced (spans l)
  cover_eq : ∀ x, cover (spans l) x = cover (merged.toSpan :: spans free) x
  backed : ∀ r ∈ l, r.Backed P
  contains : ∃ r ∈ l, r.start ≤ merged.start ∧ merged.stop ≤ r.stop

lemma Merging.merge (h : Merging P merged done (r :: rest)) (hr : canMerge merged r) :
    Merging P (merge merged r) done (rotate rest) ∧
      (∀ x, cover ((merge merged r).toSpan :: spans (done ++ rotate rest)) x =
        cover (merged.toSpan :: spans (done ++ r :: rest)) x) ∧
      (merge merged r).start ≤ merged.start ∧ merged.stop ≤ (merge merged r).stop := by
  have hperm : (done ++ r :: rest).Perm (r :: (done ++ rotate rest)) :=
    perm_middle.trans ((rotate_perm.symm.append_left done).cons r)
  have hspans : (spans (done ++ r :: rest)).Perm (r.toSpan :: spans (done ++ rotate rest)) :=
    hperm.map _
  have hcoal := h.coalesced.perm hspans
  have hsize : 0 < r.size := hcoal.size_pos _ mem_cons_self
  have hmem : ∀ r' ∈ done, r'.toSpan ∈ spans (done ++ r :: rest) := fun r' hr' =>
    mem_map_of_mem (mem_append_left _ hr')
  have hr' : r.toSpan ∈ spans (done ++ r :: rest) := mem_map_of_mem (by simp)
  have hback := h.backed
  obtain ⟨left, right, hlr, hstop, heq⟩ := merge_cases hr h.size_pos hsize
  have hcov : ∀ x, cover ((LargeRange.merge merged r).toSpan :: spans (done ++ rotate rest)) x =
      cover (merged.toSpan :: spans (done ++ r :: rest)) x := by
    intro x
    have hadj := cover_adjacent (x := x) hstop
    rw [cover_cons, cover_cons (s := merged.toSpan), cover_perm hspans, cover_cons (s := r.toSpan),
      heq, hadj]
    rcases hlr with ⟨rfl, rfl⟩ | ⟨rfl, rfl⟩ <;> omega
  refine ⟨⟨hcoal.tail, fun x => (hcov x).trans_le (h.cover_le x), ?_, ?_, ?_⟩, hcov, ?_⟩
  · rw [heq]
    rcases hlr with ⟨rfl, rfl⟩ | ⟨rfl, rfl⟩ <;> simp only <;> omega
  · intro r' hr'
    rcases mem_cons.1 hr' with rfl | hr'
    · exact .merge hr h.size_pos hsize (hback merged (by simp)) (hback r (by simp))
    · exact hback r' (mem_cons_of_mem _ (hperm.mem_iff.2 (mem_cons_of_mem _ hr')))
  · intro r' hr''
    have hapart := h.apart r' hr''
    -- `r` touched no range of `done`, so the merged range does not either
    have h₁ := h.coalesced.stop_ne_start _ hr' _ (hmem r' hr'')
    have h₂ := h.coalesced.stop_ne_start _ (hmem r' hr'') _ hr'
    rw [heq]
    simp only [canMerge, Span.stop] at hapart h₁ h₂ hstop ⊢
    rcases hlr with ⟨rfl, rfl⟩ | ⟨rfl, rfl⟩ <;> omega
  · rw [heq]
    simp only [Span.stop] at hstop ⊢
    rcases hlr with ⟨rfl, rfl⟩ | ⟨rfl, rfl⟩ <;> omega

lemma Merging.addLoop {n : ℕ} (hn : rest.length = n) (h : Merging P merged done rest) :
    Added P merged (done ++ rest) (addLoop n merged done rest) := by
  induction n generalizing merged done rest with
  | zero =>
    obtain rfl := eq_nil_of_length_eq_zero hn
    have hperm : (spans (done ++ [] ++ [merged])).Perm (merged.toSpan :: spans (done ++ [])) :=
      (perm_append_singleton merged _).map _
    refine ⟨Coalesced.perm ?_ hperm.symm, fun x => cover_perm hperm, fun r hr => h.backed r ?_,
      merged, by simp [LargeMap.addLoop], le_rfl, le_rfl⟩
    · refine h.coalesced.cons h.size_pos h.cover_le (fun t ht => ?_) fun t ht => ?_
      all_goals
        obtain ⟨r, hr, rfl⟩ := mem_map.1 ht
        have hapart := h.apart r (by simpa using hr)
        simp only [canMerge, not_or] at hapart
      · exact hapart.2
      · exact hapart.1
    · simpa [LargeMap.addLoop, or_comm] using hr
  | succ n ih =>
    cases rest with
    | nil => cases hn
    | cons r rest =>
      unfold LargeMap.addLoop
      split_ifs with hr
      -- the ranges that were passed are not looked at again: none of them can touch the new one
      · obtain ⟨hmrg, hcov, hst, hstop⟩ := h.merge hr
        have hlen : (rotate rest).length = n := by
          rw [rotate_perm.length_eq]
          exact Nat.succ.inj hn
        obtain ⟨hc, hx, hb, r', hr', hle, hle'⟩ := ih hlen hmrg
        exact ⟨hc, fun x => (hx x).trans (hcov x), hb, r', hr', hle.trans hst, hstop.trans hle'⟩
      · have happ : done ++ [r] ++ rest = done ++ r :: rest := by simp
        have hmrg : Merging P merged (done ++ [r]) rest := by
          refine ⟨happ ▸ h.coalesced, happ ▸ h.cover_le, h.size_pos, happ ▸ h.backed, ?_⟩
          exact forall_mem_append.2 ⟨h.apart, forall_mem_singleton.2 hr⟩
        exact happ ▸ ih (Nat.succ.inj hn) hmrg

lemma added_add (hfree : Coalesced (spans l)) (hcov : ∀ x, cover (r.toSpan :: spans l) x ≤ 1)
    (hsize : 0 < r.size) (hback : ∀ r' ∈ r :: l, r'.Backed P) : Added P r l (add l r) := by
  have hmrg : Merging P r [] l := ⟨hfree, hcov, hsize, hback, by simp⟩
  exact hmrg.addLoop rfl

lemma candidate_spec (done : List LargeRange) (i : ℕ) (best : Option (ℕ × LargeRange))
    (hi : i = done.length)
    (hbest : ∀ b ∈ best, (done ++ rest)[b.1]? = some b.2 ∧ Fits alignment size b.2) :
    ∀ b ∈ candidate alignment size rest i best,
      (done ++ rest)[b.1]? = some b.2 ∧ Fits alignment size b.2 := by
  induction rest generalizing done i best with
  | nil => exact hbest
  | cons r rest ih =>
    have happ : done ++ r :: rest = done ++ [r] ++ rest := by simp
    rw [happ] at hbest ⊢
    refine ih _ (i + 1) _ (by simp [hi]) fun b hb => ?_
    split_ifs at hb with hfits
    · obtain rfl := Option.some.inj hb
      exact ⟨by simp [hi], hfits.1⟩
    · exact hbest b hb

lemma candidate_isSome (i : ℕ) (best : Option (ℕ × LargeRange))
    (h : best.isSome ∨ ∃ r ∈ rest, Fits alignment size r) :
    (candidate alignment size rest i best).isSome := by
  induction rest generalizing i best with
  | nil => simpa [candidate] using h
  | cons r rest ih =>
    refine ih (i + 1) _ ?_
    split_ifs with hfits
    · exact .inl rfl
    · rcases h with h | ⟨r', hr', h⟩
      · exact .inl h
      · rcases mem_cons.1 hr' with rfl | hr'
        · -- a range that fits is passed over only for a lower one
          refine .inl (Option.isSome_iff_ne_none.2 fun hnone => hfits ⟨h, ?_⟩)
          simp [hnone]
        · exact .inr ⟨r', hr', h⟩

lemma remove_spec (h : remove alignment size l = some (r, l')) :
    Fits alignment size r ∧ l.Perm (r :: l') := by
  obtain ⟨⟨i, r'⟩, hcandidate, heq⟩ := Option.map_eq_some_iff.1 h
  obtain ⟨hget, hfits⟩ := candidate_spec [] 0 none rfl (by simp) (i, r') hcandidate
  obtain ⟨rfl, rfl⟩ := Prod.mk.inj heq
  obtain ⟨hlt, hget⟩ := List.getElem?_eq_some_iff.1 hget
  refine ⟨hfits, (getElem_cons_eraseIdx_perm hlt).symm.trans ?_⟩
  rw [hget, eraseIdx_eq_take_drop_succ]
  exact (rotate_perm.symm.append_left _).cons _

lemma roundUp_two_pow (i j : ℕ) : roundUpToMultipleOf (2 ^ i) (2 ^ j) = 2 ^ max i j := by
  have hpos n : 0 < 2 ^ n := Nat.two_pow_pos n
  have hle : 2 ^ j ≤ roundUpToMultipleOf (2 ^ i) (2 ^ j) := le_roundUp (hpos i)
  refine Nat.le_antisymm (roundUp_le (hpos i) ?_ ?_) ?_
  · exact Nat.pow_dvd_pow 2 (Nat.le_max_left i j)
  · exact Nat.pow_le_pow_right (by decide) (Nat.le_max_right i j)
  · rcases Nat.le_total i j with hij | hij
    · rwa [Nat.max_eq_right hij]
    · rw [Nat.max_eq_left hij]
      exact le_of_dvd ((hpos j).trans_le hle) (Nat.dvd_mul_left _ _)

lemma perm_eraseP {α : Type*} {p : α → Bool} {l : List α} {a : α} (h : l.find? p = some a) :
    l.Perm (a :: l.eraseP p) := by
  obtain ⟨ha, l₁, l₂, rfl, hl₁⟩ := find?_eq_some_iff_append.1 h
  rw [eraseP_append_right _ (by simpa using hl₁), eraseP_cons_of_pos ha]
  exact perm_middle

end

/-! ### Invariants of the heap -/

namespace Heap

open LargeRange LargeMap

variable {h : Heap} {c : Prop} {r : LargeRange} {held held' : List LargeRange}
  {alignment size start x : ℕ} {request : Request}

def IsPhysical (h : Heap) (x : ℕ) : Prop := h.physicalPages (x / h.vmPageSizePhysical) = true

instance (h : Heap) (x : ℕ) : Decidable (h.IsPhysical x) := inferInstanceAs (Decidable (_ = true))

/-- Under the condition `c`, an address is physical. -/
def Backs (c : Prop) (h : Heap) (x : ℕ) : Prop := c → h.IsPhysical x

lemma backs_allocate (hx : h.Backs c x ∨ start ≤ x ∧ x < start + size) :
    (h.vmAllocatePhysicalPagesSloppy start size).Backs c x := by
  intro hc
  simp only [IsPhysical, vmAllocatePhysicalPagesSloppy, Bool.or_eq_true, Bool.and_eq_true,
    decide_eq_true_eq]
  refine hx.imp (fun hx => hx hc) fun ⟨hle, hlt⟩ => ⟨Nat.div_le_div_right hle, ?_⟩
  rw [lt_iff_add_one_le, ← add_div_right x h.vmPageSizePhysical_pos]
  exact Nat.div_le_div_right (by omega)

/-- A page that is given back lies in the range. -/
lemma backs_deallocate (hx : h.Backs c x) (hnot : ¬(start ≤ x ∧ x < start + size)) :
    (h.vmDeallocatePhysicalPagesSloppy start size).Backs c x := by
  intro hc
  have hpos := h.vmPageSizePhysical_pos
  simp only [IsPhysical, vmDeallocatePhysicalPagesSloppy, Bool.and_eq_true, Bool.not_eq_true',
    Bool.and_eq_false_iff, decide_eq_false_iff_not]
  refine ⟨hx hc, or_iff_not_and_not.2 fun hpage => hnot ?_⟩
  simp only [not_not] at hpage
  constructor
  · calc start ≤ _ := le_ceil_mul hpos start
      _ ≤ _ := mul_le_mul_right _ hpage.1
      _ ≤ x := div_mul_le_self x _
  · calc x < (x / h.vmPageSizePhysical + 1) * h.vmPageSizePhysical :=
          (div_lt_iff_lt_mul hpos).1 (lt_succ_self _)
      _ ≤ _ := mul_le_mul_right _ hpage.2
      _ ≤ start + size := div_mul_le_self _ _

/-- The ranges that are held, the free ranges and the live objects. -/
def ranges (h : Heap) (held : List LargeRange) : List Span :=
  spans (held ++ h.largeFree) ++ h.live.map (·.toSpan)

/-- While an operation is going on, it holds ranges that are neither free nor live. -/
structure Inv (c : Prop) (h : Heap) (held : List LargeRange) : Prop where
  coalesced : Coalesced (spans h.largeFree)
  tiles : ∀ x, cover (h.ranges held) x = cover h.reserved x
  reserved_le : ∀ x, cover h.reserved x ≤ 1
  backed : ∀ r ∈ held ++ h.largeFree, r.Backed (h.Backs c)
  live_eq : h.live.map (·.toSpan) = h.largeAllocated
  serves : ∀ o ∈ h.live, o.Serves (h.Backs c)

lemma cover_ranges : cover (h.ranges held) x = cover (spans held) x + cover (spans h.largeFree) x +
    cover (h.live.map (·.toSpan)) x := by
  rw [ranges, cover_append, spans, map_append, cover_append]
  rfl

lemma cover_ranges_cons : cover (h.ranges (r :: held)) x =
    cover [r.toSpan] x + cover (h.ranges held) x := cover_cons

lemma Inv.cover_le (hi : h.Inv c held) : cover (h.ranges held) x ≤ 1 :=
  (hi.tiles x).trans_le (hi.reserved_le x)

lemma Inv.not_contains (hi : h.Inv c (r :: held)) {s : Span} (hs : s ∈ h.ranges held)
    (hx : s.Contains x) : ¬(r.start ≤ x ∧ x < r.start + r.size) :=
  fun hr => not_contains_of_cover_le (fun _ => hi.cover_le) hs hr hx

/-- The same memory is held in other ranges. -/
lemma Inv.hold (hi : h.Inv c held) (hcov : ∀ x, cover (spans held) x = cover (spans held') x)
    (hback : ∀ r ∈ held', r.Backed (h.Backs c)) : h.Inv c held' :=
  { hi with
    tiles := fun x => by rw [← hi.tiles, cover_ranges, cover_ranges, hcov]
    backed := forall_mem_append.2 ⟨hback, (forall_mem_append.1 hi.backed).2⟩ }

lemma Inv.perm (hi : h.Inv c held) (hperm : held.Perm held') : h.Inv c held' :=
  hi.hold (fun _ => cover_perm (hperm.map _))
    fun r hr => hi.backed r (mem_append_left _ (hperm.mem_iff.2 hr))

lemma Inv.removeFree (hi : h.Inv c held) {free : List LargeRange}
    (hperm : h.largeFree.Perm (r :: free)) : Inv c { h with largeFree := free } (r :: held) where
  coalesced := (hi.coalesced.perm (hperm.map _)).tail
  tiles x := by
    have hcov : cover (spans h.largeFree) x = cover [r.toSpan] x + cover (spans free) x :=
      (cover_perm (hperm.map _)).trans cover_cons
    rw [← hi.tiles, cover_ranges_cons, cover_ranges, cover_ranges]
    dsimp only
    omega
  reserved_le := hi.reserved_le
  backed := by
    have hback := forall_mem_append.1 hi.backed
    have hfree := fun r' hr' => hback.2 r' (hperm.mem_iff.2 hr')
    exact forall_mem_cons.2 ⟨hfree r mem_cons_self, forall_mem_append.2
      ⟨hback.1, fun r' hr' => hfree r' (mem_cons_of_mem r hr')⟩⟩
  live_eq := hi.live_eq
  serves := hi.serves

lemma backs_addFree : (h.addFree r).Backs c x = h.Backs c x := by
  unfold addFree
  split_ifs <;> rfl

lemma Inv.added (hi : h.Inv c (r :: held)) (hsize : 0 < r.size) :
    Added (h.Backs c) r h.largeFree (add h.largeFree r) := by
  refine added_add hi.coalesced (fun x => ?_) hsize fun r' hr' => hi.backed r' ?_
  · have hle := hi.cover_le (x := x)
    rw [cover_ranges_cons, cover_ranges] at hle
    rw [cover_cons]
    omega
  · rcases mem_cons.1 hr' with rfl | hr' <;> simp [*]

lemma Inv.addFree (hi : h.Inv c (r :: held)) : (h.addFree r).Inv c held := by
  unfold Heap.addFree
  have hback := (forall_mem_append.1 hi.backed).1
  split_ifs with hsize
  · refine hi.hold (fun x => ?_) fun r' hr' => hback r' (mem_cons_of_mem r hr')
    rw [spans, map_cons, cover_cons, cover_of_size_eq_zero hsize, Nat.zero_add]
    rfl
  · have hadd := hi.added (Nat.pos_of_ne_zero hsize)
    refine ⟨hadd.coalesced, fun x => ?_, hi.reserved_le, ?_, hi.live_eq, hi.serves⟩
    · have hcov := hadd.cover_eq x
      rw [← hi.tiles, cover_ranges_cons, cover_ranges, cover_ranges]
      rw [cover_cons] at hcov
      dsimp only
      omega
    · exact forall_mem_append.2 ⟨fun r' hr' => hback r' (mem_cons_of_mem r hr'), hadd.backed⟩

lemma Inv.allocatePages (hi : h.Inv c held) :
    (h.vmAllocatePhysicalPagesSloppy start size).Inv c held :=
  { hi with
    backed := fun r hr => ⟨(hi.backed r hr).1, fun x hx hx' =>
      backs_allocate (.inl ((hi.backed r hr).2 x hx hx'))⟩
    serves := fun o ho => { hi.serves o ho with
      physical := fun hkind x hx => backs_allocate (.inl ((hi.serves o ho).5 hkind x hx)) } }

lemma Inv.deallocatePages (hi : h.Inv c (r :: held)) :
    (h.vmDeallocatePhysicalPagesSloppy r.start r.size).Inv c (⟨r.toSpan, 0⟩ :: held) := by
  refine { hi with
    backed := forall_mem_cons.2 ⟨backed_zero _, fun r' hr' => ?_⟩
    serves := fun o ho => { hi.serves o ho with
      physical := fun hkind x hx => backs_deallocate ((hi.serves o ho).5 hkind x hx)
        (hi.not_contains (mem_append_right _ (mem_map_of_mem ho)) hx) } }
  obtain ⟨hle, hphys⟩ := hi.backed r' (mem_cons_of_mem _ hr')
  refine ⟨hle, fun x hx hx' => backs_deallocate (hphys x hx hx') (hi.not_contains
    (mem_append_left _ (mem_map_of_mem hr')) ⟨hx, ?_⟩)⟩
  rw [Span.stop]
  omega

/-- A range becomes a live object. -/
lemma Inv.allocated (hi : h.Inv c [r]) (hserv : Object.Serves (h.Backs c) ⟨r.toSpan, request⟩) :
    (acquire { h with
      largeAllocated := r.toSpan :: h.largeAllocated.filter (·.start ≠ r.start) }
      r.start request).Inv c [] := by
  have hfilter : h.largeAllocated.filter (·.start ≠ r.start) = h.largeAllocated := by
    rw [← hi.live_eq, filter_eq_self, forall_mem_map]
    refine fun o ho => decide_eq_true fun heq => ?_
    have hcon : o.Contains o.start := ⟨le_rfl, Nat.lt_add_of_pos_right (hi.serves o ho).size_pos⟩
    refine hi.not_contains (mem_append_right _ (mem_map_of_mem ho)) hcon ?_
    exact ⟨heq.ge, heq ▸ Nat.lt_add_of_pos_right hserv.size_pos⟩
  have hsize : largeSize { h with
      largeAllocated := r.toSpan :: h.largeAllocated.filter (·.start ≠ r.start) } r.start =
        r.size := by
    simp [largeSize]
  rw [acquire, hsize]
  refine ⟨hi.coalesced, fun x => ?_, hi.reserved_le, fun r' hr' => hi.backed r' (.tail _ hr'), ?_,
    forall_mem_cons.2 ⟨hserv, hi.serves⟩⟩
  · rw [← hi.tiles, cover_ranges, cover_ranges, map_cons, cover_cons]
    dsimp only [spans, List.map]
    rw [cover_nil]
    have heta : cover [⟨r.start, r.size⟩] x = cover [r.toSpan] x := rfl
    omega
  · rw [hfilter, ← hi.live_eq]
    rfl

lemma Inv.adjustPages (hi : h.Inv c (r :: held)) {k : AllocationKind} :
    ∃ n, (h.adjustPages r k).Inv c (⟨r.toSpan, n⟩ :: held) ∧
      (k = .physical → ∀ x, r.Contains x → (h.adjustPages r k).Backs c x) := by
  have hrng := (hi.backed r (by simp)).physical
  unfold Heap.adjustPages
  cases k with
  | virtual =>
    dsimp only
    split_ifs
    · exact ⟨r.physicalSize, hi, by simp⟩
    · exact ⟨0, hi.deallocatePages, by simp⟩
  | physical =>
    refine ⟨r.physicalSize, ?_, fun _ x ⟨hst, hstop⟩ => ?_⟩
    all_goals dsimp only; split_ifs with hlt
    · exact hi.allocatePages
    · exact hi
    all_goals rw [Span.stop] at hstop
    · refine backs_allocate ?_
      by_cases hx : x < r.start + r.physicalSize
      · exact .inl (hrng x hst hx)
      · exact .inr (by omega)
    · exact hrng x hst (by omega)

lemma Inv.splitAndAllocate (hi : h.Inv c [r]) (hfits : Fits alignment size r)
    (halig : 0 < alignment) (hsize : 0 < size) (hrequest : request.size ≤ size)
    (hst : ∀ start, alignment ∣ start → (alignment ∣ r.start → start = r.start) →
      largeAlignment ∣ start ∧ request.alignment ∣ start) :
    let result := h.splitAndAllocate r alignment size request.kind
    (result.1.acquire result.2 request).Inv c [] ∧ (alignment ∣ r.start → result.2 = r.start) := by
  have hcarve := carve_spec hfits halig (hi.backed r (by simp))
  unfold Heap.splitAndAllocate
  generalize r.carve alignment size = parts at hcarve
  obtain ⟨prev, range, next⟩ := parts
  obtain ⟨hcov, hback, hdvd, heq, hle⟩ := hcarve
  have hparts : h.Inv c [range, prev, next] := hi.hold hcov hback
  obtain ⟨n, hi', hphys⟩ := hparts.adjustPages
  have hfree := (hi'.perm ((List.Perm.swap prev _ _).trans
    ((List.Perm.swap next _ _).cons prev))).addFree.addFree
  obtain ⟨hlrg, hrequested⟩ := hst range.start hdvd heq
  refine ⟨hfree.allocated ⟨hsize.trans_le hle, hlrg, hrequested, hrequest.trans hle, ?_⟩, heq⟩
  intro hkind x hx
  rw [backs_addFree, backs_addFree]
  exact hphys hkind x hx

/-! ### Operations -/

/-- The VM layer returns fresh memory. -/
lemma Inv.tryAllocateLargeChunk (hi : h.Inv c []) {memory : ℕ} {kind : AllocationKind}
    (hfresh : ∀ r ∈ h.reserved, Span.Disjoint ⟨memory, size⟩ r) :
    (h.tryAllocateLargeChunk size memory kind).Inv c [⟨⟨memory, size⟩, 0⟩] := by
  have hrsv : Inv c { h with reserved := ⟨memory, size⟩ :: h.reserved } [⟨⟨memory, size⟩, 0⟩] :=
    { hi with
      tiles := fun x => by
        have htiles := hi.tiles x
        rw [cover_ranges] at htiles
        rw [cover_ranges, cover_cons, ← htiles]
        dsimp only [spans, List.map]
        rw [cover_nil]
        omega
      reserved_le := pairwise_disjoint_iff.1
        (pairwise_cons.2 ⟨hfresh, pairwise_disjoint_iff.2 hi.reserved_le⟩)
      backed := forall_mem_cons.2 ⟨backed_zero _, hi.backed⟩ }
  unfold Heap.tryAllocateLargeChunk
  split_ifs
  · exact hrsv.deallocatePages
  · exact hrsv

/-- An aligned range that is added has room for an object, with the ranges that it merges with. -/
lemma Inv.remove_addFree (hi : h.Inv c [r]) (halig : 0 < alignment) (hsize : 0 < size)
    (hle : size ≤ r.size) (hdvd : alignment ∣ r.start) :
    ∃ p, LargeMap.remove alignment size (h.addFree r).largeFree = some p := by
  have hpos := hsize.trans_le hle
  obtain ⟨r', hr', hst, hstop⟩ := (hi.added hpos).contains
  have hfits : Fits alignment size r' := by
    have hround := roundUp_le halig hdvd hst
    simp only [Fits, Span.stop] at hstop ⊢
    omega
  rw [Heap.addFree, if_neg hpos.ne']
  obtain ⟨b, hb⟩ := Option.isSome_iff_exists.1 (candidate_isSome 0 none (.inr ⟨r', hr', hfits⟩))
  exact ⟨_, congrArg (Option.map _) hb⟩

lemma Inv.tryAllocateLarge (hi : h.Inv c []) {memory : Option ℕ}
    (hvld : h.Valid (.allocate request memory)) :
    ∃ h' object, h.tryAllocateLarge request memory = some (h', object) ∧
      (object.elim h' (h'.acquire · request)).Inv c [] := by
  obtain ⟨⟨k, hk⟩, hmemory⟩ := hvld
  have hround : roundUpToMultipleOf largeAlignment request.alignment = 2 ^ max 12 k := by
    rw [hk]
    exact roundUp_two_pow 12 k
  have hsize : 0 < roundedSize request.size ∧ request.size ≤ roundedSize request.size := by
    have hle := @le_roundUp largeAlignment request.size (Nat.two_pow_pos 12)
    unfold roundedSize
    split_ifs with hzero
    · exact ⟨Nat.two_pow_pos 12, hzero ▸ zero_le _⟩
    · exact ⟨(Nat.pos_of_ne_zero hzero).trans_le hle, hle⟩
  unfold Heap.tryAllocateLarge
  simp only [hround] at hmemory ⊢
  generalize roundedSize request.size = size at hsize hmemory
  -- a range that fits is split, wherever it comes from
  have hspl : ∀ {h' : Heap} {r free}, h'.Inv c [] →
      LargeMap.remove (2 ^ max 12 k) size h'.largeFree = some (r, free) →
      let result :=
        { h' with largeFree := free }.splitAndAllocate r (2 ^ max 12 k) size request.kind
      (result.1.acquire result.2 request).Inv c [] := by
    intro h' r free hi' hrm
    obtain ⟨hfits, hperm⟩ := remove_spec hrm
    refine ((hi'.removeFree hperm).splitAndAllocate hfits (Nat.two_pow_pos _) hsize.1 hsize.2 ?_).1
    refine fun start hst _ => ⟨?_, ?_⟩
    · exact Nat.dvd_trans (Nat.pow_dvd_pow 2 (Nat.le_max_left 12 k)) hst
    · exact hk ▸ Nat.dvd_trans (Nat.pow_dvd_pow 2 (Nat.le_max_right 12 k)) hst
  by_cases hovf : 2 ^ 64 ≤ size ∨ 2 ^ 64 ≤ 2 ^ max 12 k
  · exact ⟨h, none, if_pos hovf, hi⟩
  rw [if_neg hovf]
  cases hrm : LargeMap.remove (2 ^ max 12 k) size h.largeFree with
  | some p => exact ⟨_, _, rfl, hspl hi hrm⟩
  | none =>
    split_ifs
    · exact ⟨h, none, rfl, hi⟩
    cases memory with
    | none => exact ⟨h, none, rfl, hi⟩
    | some memory =>
      -- the fresh memory, merged with its neighbors, has room for the object
      obtain ⟨hdvd, hfresh⟩ := hmemory memory rfl
      have hle := @le_roundUp chunkSize size (Nat.two_pow_pos 20)
      have hheld := @Inv.tryAllocateLargeChunk _ _ _ hi _ request.kind hfresh
      have hdvd' : 2 ^ max 12 k ∣ roundUpToMultipleOf chunkSize (2 ^ max 12 k) :=
        roundUp_two_pow 20 (max 12 k) ▸ Nat.pow_dvd_pow 2 (Nat.le_max_right _ _)
      obtain ⟨p, hrm'⟩ := hheld.remove_addFree (Nat.two_pow_pos (max 12 k)) hsize.1 hle
        (Nat.dvd_trans hdvd' hdvd)
      exact ⟨_, _, congrArg (Option.map _) hrm', hspl hheld.addFree hrm'⟩

lemma Inv.find?_largeAllocated (hi : h.Inv c []) {o : Object} {object : ℕ}
    (ho : h.live.find? (·.start = object) = some o) :
    h.largeAllocated.find? (·.start = object) = some o.toSpan := by
  rw [← hi.live_eq, find?_map]
  exact congrArg _ ho

/-- An object is taken out of the live ones. -/
lemma Inv.removeAllocated (hi : h.Inv c []) {o : Object} {object n : ℕ}
    (ho : h.live.find? (·.start = object) = some o) (hn : Backed (h.Backs c) ⟨o.toSpan, n⟩) :
    ((h.removeAllocated object).release object).Inv c [⟨o.toSpan, n⟩] where
  coalesced := hi.coalesced
  tiles x := by
    have hcov : cover (h.live.map (·.toSpan)) x = cover [o.toSpan] x +
        cover ((h.live.eraseP (·.start = object)).map (·.toSpan)) x :=
      (cover_perm ((perm_eraseP ho).map _)).trans cover_cons
    have htiles := hi.tiles x
    rw [cover_ranges] at htiles
    rw [cover_ranges_cons, cover_ranges]
    dsimp only [Heap.removeAllocated, Heap.release]
    omega
  reserved_le := hi.reserved_le
  backed := forall_mem_cons.2 ⟨hn, hi.backed⟩
  live_eq := by
    dsimp only [Heap.removeAllocated]
    rw [← hi.live_eq, eraseP_map]
    rfl
  serves o ho := hi.serves o (mem_of_mem_eraseP ho)

/-- The objects of the callers play no role. -/
lemma splitAndAllocate_release {object : ℕ} {kind : AllocationKind} :
    (h.release object).splitAndAllocate r alignment size kind =
      (h.splitAndAllocate r alignment size kind).map (·.release object) id := by
  have hadd : ∀ {h : Heap} {r}, (h.release object).addFree r = (h.addFree r).release object := by
    intro h r
    simp only [addFree]
    split_ifs <;> rfl
  have hpages : ∀ {h : Heap} {r},
      (h.release object).adjustPages r kind = (h.adjustPages r kind).release object := by
    intro h r
    cases kind <;> simp only [adjustPages] <;> split_ifs <;> rfl
  simp only [splitAndAllocate, hpages, hadd]
  rfl

lemma Inv.shrinkLarge (hi : h.Inv c []) {object newSize : ℕ}
    (hvld : h.Valid (.shrink object newSize)) (hkind : c → h.KeepsKind (.shrink object newSize)) :
    ∃ h', h.step (.shrink object newSize) = some h' ∧ h'.Inv c [] := by
  obtain ⟨o, ho, -, hpos, hlt⟩ := hvld
  have hserv := hi.serves o (mem_of_find?_eq_some ho)
  have hphys hc := hserv.physical (hkind hc o ho)
  have height : 8 ∣ o.start := Nat.dvd_trans ⟨512, rfl⟩ hserv.largeAlignment_dvd
  have hspl := (hi.removeAllocated ho ⟨le_rfl, fun x hx hx' hc => hphys hc x ⟨hx, hx'⟩ hc⟩)
    |>.splitAndAllocate ⟨hlt.le, .inl height⟩ (by decide) hpos
      (show Request.size ⟨o.request.alignment, newSize, .physical⟩ ≤ newSize from le_rfl)
      fun start _ hst => by
        rw [hst height]
        exact ⟨hserv.largeAlignment_dvd, hserv.alignment_dvd⟩
  rw [splitAndAllocate_release] at hspl
  obtain ⟨hinv, hstart⟩ := hspl
  have hobject : o.start = object := by simpa using find?_some ho
  rw [hstart height, hobject] at hinv
  refine ⟨_, ?_, hinv⟩
  simp only [Heap.step, Heap.shrinkLarge, hi.find?_largeAllocated ho, Option.mem_def.1 ho]
  rfl

lemma Inv.deallocateLarge (hi : h.Inv c []) {object : ℕ} {kind : AllocationKind}
    (hvld : h.Valid (.deallocate object kind)) (hkind : c → h.KeepsKind (.deallocate object kind)) :
    ∃ h', h.step (.deallocate object kind) = some h' ∧ h'.Inv c [] := by
  obtain ⟨o, ho⟩ := hvld
  have hserv := hi.serves o (mem_of_find?_eq_some ho)
  have hback : Backed (h.Backs c) ⟨o.toSpan, if kind = .physical then o.size else 0⟩ := by
    split_ifs with heq
    · exact ⟨le_rfl, fun x hx hx' hc => hserv.physical (hkind hc heq o ho) x ⟨hx, hx'⟩ hc⟩
    · exact backed_zero _
  have hfree := (hi.removeAllocated ho hback).addFree
  rw [Heap.addFree, if_neg hserv.size_pos.ne'] at hfree
  simp only [Heap.step, Heap.deallocateLarge, hi.find?_largeAllocated ho]
  exact ⟨_, rfl, hfree⟩

/-- Pages outside of the ranges stay. -/
lemma foldl_deallocate (l : List LargeRange) (h : Heap) :
    let h' := l.foldl (fun h r => h.vmDeallocatePhysicalPagesSloppy r.start r.size) h
    h' = { h with physicalPages := h'.physicalPages } ∧
      ∀ x, (∀ r ∈ l, ¬(r.start ≤ x ∧ x < r.start + r.size)) → h.Backs c x → h'.Backs c x := by
  induction l generalizing h with
  | nil => exact ⟨rfl, fun x _ hx => hx⟩
  | cons r l ih =>
    obtain ⟨heq, hbacks⟩ := ih (h.vmDeallocatePhysicalPagesSloppy r.start r.size)
    refine ⟨heq, fun x hnot hx => hbacks x (fun r' hr' => hnot r' (.tail r hr')) ?_⟩
    exact backs_deallocate hx (hnot r mem_cons_self)

lemma Inv.scavenge (hi : h.Inv c []) : h.scavenge.Inv c [] := by
  have hspans : spans (h.largeFree.map fun r => { r with physicalSize := 0 }) =
      spans h.largeFree := map_map
  obtain ⟨heq, hbacks⟩ := foldl_deallocate h.largeFree h
  unfold Heap.scavenge
  rw [heq] at hbacks ⊢
  refine ⟨hspans ▸ hi.coalesced, fun x => ?_, hi.reserved_le, ?_, hi.live_eq, fun o ho => ?_⟩
  · rw [← hi.tiles, cover_ranges, cover_ranges]
    rw [hspans]
  · intro r hr
    obtain ⟨r', -, rfl⟩ := mem_map.1 hr
    exact backed_zero _
  · refine { hi.serves o ho with physical := fun hkind x hx => ?_ }
    refine hbacks x (fun r hr hx' => ?_) ((hi.serves o ho).physical hkind x hx)
    have hheld := hi.removeFree (perm_cons_erase hr)
    exact hheld.not_contains (mem_append_right _ (mem_map_of_mem ho)) hx hx'

lemma Inv.step (hi : h.Inv c []) {o : Operation} (hvld : h.Valid o ∧ (c → h.KeepsKind o)) :
    ∃ h', h.step o = some h' ∧ h'.Inv c [] := by
  obtain ⟨hvld, hkind⟩ := hvld
  cases o with
  | allocate request memory =>
    obtain ⟨h', object, heq, hinv⟩ := hi.tryAllocateLarge hvld
    exact ⟨_, congrArg (Option.map _) heq, hinv⟩
  | shrink object newSize => exact hi.shrinkLarge hvld hkind
  | deallocate object kind => exact hi.deallocateLarge hvld hkind
  | scavenge => exact ⟨_, rfl, hi.scavenge⟩

/-! ### Safety -/

structure Safe (h : Heap) : Prop where
  aligned : ∀ o ∈ h.live, largeAlignment ∣ o.start ∧ o.request.alignment ∣ o.start
  size_le : ∀ o ∈ h.live, o.request.size ≤ o.size
  live_disjoint : (h.live.map (·.toSpan)).Pairwise Span.Disjoint
  live_disjoint_free : ∀ o ∈ h.live, ∀ r ∈ h.largeFree, o.Disjoint r.toSpan
  free_disjoint : (spans h.largeFree).Pairwise Span.Disjoint
  free_apart : ∀ r ∈ h.largeFree, ∀ r' ∈ h.largeFree, ¬canMerge r r'
  reserved_iff : ∀ x, (∃ s ∈ h.reserved, s.Contains x) ↔
    (∃ r ∈ h.largeFree, r.Contains x) ∨ ∃ o ∈ h.live, o.Contains x

/-- The physical size of a free range is a lower bound. -/
def FreeBacked (h : Heap) : Prop := ∀ r ∈ h.largeFree, r.Backed h.IsPhysical

lemma Inv.safe (hi : h.Inv c []) : h.Safe where
  aligned o ho := ⟨(hi.serves o ho).largeAlignment_dvd, (hi.serves o ho).alignment_dvd⟩
  size_le o ho := (hi.serves o ho).size_le
  live_disjoint := pairwise_disjoint_iff.2 fun x => by
    have hle := hi.cover_le (x := x)
    rw [cover_ranges] at hle
    omega
  live_disjoint_free o ho r hr x hx hx' := by
    have hheld := hi.removeFree (perm_cons_erase hr)
    exact hheld.not_contains (mem_append_right _ (mem_map_of_mem ho)) hx hx'
  free_disjoint := pairwise_disjoint_iff.2 hi.coalesced.cover_le
  free_apart r hr r' hr' hmerge := by
    have hne := hi.coalesced.stop_ne_start
    rcases hmerge with heq | heq
    · exact hne _ (mem_map_of_mem hr) _ (mem_map_of_mem hr') heq
    · exact hne _ (mem_map_of_mem hr') _ (mem_map_of_mem hr) heq
  reserved_iff x := by
    rw [← cover_pos_iff, ← hi.tiles, cover_pos_iff]
    simp [ranges, spans, or_and_right, exists_or]

/-- For every sequence of allocations, shrinks, deallocations and scavenges, objects and free
ranges tile the memory from the VM layer. If the kinds of the objects are kept, free ranges have
the physical memory that they remember. -/
theorem run_safe {start : Heap} (hstart : start.largeFree = [] ∧ start.largeAllocated = [] ∧
      start.reserved = [] ∧ start.live = []) {operations : List Operation}
    (hvalid : EachStep step Valid start operations) :
    ∃ h, run step start operations = some h ∧ h.Safe ∧
      (EachStep step KeepsKind start operations → h.FreeBacked) := by
  obtain ⟨hfree, hallocated, hreserved, hlive⟩ := hstart
  have hinv c : start.Inv c [] := by
    refine ⟨?_, fun x => ?_, fun x => ?_, ?_, ?_, ?_⟩
    all_goals simp [ranges, spans, hfree, hallocated, hreserved, hlive, Coalesced.nil]
  have hrun {c : Prop} (hkinds : EachStep step (fun h o => c → h.KeepsKind o) start operations) :
      ∃ h, run step start operations = some h ∧ h.Inv c [] :=
    run_total (fun h o ho hi => Inv.step hi ho) (hvalid.and hkinds) (hinv c)
  obtain ⟨h, hh, hi⟩ := hrun (c := False) ((eachStep_true _ _).mono fun _ _ _ hc => hc.elim)
  refine ⟨h, hh, hi.safe, fun hkinds r hr => ?_⟩
  obtain ⟨h', hh', hi'⟩ := hrun (hkinds.mono fun _ _ hkind _ => hkind)
  obtain rfl := Option.some.inj (hh.symm.trans hh')
  obtain ⟨hle, hbacked⟩ := hi'.backed r hr
  exact ⟨hle, fun x hx hx' => hbacked x hx hx' trivial⟩

/-- A heap that has no memory yet, with pages of 4096 bytes. -/
def fresh : Heap where
  vmPageSizePhysical := 4096
  vmPageSizePhysical_pos := by decide

/-- A physical object from fresh memory is shrunk, and a virtual one is given back as such. -/
theorem run_safe_shrink :
    let operations : List Operation := [.allocate ⟨1, 50000, .physical⟩ (some 1048576),
      .shrink 1048576 40960, .allocate ⟨1, 8192, .virtual⟩ none, .scavenge,
      .deallocate 1089536 .virtual]
    ∃ h, run step fresh operations = some h ∧ h.Safe ∧ h.FreeBacked := by
  intro operations
  have hsteps : EachStep step (fun h o => h.Valid o ∧ h.KeepsKind o) fresh operations := by
    refine ⟨⟨⟨⟨0, rfl⟩, ?_⟩, trivial⟩, fun s hs => ?_⟩
    · rintro m ⟨⟩
      exact ⟨by decide, by simp [fresh]⟩
    obtain rfl := Option.some.inj hs
    refine ⟨⟨⟨_, rfl, by decide⟩, by rintro o ⟨⟩; rfl⟩, fun s hs => ?_⟩
    obtain rfl := Option.some.inj hs
    refine ⟨⟨⟨⟨0, rfl⟩, by simp⟩, trivial⟩, fun s hs => ?_⟩
    obtain rfl := Option.some.inj hs
    refine ⟨⟨trivial, trivial⟩, fun s hs => ?_⟩
    obtain rfl := Option.some.inj hs
    exact ⟨⟨⟨_, rfl⟩, nofun⟩, fun _ _ => trivial⟩
  obtain ⟨h, hrun, hsafe, hbacked⟩ :=
    run_safe ⟨rfl, rfl, rfl, rfl⟩ (hsteps.mono fun _ _ hstep => hstep.1)
  exact ⟨h, hrun, hsafe, hbacked (hsteps.mono fun _ _ hstep => hstep.2)⟩

/-- A virtual object of 50000 bytes is shrunk to 40960 bytes, or given back as a physical one: the
free range remembers physical memory that is not there. -/
theorem shrink_virtual_not_backed :
    (∃ h, run step fresh [.allocate ⟨1, 50000, .virtual⟩ (some 1048576),
      .shrink 1048576 40960] = some h ∧ ¬h.FreeBacked) ∧
    ∃ h, run step fresh [.allocate ⟨1, 50000, .virtual⟩ (some 1048576),
      .deallocate 1048576 .physical] = some h ∧ ¬h.FreeBacked := by
  refine ⟨⟨_, rfl, fun hback => ?_⟩, _, rfl, fun hback => ?_⟩
  · have hphys := (hback ⟨⟨1089536, 1007616⟩, 12288⟩ (by decide)).physical 1089536 (by decide)
      (by decide)
    exact absurd hphys (by decide)
  · have hphys := (hback ⟨⟨1048576, 1048576⟩, 53248⟩ (by decide)).physical 1048576 (by decide)
      (by decide)
    exact absurd hphys (by decide)

end Heap

end WebKit.BMalloc
