import WebKit.Core.RangeMap
import WebKit.Core.Vec

/-!
# `MutableRangeList`

The range lists of the content extension compiler: a vector of ranges linked into a sorted chain
by `nextRangeIndex`. The first range of the chain is always at index zero, and the index zero
also ends the chain.
-/

namespace WebKit.ContentExtensions

open RangeMap Vec
open List hiding merge

variable {δ ο : Type*}

structure MutableRange (δ : Type*) where
  data : δ
  nextRangeIndex : ℕ
  first : ℕ
  last : ℕ

instance [Inhabited δ] : Inhabited (MutableRange δ) := ⟨⟨default, 0, 0, 0⟩⟩

/-- What a range of the chain says, without its link. -/
def MutableRange.range (r : MutableRange δ) : Range δ := ⟨r.first, r.last, r.data⟩

abbrev MutableRangeList (δ : Type*) := Vec (MutableRange δ)

namespace MutableRangeList

/-- The ranges from `index` on, in the order in which the iterator visits them. The chain cannot
be longer than the vector. -/
def iterate (ranges : MutableRangeList δ) : ℕ → ℕ → List (Range δ)
  | 0, _ => []
  | n + 1, index =>
    (ranges.get index).range ::
      if (ranges.get index).nextRangeIndex = 0 then []
      else iterate ranges n (ranges.get index).nextRangeIndex

/-- `begin()` to `end()`. -/
def toList (ranges : MutableRangeList δ) : List (Range δ) := iterate ranges ranges.size 0

def appendRange (ranges : MutableRangeList δ) (lastRangeIndex first last : ℕ) (data : δ) :
    MutableRangeList δ × ℕ :=
  let newRangeIndex := ranges.size
  let ranges := ranges.push ⟨data, 0, first, last⟩
  if newRangeIndex = 0 then (ranges, 0)
  else
    (ranges.set lastRangeIndex { ranges.get lastRangeIndex with nextRangeIndex := newRangeIndex },
      newRangeIndex)

/-- Insert a range before `rightRangeIndex`. Returns the new vector with the updated left and
right index. -/
def insertBetween (ranges : MutableRangeList δ) (leftRangeIndex rightRangeIndex first last : ℕ)
    (data : δ) : MutableRangeList δ × ℕ × ℕ :=
  if rightRangeIndex = 0 then
    -- The first range is always kept as the first element of the vector.
    let movedRangeIndex := ranges.size
    let ranges := ranges.push (ranges.get 0)
    (ranges.set 0 ⟨data, movedRangeIndex, first, last⟩, 0, movedRangeIndex)
  else
    let newRangeIndex := ranges.size
    let ranges := ranges.push ⟨data, rightRangeIndex, first, last⟩
    (ranges.set leftRangeIndex { ranges.get leftRangeIndex with nextRangeIndex := newRangeIndex },
      newRangeIndex, rightRangeIndex)

variable (ranges : MutableRangeList δ)

@[simp] lemma size_insertBetween (left right first last : ℕ)
    (data : δ) : (insertBetween ranges left right first last data).1.size = ranges.size + 1 := by
  unfold insertBetween
  split <;> rfl

@[simp] lemma size_appendRange (lastRangeIndex first last : ℕ)
    (data : δ) : (appendRange ranges lastRangeIndex first last data).1.size = ranges.size + 1 := by
  unfold appendRange
  dsimp only
  split <;> rfl

def initializeFrom (conv : Converter ο δ) [Inhabited δ] (other : List (Range ο)) :
    MutableRangeList δ :=
  let ranges := other.foldl
    (fun ranges o => ranges.push ⟨conv.convert o.data, ranges.size + 1, o.first, o.last⟩)
    (Vec.empty : MutableRangeList δ)
  ranges.set (ranges.size - 1) { ranges.get (ranges.size - 1) with nextRangeIndex := 0 }

/-- The variables of the loop of `extend`. -/
structure ExtendState (δ ο : Type*) where
  ranges : MutableRangeList δ
  lastSelfRangeIndex : ℕ
  selfRangeIndex : ℕ
  reachedSelfEnd : Bool
  other : List (Range ο)
  otherRangeOffset : ℕ

/-- Make the active range of the list and the current range of the other list start at the same
point, splitting off what is left of it. -/
def ExtendState.splitLeft (conv : Converter ο δ) (s : ExtendState δ ο) (o : Range ο) :
    ExtendState δ ο :=
  let active := s.ranges.get s.selfRangeIndex
  if active.first < o.first + s.otherRangeOffset then
    let ranges := s.ranges.set s.selfRangeIndex
      { active with first := o.first + s.otherRangeOffset }
    let (ranges, left, right) := insertBetween ranges s.lastSelfRangeIndex s.selfRangeIndex
      active.first (o.first + s.otherRangeOffset - 1) active.data
    { s with ranges, lastSelfRangeIndex := left, selfRangeIndex := right }
  else if o.first + s.otherRangeOffset < active.first then
    let (ranges, left, right) := insertBetween s.ranges s.lastSelfRangeIndex s.selfRangeIndex
      (o.first + s.otherRangeOffset) (active.first - 1) (conv.convert o.data)
    { s with
      ranges, lastSelfRangeIndex := left, selfRangeIndex := right
      otherRangeOffset := (ranges.get right).first - o.first }
  else s

/-- Merge two ranges that start at the same point. -/
def ExtendState.mergeAligned (conv : Converter ο δ) (s : ExtendState δ ο) (o : Range ο)
    (os : List (Range ο)) : ExtendState δ ο :=
  let active := s.ranges.get s.selfRangeIndex
  if active.last = o.last then
    { ranges := s.ranges.set s.selfRangeIndex { active with data := conv.extend active.data o.data }
      lastSelfRangeIndex := s.selfRangeIndex
      selfRangeIndex := active.nextRangeIndex
      reachedSelfEnd := active.nextRangeIndex == 0
      other := os
      otherRangeOffset := 0 }
  else if active.last > o.last then
    let ranges := s.ranges.set s.selfRangeIndex { active with first := o.last + 1 }
    let (ranges, left, right) := insertBetween ranges s.lastSelfRangeIndex s.selfRangeIndex
      active.first o.last (conv.extend active.data o.data)
    { s with
      ranges, lastSelfRangeIndex := left, selfRangeIndex := right, other := os
      otherRangeOffset := 0 }
  else
    { s with
      ranges := s.ranges.set s.selfRangeIndex { active with data := conv.extend active.data o.data }
      lastSelfRangeIndex := s.selfRangeIndex
      selfRangeIndex := active.nextRangeIndex
      reachedSelfEnd := active.nextRangeIndex == 0
      otherRangeOffset := active.last - o.first + 1 }

/-- One iteration of the loop of `extend`. -/
def ExtendState.step (conv : Converter ο δ) (s : ExtendState δ ο) : ExtendState δ ο :=
  match s.other with
  | [] => s
  | o :: os =>
    let active := s.ranges.get s.selfRangeIndex
    if active.last < o.first + s.otherRangeOffset then
      { s with
        lastSelfRangeIndex := s.selfRangeIndex
        selfRangeIndex := active.nextRangeIndex
        reachedSelfEnd := active.nextRangeIndex == 0 }
    else if o.last < active.first then
      let (ranges, left, right) := insertBetween s.ranges s.lastSelfRangeIndex s.selfRangeIndex
        (o.first + s.otherRangeOffset) o.last (conv.convert o.data)
      { s with
        ranges, lastSelfRangeIndex := left, selfRangeIndex := right, other := os
        otherRangeOffset := 0 }
    else (s.splitLeft conv o).mergeAligned conv o os

/-- `do … while (!reachedSelfEnd && otherIterator != otherEnd)`. Every iteration passes a range of
one of the two lists, so their number bounds the iterations. -/
def ExtendState.loop (conv : Converter ο δ) : ℕ → ExtendState δ ο → ExtendState δ ο
  | 0, s => s
  | n + 1, s =>
    let s := s.step conv
    if !s.reachedSelfEnd && !s.other.isEmpty then loop conv n s else s

/-- The ranges of the other list that lie after the whole list. -/
def ExtendState.appendRest (conv : Converter ο δ) (s : ExtendState δ ο) : MutableRangeList δ :=
  match s.other with
  | [] => s.ranges
  | o :: os =>
    let start := appendRange s.ranges s.lastSelfRangeIndex (o.first + s.otherRangeOffset) o.last
      (conv.convert o.data)
    (os.foldl (fun r o => appendRange r.1 r.2 o.first o.last (conv.convert o.data)) start).1

def extend [Inhabited δ] (conv : Converter ο δ) (ranges : MutableRangeList δ)
    (other : List (Range ο)) : MutableRangeList δ :=
  if other.isEmpty then ranges
  else if ranges.size = 0 then initializeFrom conv other
  else
    ExtendState.appendRest conv <|
      ExtendState.loop conv (ranges.size + other.length)
        { ranges, lastSelfRangeIndex := 0, selfRangeIndex := 0, reachedSelfEnd := false, other,
          otherRangeOffset := 0 }

/-! ### The chain -/

/-- The indices `is` are linked one to the next, and the last one to `stop`. -/
def Linked (ranges : MutableRangeList δ) (stop : ℕ) : List ℕ → Prop
  | [] => True
  | i :: is =>
    i < ranges.size ∧ (ranges.get i).nextRangeIndex = is.headD stop ∧ Linked ranges stop is

/-- The ranges at the indices `is`. -/
def rangesAt (ranges : MutableRangeList δ) (is : List ℕ) : List (Range δ) :=
  is.map fun i => (ranges.get i).range

lemma linked_append (stop : ℕ) (is js : List ℕ) :
    Linked ranges stop (is ++ js) ↔ Linked ranges (js.headD stop) is ∧ Linked ranges stop js := by
  induction is with
  | nil => simp [Linked]
  | cons i is ih =>
    have hhead : (is ++ js).headD stop = is.headD (js.headD stop) := by cases is <;> rfl
    simp only [cons_append, Linked, ih, hhead, and_assoc]

variable {is : List ℕ} {stop : ℕ} {ranges : MutableRangeList δ} {ranges' : MutableRangeList δ}

/-- The links of a chain do not change when the vector grows and no link of it is rewritten. -/
lemma Linked.congr (h : Linked ranges stop is) (hsize : ranges.size ≤ ranges'.size)
    (hnext : ∀ i ∈ is, (ranges'.get i).nextRangeIndex = (ranges.get i).nextRangeIndex) :
    Linked ranges' stop is := by
  induction is with
  | nil => trivial
  | cons i is ih =>
    refine ⟨h.1.trans_le hsize, ?_, ih h.2.2 fun j hj => hnext j (mem_cons_of_mem _ hj)⟩
    rw [hnext i mem_cons_self, h.2.1]

lemma Linked.lt_size (h : Linked ranges stop is) {i : ℕ} (hi : i ∈ is) : i < ranges.size := by
  induction is with
  | nil => simp at hi
  | cons j is ih =>
    rcases mem_cons.mp hi with rfl | hi
    · exact h.1
    · exact ih h.2.2 hi

lemma rangesAt_congr
    (h : ∀ i ∈ is, (ranges'.get i).range = (ranges.get i).range) :
    rangesAt ranges' is = rangesAt ranges is := map_congr_left h

/-- A position in the list: the ranges `passed` end at the index `left`, and the ranges `rest`
start at the index `right`. -/
def Cursor (ranges : MutableRangeList δ) (left right : ℕ) (passed rest : List (Range δ)) : Prop :=
  ∃ is js : List ℕ, (is ++ js).Nodup ∧ (is ++ js).head? = some 0 ∧ Linked ranges 0 (is ++ js) ∧
    (∀ i, is.getLast? = some i → i = left) ∧ js.headD 0 = right ∧
    rangesAt ranges is = passed ∧ rangesAt ranges js = rest

variable {ranges : MutableRangeList δ} {left right : ℕ} {passed rest : List (Range δ)}
  {q : Range δ}

/-- The chain is never longer than the vector. -/
lemma Linked.length_le (h : Linked ranges stop is) (hnd : is.Nodup) : is.length ≤ ranges.size := by
  have hsub : is ⊆ List.range ranges.size := fun i hi => mem_range.mpr (h.lt_size hi)
  simpa using (hnd.subperm hsub).length_le

lemma iterate_eq_rangesAt (n i : ℕ) (is : List ℕ) (h : Linked ranges 0 (i :: is))
    (hzero : 0 ∉ is) (hlen : is.length < n) : iterate ranges n i = rangesAt ranges (i :: is) := by
  induction n generalizing i is with
  | zero => omega
  | succ n ih =>
    simp only [iterate, rangesAt]
    cases is with
    | nil => simp [h.2.1]
    | cons j is =>
      have hj : (ranges.get i).nextRangeIndex = j := h.2.1
      have hne : j ≠ 0 := fun h0 => hzero (by simp [h0])
      rw [hj, if_neg hne, ih j is h.2.2 (fun h0 => hzero (mem_cons_of_mem _ h0))
        (by simpa using hlen)]
      rfl

/-- Wherever the cursor stands, the iterator visits what was passed and then the rest. -/
lemma Cursor.toList_eq (h : Cursor ranges left right passed rest) :
    toList ranges = passed ++ rest := by
  obtain ⟨is, js, hnd, hhead, hlink, -, -, rfl, rfl⟩ := h
  rw [rangesAt, rangesAt, ← map_append]
  cases hks : is ++ js with
  | nil => simp [hks] at hhead
  | cons k ks =>
    rw [hks] at hnd hhead hlink
    obtain rfl : k = 0 := by simpa using hhead
    have hlen := hlink.length_le hnd
    exact iterate_eq_rangesAt _ 0 ks hlink (nodup_cons.mp hnd).1 (by simpa using hlen)

section

variable (h : Cursor ranges left right passed (q :: rest))

include h

/-- The active range of the loop is the first of the rest. -/
lemma Cursor.exists_cons : ∃ is js : List ℕ, (is ++ right :: js).Nodup ∧
    (is ++ right :: js).head? = some 0 ∧ Linked ranges 0 (is ++ right :: js) ∧
    (∀ i, is.getLast? = some i → i = left) ∧ rangesAt ranges is = passed ∧
    (ranges.get right).range = q ∧ rangesAt ranges js = rest := by
  obtain ⟨is, js, hnd, hhead, hlink, hlast, rfl, his, hjs⟩ := h
  cases js with
  | nil => simp [rangesAt] at hjs
  | cons j js => exact ⟨is, js, hnd, hhead, hlink, hlast, his, List.cons.inj hjs⟩

lemma Cursor.get_eq :
    (ranges.get right).first = q.first ∧ (ranges.get right).last = q.last ∧
      (ranges.get right).data = q.data := by
  obtain ⟨is, js, -, -, -, -, -, rfl, -⟩ := h.exists_cons
  exact ⟨rfl, rfl, rfl⟩

/-- Following the link of the active range passes it. -/
lemma Cursor.advance :
    Cursor ranges right (ranges.get right).nextRangeIndex (passed ++ [q]) rest ∧
      ((ranges.get right).nextRangeIndex == 0) = rest.isEmpty := by
  obtain ⟨is, js, hnd, hhead, hlink, hlast, rfl, rfl, rfl⟩ := h.exists_cons
  have hnext := ((linked_append ..).mp hlink).2.2.1
  have hassoc : is ++ [right] ++ js = is ++ right :: js := by simp
  refine ⟨⟨is ++ [right], js, ?_, ?_, ?_, ?_, hnext.symm, ?_, rfl⟩, ?_⟩
  · rwa [hassoc]
  · rwa [hassoc]
  · rwa [hassoc]
  · simp
  · simp [rangesAt]
  · rw [hnext]
    cases js with
    | nil => rfl
    | cons k js =>
      have hk : k ≠ 0 := by
        rintro rfl
        cases is <;> simp_all
      simp [rangesAt, hk]

/-- Rewriting the active range without touching its link. -/
lemma Cursor.modify (r : MutableRange δ)
    (hr : r.nextRangeIndex = (ranges.get right).nextRangeIndex) :
    Cursor (ranges.set right r) left right passed (r.range :: rest) := by
  obtain ⟨is, js, hnd, hhead, hlink, hlast, rfl, rfl, rfl⟩ := h.exists_cons
  obtain ⟨-, hndjs, hdisj⟩ := nodup_append.mp hnd
  refine ⟨is, right :: js, hnd, hhead, hlink.congr le_rfl ?_, hlast, rfl, ?_, ?_⟩
  · intro i _
    rw [get_set]
    split_ifs with hij
    · rw [hij, hr]
    · rfl
  · refine rangesAt_congr fun i hi => ?_
    rw [get_set_of_ne _ _ (hdisj i hi right mem_cons_self)]
  · rw [rangesAt, map_cons, get_set_self]
    congr 1
    refine rangesAt_congr fun i hi => ?_
    rw [get_set_of_ne]
    rintro rfl
    exact (nodup_cons.mp hndjs).1 hi

end

/-- Appending a range to the vector and linking it after the last range that was passed. -/
lemma cursor_link {ls js : List ℕ} {l : ℕ} {r : MutableRange δ} (hnd : (ls ++ [l] ++ js).Nodup)
    (hhead : (ls ++ [l] ++ js).head? = some 0) (hlink : Linked ranges 0 (ls ++ [l] ++ js))
    (hr : r.nextRangeIndex = js.headD 0) :
    Cursor ((ranges.push r).set l
        { (ranges.push r).get l with nextRangeIndex := ranges.size })
      ranges.size (js.headD 0) (rangesAt ranges (ls ++ [l]) ++ [r.range])
      (rangesAt ranges js) := by
  set ranges' := (ranges.push r).set l { (ranges.push r).get l with nextRangeIndex := ranges.size }
    with hrngs'
  have hlt : ∀ i ∈ ls ++ [l] ++ js, i < ranges.size := fun i hi => hlink.lt_size hi
  have hl : l < ranges.size := hlt l (by simp)
  -- only the link of `l` changes, and the new range is behind all others
  have hget : ∀ i < ranges.size, i ≠ l → ranges'.get i = ranges.get i := by
    intro i hi hil
    rw [get_set_of_ne _ _ hil, get_push_of_lt _ _ hi]
  have hgetl : ranges'.get l = { ranges.get l with nextRangeIndex := ranges.size } := by
    rw [get_set_self, get_push_of_lt _ _ hl]
  have hnew : ranges'.get ranges.size = r := by
    rw [get_set_of_ne _ _ hl.ne', get_push_self]
  have hrng : ∀ i ∈ ls ++ [l] ++ js, (ranges'.get i).range = (ranges.get i).range := by
    intro i hi
    by_cases hil : i = l
    · rw [hil, hgetl]
      rfl
    · rw [hget i (hlt i hi) hil]
  have hnotMem : ranges.size ∉ ls ++ [l] ++ js := fun hi => (hlt _ hi).false
  obtain ⟨hndl, hndjs, hdisj⟩ := nodup_append.mp hnd
  rw [linked_append, linked_append] at hlink
  obtain ⟨⟨hlinkls, hlinkl⟩, hlinkjs⟩ := hlink
  refine ⟨ls ++ [l] ++ [ranges.size], js, ?_, ?_, ?_, ?_, rfl, ?_, ?_⟩
  · have hperm : (ls ++ [l] ++ [ranges.size] ++ js).Perm (ranges.size :: (ls ++ [l] ++ js)) := by
      rw [append_assoc _ [ranges.size]]
      exact perm_middle
    exact hperm.nodup_iff.mpr (nodup_cons.mpr ⟨hnotMem, hnd⟩)
  · cases ls <;> simpa using hhead
  · rw [linked_append, linked_append, linked_append]
    have hsize : ranges.size ≤ ranges'.size := by simp [hrngs']
    refine ⟨⟨⟨?_, ?_⟩, ?_⟩, ?_⟩
    · refine hlinkls.congr hsize fun i hi => ?_
      have hil : i ≠ l := fun h => (nodup_append.mp hndl).2.2 i hi l (by simp) h
      rw [hget i (hlt i (by simp [hi])) hil]
    · exact ⟨hl.trans_le hsize, by rw [hgetl]; rfl, trivial⟩
    · exact ⟨by simp [hrngs'], by rw [hnew, hr]; rfl, trivial⟩
    · refine hlinkjs.congr hsize fun i hi => ?_
      have hil : i ≠ l := fun h => hdisj l (by simp) i hi h.symm
      rw [hget i (hlt i (by simp [hi])) hil]
  · simp
  · rw [rangesAt, map_append, map_singleton, hnew]
    congr 1
    exact rangesAt_congr fun i hi => hrng i (mem_append_left _ hi)
  · exact rangesAt_congr fun i hi => hrng i (mem_append_right _ hi)

/-- `insertBetween` passes the inserted range and leaves the cursor before the same range. -/
lemma Cursor.insertBetween (h : Cursor ranges left right passed (q :: rest)) (first last : ℕ)
    (data : δ) : let inserted := insertBetween ranges left right first last data
    Cursor inserted.1 inserted.2.1 inserted.2.2 (passed ++ [⟨first, last, data⟩]) (q :: rest) := by
  obtain ⟨is, js, hnd, hhead, hlink, hlast, rfl, rfl, rfl⟩ := h.exists_cons
  unfold MutableRangeList.insertBetween
  rcases eq_nil_or_concat' is with rfl | ⟨ls, l, rfl⟩
  · -- nothing was passed: the active range is moved away from the index zero
    obtain rfl : right = 0 := by simpa using hhead
    rw [nil_append] at hnd hlink
    obtain ⟨hnotMem, hndjs⟩ := nodup_cons.mp hnd
    have hlt : ∀ i ∈ js, i < ranges.size := fun i hi => hlink.lt_size (mem_cons_of_mem _ hi)
    have hpos : 0 < ranges.size := hlink.1
    rw [if_pos rfl]
    set ranges' := (ranges.push (ranges.get 0)).set 0 ⟨data, ranges.size, first, last⟩ with hrngs'
    have hget : ∀ i ∈ js, ranges'.get i = ranges.get i := by
      intro i hi
      have hne : i ≠ 0 := fun h0 => hnotMem (h0 ▸ hi)
      rw [hrngs', get_set_of_ne _ _ hne, get_push_of_lt _ _ (hlt i hi)]
    have hmoved : ranges'.get ranges.size = ranges.get 0 := by
      rw [hrngs', get_set_of_ne _ _ hpos.ne', get_push_self]
    refine ⟨[0], ranges.size :: js, ?_, rfl, ?_, by simp, rfl, ?_, ?_⟩
    · have hmem : ranges.size ∉ js := fun hi => (hlt _ hi).false
      simp [hnotMem, hndjs, hmem, hpos.ne]
    · refine ⟨by simp, by simp, by simp, ?_, ?_⟩
      · rw [hmoved, hlink.2.1]
      · refine hlink.2.2.congr (by simp) fun i hi => ?_
        rw [hget i hi]
    · simp [rangesAt, MutableRange.range]
    · rw [rangesAt, map_cons, hmoved]
      congr 1
      exact rangesAt_congr fun i hi => by rw [hget i hi]
  · -- the new range is linked between the last one passed and the active one
    obtain rfl : l = left := hlast l (by simp)
    have hright : right ≠ 0 := by
      rintro rfl
      cases ls <;> simp_all
    rw [if_neg hright]
    exact cursor_link (r := ⟨data, right, first, last⟩) hnd hhead hlink rfl

/-- `appendRange` at the end of the list passes the appended range. -/
lemma Cursor.appendRange (h : Cursor ranges left right passed []) (first last : ℕ) (data : δ) :
    ∃ right', Cursor (appendRange ranges left first last data).1
      (appendRange ranges left first last data).2 right' (passed ++ [⟨first, last, data⟩]) [] := by
  obtain ⟨is, js, hnd, hhead, hlink, hlast, rfl, rfl, hjs⟩ := h
  obtain rfl : js = [] := by simpa [rangesAt] using hjs
  rcases eq_nil_or_concat' is with rfl | ⟨ls, l, rfl⟩
  · simp at hhead
  · obtain rfl : l = left := hlast l (by simp)
    have hsize : ranges.size ≠ 0 := by have := hlink.lt_size (i := l) (by simp); omega
    refine ⟨0, ?_⟩
    simp only [MutableRangeList.appendRange, if_neg hsize]
    exact cursor_link (r := ⟨data, 0, first, last⟩) hnd hhead hlink (by rfl)

/-- The list holds exactly the ranges `rs`, in this order. -/
def Represents (ranges : MutableRangeList δ) (rs : List (Range δ)) : Prop :=
  (ranges.size = 0 ∧ rs = []) ∨ ∃ left right, Cursor ranges left right rs []

variable {rs : List (Range δ)}

lemma Represents.toList_eq (h : Represents ranges rs) : toList ranges = rs := by
  rcases h with ⟨hsize, rfl⟩ | ⟨left, right, h⟩
  · simp [toList, hsize, iterate]
  · simpa using h.toList_eq

/-- A non-empty list can be walked from its first range. -/
lemma Represents.cursor (h : Represents ranges rs) (hsize : ranges.size ≠ 0) :
    Cursor ranges 0 0 [] rs := by
  rcases h with ⟨h0, -⟩ | ⟨left, right, is, js, hnd, hhead, hlink, -, -, rfl, hjs⟩
  · exact absurd h0 hsize
  · obtain rfl : js = [] := by simpa [rangesAt] using hjs
    rw [append_nil] at hnd hhead hlink
    refine ⟨[], is, hnd, hhead, hlink, by simp, ?_, rfl, rfl⟩
    cases is with
    | nil => rfl
    | cons i is => simpa using hhead

lemma represents_empty [Inhabited δ] : Represents (Vec.empty : MutableRangeList δ) [] :=
  .inl ⟨rfl, rfl⟩

/-! ### `extend` -/

/-- The part of the other list that `extend` has not merged yet. -/
def remaining (offset : ℕ) : List (Range ο) → List (Range ο)
  | [] => []
  | o :: os => ⟨o.first + offset, o.last, o.data⟩ :: os

/-- The state of the loop: `passed` is final, `rest` and `others` are still to be merged. -/
structure ExtendState.At (s : ExtendState δ ο) (passed rest : List (Range δ))
    (others : List (Range ο)) : Prop where
  cursor : Cursor s.ranges s.lastSelfRangeIndex s.selfRangeIndex passed rest
  reachedSelfEnd : s.reachedSelfEnd = rest.isEmpty
  others : remaining s.otherRangeOffset s.other = others

variable (conv : Converter ο δ) {s : ExtendState δ ο} {o : Range ο} {os : List (Range ο)}

lemma ExtendState.splitLeft_at {start : ℕ} (hoth : s.other = o :: os)
    (hstart : o.first + s.otherRangeOffset = start)
    (h : s.At passed (q :: rest) (⟨start, o.last, o.data⟩ :: os)) :
    (s.splitLeft conv o).other = o :: os ∧
      (s.splitLeft conv o).ranges.size =
        s.ranges.size + (leftPart conv q ⟨start, o.last, o.data⟩).length ∧
      (s.splitLeft conv o).At (passed ++ leftPart conv q ⟨start, o.last, o.data⟩)
        (⟨max q.first start, q.last, q.data⟩ :: rest)
        (⟨max q.first start, o.last, o.data⟩ :: os) := by
  obtain ⟨hcur, hend, hothers⟩ := h
  obtain ⟨hfst, hlast, hdata⟩ := hcur.get_eq
  simp only [splitLeft, leftPart, hfst, hstart]
  split_ifs with h₁ h₂
  · have hmod := hcur.modify { s.ranges.get s.selfRangeIndex with first := start } rfl
    have hins := hmod.insertBetween q.first (start - 1) q.data
    rw [max_eq_right h₁.le]
    refine ⟨hoth, by simp, ?_, hend, hothers⟩
    simpa [MutableRange.range, hlast, hdata] using hins
  · have hins := hcur.insertBetween start (q.first - 1) (conv.convert o.data)
    rw [max_eq_left h₂.le]
    refine ⟨hoth, by simp, hins, hend, ?_⟩
    simp only [hoth, remaining]
    rw [hins.get_eq.1]
    congr 2
    omega
  · obtain rfl : q.first = start := by omega
    rw [max_self, append_nil]
    exact ⟨hoth, by simp, hcur, hend, hothers⟩

/-- What merging two ranges that start at the same point passes, and what remains of them. -/
lemma ExtendState.mergeAligned_at (hoth : s.other = o :: os)
    (h : s.At passed (q :: rest) (⟨q.first, o.last, o.data⟩ :: os)) (hle : o.first ≤ q.last) :
    ((s.mergeAligned conv o os).At
        (passed ++ [⟨q.first, min q.last o.last, conv.extend q.data o.data⟩])
        (RangeMap.rest o.last q rest) (RangeMap.rest q.last o os)) ∧
      (s.mergeAligned conv o os).ranges.size + rest.length =
        s.ranges.size + (RangeMap.rest o.last q rest).length := by
  obtain ⟨hcur, hend, -⟩ := h
  obtain ⟨hfst, hlast, hdata⟩ := hcur.get_eq
  have hmod := hcur.modify { s.ranges.get s.selfRangeIndex with
    data := conv.extend q.data o.data } rfl
  obtain ⟨hadv, hnil⟩ := hmod.advance
  rw [get_set_self] at hadv hnil
  simp only [mergeAligned, RangeMap.rest, hfst, hlast, hdata]
  rcases lt_trichotomy q.last o.last with hlt | heq | hgt
  · rw [if_neg hlt.ne, if_neg hlt.asymm, min_eq_left hlt.le, if_neg hlt.asymm, if_pos hlt]
    refine ⟨⟨?_, hnil, ?_⟩, by simp⟩
    · simpa [MutableRange.range, hfst, hlast] using hadv
    · simp only [remaining, hoth]
      congr 2
      omega
  · rw [if_pos heq, heq, if_neg (lt_irrefl _), if_neg (lt_irrefl _)]
    refine ⟨⟨?_, hnil, ?_⟩, by simp⟩
    · simpa [MutableRange.range, hfst, hlast, heq] using hadv
    · cases os <;> rfl
  · rw [if_neg hgt.ne', if_pos hgt, min_eq_right hgt.le, if_pos hgt, if_neg hgt.asymm]
    have hins := (hcur.modify { s.ranges.get s.selfRangeIndex with
      first := o.last + 1 } rfl).insertBetween q.first o.last (conv.extend q.data o.data)
    refine ⟨⟨?_, ?_, ?_⟩, by simp; omega⟩
    · simpa [MutableRange.range, hlast, hdata] using hins
    · simpa using hend
    · cases os <;> rfl

/-- One iteration passes a range of one of the lists and does not change what the whole merge
amounts to. -/
lemma ExtendState.step_at (h : s.At passed (q :: rest) (o :: os)) :
    ∃ passed' rest' others', (s.step conv).At passed' rest' others' ∧
      passed' ++ merge conv rest' others' = passed ++ merge conv (q :: rest) (o :: os) ∧
      (s.step conv).ranges.size + (passed ++ q :: rest).length =
        s.ranges.size + (passed' ++ rest').length ∧
      rest'.length + others'.length < (q :: rest).length + (o :: os).length := by
  obtain ⟨hcur, hend, hoth⟩ := h
  obtain ⟨o', hother, rfl⟩ : ∃ o', s.other = o' :: os ∧
      o = ⟨o'.first + s.otherRangeOffset, o'.last, o'.data⟩ := by
    cases hs : s.other with
    | nil => simp [hs, remaining] at hoth
    | cons o' os' =>
      rw [hs] at hoth
      obtain ⟨rfl, rfl⟩ := List.cons.inj hoth
      exact ⟨o', rfl, rfl⟩
  obtain ⟨hfst, hlast, -⟩ := hcur.get_eq
  simp only [step, hother, hfst, hlast]
  -- `q` is before `o`, behind it, or they overlap
  by_cases h₁ : q.last < o'.first + s.otherRangeOffset
  · obtain ⟨hadv, hnil⟩ := hcur.advance
    refine ⟨passed ++ [q], rest, _, ⟨?_, ?_, rfl⟩, ?_, ?_, ?_⟩
    · simpa [h₁] using hadv
    · simpa only [h₁, if_true] using hnil
    · simp [h₁, remaining, merge]
    · simp [h₁]
    · simp [h₁, remaining]
  by_cases h₂ : o'.last < q.first
  · have hins := hcur.insertBetween (o'.first + s.otherRangeOffset) o'.last (conv.convert o'.data)
    refine ⟨passed ++ [⟨o'.first + s.otherRangeOffset, o'.last, conv.convert o'.data⟩], q :: rest,
      os, ⟨?_, ?_, ?_⟩, ?_, ?_, ?_⟩
    · simpa [h₁, h₂] using hins
    · simpa [h₁, h₂] using hend
    · simp only [h₁, h₂]
      cases os <;> rfl
    · simp [h₁, h₂, Range.map, merge]
    · simp [h₁, h₂]
      omega
    · simp
  · obtain ⟨hother', hspl, hat⟩ := splitLeft_at conv hother rfl ⟨hcur, hend, hoth⟩
    obtain ⟨hmerge, hsize⟩ := mergeAligned_at conv hother' hat
      (by have := not_lt.mp h₁; simp only; omega)
    simp only [h₁, h₂, if_false]
    refine ⟨_, _, _, hmerge, ?_, ?_, ?_⟩
    · rw [merge_overlap conv (o := ⟨_, o'.last, _⟩) (not_lt.mp h₁) (not_lt.mp h₂),
        append_assoc, append_assoc]
      rfl
    · simp only [length_append, length_cons, length_nil] at hsize ⊢
      omega
    · simp only [RangeMap.rest]
      split_ifs <;> simp <;> omega

/-- The loop merges until one of the lists is exhausted. -/
lemma ExtendState.loop_at (n : ℕ) (h : s.At passed (q :: rest) (o :: os))
    (hn : (q :: rest).length + (o :: os).length ≤ n) :
    ∃ passed' rest' others', (loop conv n s).At passed' rest' others' ∧
      passed' ++ merge conv rest' others' = passed ++ merge conv (q :: rest) (o :: os) ∧
      (loop conv n s).ranges.size + (passed ++ q :: rest).length =
        s.ranges.size + (passed' ++ rest').length ∧
      (rest' = [] ∨ others' = []) := by
  induction n generalizing s passed q rest o os with
  | zero => simp at hn
  | succ n ih =>
    obtain ⟨passed', rest', others', hat, hmerge, hsize, hlt⟩ := step_at conv h
    have hoth : (s.step conv).other.isEmpty = others'.isEmpty := by
      rw [← hat.others]
      cases (s.step conv).other <;> rfl
    simp only [loop, hat.reachedSelfEnd, hoth]
    cases rest' with
    | nil => exact ⟨passed', [], others', by simpa using hat, hmerge, hsize, .inl rfl⟩
    | cons q' rest' =>
      cases others' with
      | nil => exact ⟨passed', q' :: rest', [], by simpa using hat, hmerge, hsize, .inr rfl⟩
      | cons o' os' =>
        obtain ⟨p, r, os'', hat', hmerge', hsize', hend⟩ := ih hat (by omega)
        refine ⟨p, r, os'', by simpa using hat', hmerge'.trans hmerge, ?_, hend⟩
        simp only [isEmpty_cons, Bool.not_false, Bool.and_self, if_true]
        omega

lemma Cursor.represents (h : Cursor ranges left right passed rest) :
    Represents ranges (passed ++ rest) := by
  obtain ⟨is, js, hnd, hhead, hlink, -, -, rfl, rfl⟩ := h
  refine .inr ⟨(is ++ js).getLastD 0, 0, is ++ js, [], ?_, ?_, ?_, ?_, rfl, ?_, rfl⟩
  · simpa using hnd
  · simpa using hhead
  · simpa using hlink
  · intro i hi
    rw [getLastD_eq_getLast?, hi]
    rfl
  · simp [rangesAt]

lemma foldl_appendRange (h : Cursor ranges left right passed []) :
    let ranges' := (os.foldl (fun r o => appendRange r.1 r.2 o.first o.last (conv.convert o.data))
      (ranges, left)).1
    Represents ranges' (passed ++ os.map (Range.map conv.convert)) ∧
      ranges'.size = ranges.size + os.length := by
  induction os generalizing ranges left right passed with
  | nil => simpa using h.represents
  | cons o os ih =>
    obtain ⟨right', h'⟩ := h.appendRange o.first o.last (conv.convert o.data)
    obtain ⟨hrep, hsize⟩ := ih h'
    refine ⟨by simpa [Range.map] using hrep, hsize.trans ?_⟩
    simp only [size_appendRange, length_cons]
    omega

lemma ExtendState.appendRest_represents {others : List (Range ο)} (h : s.At passed rest others)
    (hend : rest = [] ∨ others = []) :
    Represents (s.appendRest conv) (passed ++ merge conv rest others) ∧
      (s.appendRest conv).size + (passed ++ rest).length =
        s.ranges.size + (passed ++ merge conv rest others).length := by
  obtain ⟨hcur, -, hoth⟩ := h
  cases hother : s.other with
  | nil =>
    obtain rfl : others = [] := by rw [← hoth, hother]; rfl
    have hmerge : merge conv rest [] = rest := by cases rest <;> simp [merge]
    simpa only [appendRest, hother, hmerge, and_true] using hcur.represents
  | cons o os =>
    obtain rfl : rest = [] := by
      refine hend.resolve_right fun h => ?_
      rw [← hoth, hother] at h
      simp [remaining] at h
    obtain ⟨right', h'⟩ := hcur.appendRange (o.first + s.otherRangeOffset) o.last
      (conv.convert o.data)
    obtain ⟨hrep, hsize⟩ := foldl_appendRange conv h'
    rw [← hoth, merge]
    refine ⟨by simpa [appendRest, hother, remaining, Range.map] using hrep, ?_⟩
    simp only [appendRest, hother, hsize, remaining, size_appendRange, length_append,
      length_map, length_cons, length_nil]
    omega

/-- The vector while `initializeFrom` fills it: every range is linked to the next index. -/
lemma foldl_push (os : List (Range ο)) (ranges : MutableRangeList δ) :
    let filled := os.foldl (fun ranges o =>
      ranges.push ⟨conv.convert o.data, ranges.size + 1, o.first, o.last⟩) ranges
    filled.size = ranges.size + os.length ∧ (∀ i < ranges.size, filled.get i = ranges.get i) ∧
      Linked filled (ranges.size + os.length) (List.range' ranges.size os.length) ∧
      rangesAt filled (List.range' ranges.size os.length) = os.map (Range.map conv.convert) := by
  induction os generalizing ranges with
  | nil => simp [Linked, rangesAt]
  | cons o os ih =>
    obtain ⟨hsize, hget, hlink, hat⟩ := ih
      (ranges.push ⟨conv.convert o.data, ranges.size + 1, o.first, o.last⟩)
    simp only [size_push] at hsize hget hlink hat
    have hnew := hget ranges.size (by omega)
    rw [get_push_self] at hnew
    simp only [foldl_cons, length_cons, range'_succ]
    refine ⟨by rw [hsize]; omega, fun i hi => ?_, ⟨?_, ?_, ?_⟩, ?_⟩
    · rw [hget i (by omega), get_push_of_lt _ _ hi]
    · omega
    · rw [hnew]
      cases os <;> simp [range'_succ]
    · convert hlink using 1
      omega
    · rw [rangesAt, map_cons, hnew]
      congr 1

lemma initializeFrom_represents [Inhabited δ] (hos : os ≠ []) :
    Represents (initializeFrom conv os) (os.map (Range.map conv.convert)) ∧
      (initializeFrom conv os).size = os.length := by
  obtain ⟨hsize, -, hlink, hat⟩ := foldl_push conv os empty
  obtain ⟨n, hn⟩ : ∃ n, os.length = n + 1 := ⟨os.length - 1, by
    have := length_pos_of_ne_nil hos
    omega⟩
  simp only [size_empty, hn, Nat.zero_add] at hsize hlink hat
  set filled := os.foldl (fun ranges o =>
    ranges.push ⟨conv.convert o.data, ranges.size + 1, o.first, o.last⟩)
    (empty : MutableRangeList δ) with hfil
  have hinit : initializeFrom conv os = filled.set n { filled.get n with nextRangeIndex := 0 } := by
    simp only [initializeFrom, ← hfil, hsize, Nat.add_sub_cancel]
  have hrng : List.range' 0 (n + 1) = List.range' 0 n ++ [n] := by
    simp [range'_concat]
  have hnd : (List.range' 0 n ++ [n]).Nodup := hrng ▸ nodup_range'
  rw [hrng, linked_append] at hlink
  have hne : ∀ i ∈ List.range' 0 n, i ≠ n := by
    intro i hi
    have := mem_range'_1.mp hi
    omega
  refine ⟨.inr ⟨n, 0, List.range' 0 n ++ [n], [], by simpa using hnd, ?_, ?_, ?_, rfl, ?_, rfl⟩,
    by rw [hn]; exact hsize⟩
  · cases n <;> simp [range'_succ]
  · rw [append_nil, linked_append, hinit]
    refine ⟨hlink.1.congr le_rfl fun i hi => ?_, ?_, ?_, trivial⟩
    · rw [get_set_of_ne _ _ (hne i hi)]
    · simp [hsize]
    · rw [get_set_self]
      rfl
  · simp
  · rw [hinit, ← hat, hrng]
    refine rangesAt_congr fun i _ => ?_
    rw [get_set]
    split_ifs with hi
    · rw [hi]
      rfl
    · rfl

/-- The loop of `extend` ends, with one of the lists exhausted. -/
lemma loop_represents (h : Represents ranges rs) (hsize : ranges.size ≠ 0) :
    let s := ExtendState.loop conv (ranges.size + (o :: os).length)
      ⟨ranges, 0, 0, false, o :: os, 0⟩
    ∃ passed rest others, s.At passed rest others ∧
      passed ++ merge conv rest others = merge conv rs (o :: os) ∧
      s.ranges.size + rs.length = ranges.size + (passed ++ rest).length ∧
      (rest = [] ∨ others = []) := by
  have hcur := h.cursor hsize
  obtain ⟨is, js, hnd, hhead, hlink, -, -, his, hjs⟩ := id hcur
  cases rs with
  | nil => simp_all [rangesAt]
  | cons r rs =>
    have hlen : (r :: rs).length ≤ ranges.size := by
      have := hlink.length_le hnd
      rw [← hjs, rangesAt, length_map]
      simp only [length_append] at this
      omega
    have hst : ExtendState.At ⟨ranges, 0, 0, false, o :: os, 0⟩ [] (r :: rs) (o :: os) :=
      ⟨hcur, rfl, rfl⟩
    exact ExtendState.loop_at conv _ hst (by simpa using hlen)

/-- `extend` merges the other list into the list, and stores as many ranges as it links. -/
theorem extend_represents [Inhabited δ] (h : Represents ranges rs) (other : List (Range ο)) :
    Represents (extend conv ranges other) (merge conv rs other) ∧
      (extend conv ranges other).size + rs.length = ranges.size + (merge conv rs other).length := by
  unfold extend
  cases other with
  | nil =>
    have hmerge : merge conv rs [] = rs := by cases rs <;> simp [merge]
    simpa [hmerge] using h
  | cons o os =>
    simp only [isEmpty_cons, Bool.false_eq_true, if_false]
    split_ifs with hsize
    · obtain rfl : rs = [] := by
        rw [← h.toList_eq, toList, hsize, iterate]
      obtain ⟨hrep, hlen⟩ := initializeFrom_represents conv (cons_ne_nil o os)
      rw [merge]
      exact ⟨hrep, by simp [hlen, hsize]⟩
    · obtain ⟨passed, rest, others, hat, hmerge, hlen, hend⟩ := loop_represents conv h hsize
      obtain ⟨hrep, hsize'⟩ := ExtendState.appendRest_represents conv hat hend
      rw [← hmerge]
      exact ⟨hrep, by omega⟩

/-- The links from the index zero visit every stored range once, in increasing order. -/
structure WellFormed (ranges : MutableRangeList δ) : Prop where
  represents : Represents ranges (toList ranges)
  size_eq : ranges.size = (toList ranges).length
  sorted : Sorted (toList ranges)

/-- `extend` keeps the list well formed and merges point by point; its loop ends because one of the
lists is exhausted. -/
theorem WellFormed.extend_pointwise [Inhabited δ] (h : WellFormed ranges)
    {other : List (Range ο)} (hother : Sorted other) :
    WellFormed (extend conv ranges other) ∧
      (∀ c, lookup (toList (extend conv ranges other)) c =
        match lookup (toList ranges) c, lookup other c with
        | some d, some o => some (conv.extend d o)
        | some d, none => some d
        | none, some o => some (conv.convert o)
        | none, none => none) ∧
      (ranges.size ≠ 0 → other ≠ [] →
        let s := ExtendState.loop conv (ranges.size + other.length) ⟨ranges, 0, 0, false, other, 0⟩
        s.reachedSelfEnd = true ∨ s.other = []) := by
  obtain ⟨hrep, hsize⟩ := extend_represents conv h.represents other
  have hlist := hrep.toList_eq
  refine ⟨⟨hlist ▸ hrep, ?_, ?_⟩, fun c => ?_, fun hne hcons => ?_⟩
  · have := h.size_eq
    rw [hlist]
    omega
  · exact hlist ▸ sorted_merge conv _ other h.sorted hother
  · rw [hlist, lookup_merge conv _ other h.sorted hother]
    cases lookup (toList ranges) c <;> cases lookup other c <;> rfl
  · obtain ⟨o, os, rfl⟩ := exists_cons_of_ne_nil hcons
    obtain ⟨passed, rest, others, hat, -, -, hend⟩ := loop_represents conv h.represents hne
    refine hend.imp (fun hrest => ?_) fun hothers => ?_
    · rw [hat.reachedSelfEnd, hrest, isEmpty_nil]
    · have hnil := hat.others.trans hothers
      revert hnil
      cases (ExtendState.loop conv _ _).other <;> simp [remaining]

/-- A list that is filled by one `extend` and split by the next one. -/
theorem WellFormed.extend_pointwise_split :
    let conv : Converter ℕ (List ℕ) := ⟨fun o => [o], fun d o => d ++ [o]⟩
    let ranges := extend conv Vec.empty [⟨1, 3, 7⟩]
    WellFormed ranges ∧ Sorted [(⟨2, 5, 8⟩ : Range ℕ)] ∧
      WellFormed (extend conv ranges [⟨2, 5, 8⟩]) ∧
      lookup (toList (extend conv ranges [⟨2, 5, 8⟩])) 3 = some [7, 8] := by
  intro conv ranges
  have hempty : WellFormed (empty : MutableRangeList (List ℕ)) := ⟨represents_empty, rfl, trivial⟩
  have hranges : WellFormed ranges := (hempty.extend_pointwise conv (by simp)).1
  have hother : Sorted [(⟨2, 5, 8⟩)] := by simp
  obtain ⟨hwell, hlookup, -⟩ := hranges.extend_pointwise conv hother
  exact ⟨hranges, hother, hwell, (hlookup 3).trans rfl⟩

/-! ### What a range list stands for -/

/-- The list is a sorted list of ranges up to `bound`, and the data of a character is given
by `f`. -/
def Holds (bound : ℕ) (ranges : MutableRangeList δ) (f : ℕ → Option δ) : Prop :=
  ∃ rs, Represents ranges rs ∧ Sorted rs ∧ (∀ r ∈ rs, r.last ≤ bound) ∧ ∀ c, lookup rs c = f c

lemma holds_empty [Inhabited δ] (bound : ℕ) :
    Holds bound (Vec.empty : MutableRangeList δ) fun _ => none :=
  ⟨[], represents_empty, trivial, by simp, fun _ => rfl⟩

variable {bound : ℕ} {f : ℕ → Option δ}

theorem Holds.extend [Inhabited δ] (h : Holds bound ranges f)
    {other : List (Range ο)} (hoth : Sorted other) (hbound : ∀ r ∈ other, r.last ≤ bound) :
    Holds bound (extend conv ranges other) fun c => conv.combine (f c) (lookup other c) := by
  obtain ⟨rs, hrep, hsort, hlast, hlook⟩ := h
  refine ⟨merge conv rs other, (extend_represents conv hrep other).1, ?_, ?_, ?_⟩
  · exact sorted_merge conv rs other hsort hoth
  · exact last_le_of_mem_merge conv bound rs other hsort hoth hlast hbound
  · intro c
    rw [lookup_merge conv rs other hsort hoth, hlook]

lemma Holds.sorted (h : Holds bound ranges f) : Sorted (toList ranges) := by
  obtain ⟨rs, hrep, hsort, -⟩ := h
  exact hrep.toList_eq ▸ hsort

lemma Holds.last_le (h : Holds bound ranges f) : ∀ r ∈ toList ranges, r.last ≤ bound := by
  obtain ⟨rs, hrep, -, hlast, -⟩ := h
  exact hrep.toList_eq ▸ hlast

lemma Holds.lookup_eq (h : Holds bound ranges f) (c : ℕ) : lookup (toList ranges) c = f c := by
  obtain ⟨rs, hrep, -, -, hlook⟩ := h
  exact hrep.toList_eq ▸ hlook c

lemma Holds.congr {f g : ℕ → Option δ} (h : Holds bound ranges f)
    (hfg : ∀ c, f c = g c) : Holds bound ranges g := by
  rwa [← funext hfg]

end MutableRangeList

end WebKit.ContentExtensions
