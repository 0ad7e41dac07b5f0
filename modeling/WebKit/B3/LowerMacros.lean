import WebKit.B3.Value
import WebKit.Core.Vec

/-!
# Switches in `B3LowerMacros`

`recursivelyBuildSwitch` turns a switch over sorted cases into jump tables, chains of comparisons
and binary splits. The blocks it emits form a tree, `Code`, which `exec` runs on a value of the
child.
-/

namespace WebKit.B3

open List
open BitVec hiding lt_trichotomy not_or

structure SwitchCase (τ : Type*) where
  caseValue : ℤ
  target : τ

namespace LowerMacros

variable {τ : Type*} {w : ℕ}

/-! ### The lowered control flow -/

/-- The blocks emitted for a switch. A table branches to `fallThrough` when the child minus
`firstValue` is above `limit`, and jumps through its entry otherwise. An entry that was not
written is `none`. -/
inductive Code (w : ℕ) (τ : Type*) where
  | jump (target : τ)
  | equal (value : BitVec w) (target : τ) (nextCheck : Code w τ)
  | lessThan (value : BitVec w) (left right : Code w τ)
  | table (firstValue limit : BitVec w) (fallThrough : τ) (jumpTable : List (Option τ))

/-- The target that is reached. A jump outside of the table or through an entry that was not
written reaches nothing. -/
def Code.exec (child : BitVec w) : Code w τ → Option τ
  | .jump target => some target
  | .equal value target nextCheck => if child = value then some target else nextCheck.exec child
  | .lessThan value left right => if child.slt value then left.exec child else right.exec child
  | .table firstValue limit fallThrough jumpTable =>
    let index := child - firstValue
    if limit.ult index then some fallThrough else (jumpTable[index.toNat]?).join

/-- The result of an operation on `int64_t`, which is undefined when it overflows. -/
def int64 (x : ℤ) : Option ℤ := if -2 ^ 63 ≤ x ∧ x < 2 ^ 63 then some x else none

def minCasesForTable : ℕ := 7

def densityLimit : ℤ := 4

def leafThreshold : ℕ := 3

/-- Whether the cases are many and dense enough for a table. -/
def usesTable (cases : Vec (SwitchCase τ)) (start stop : ℕ) : Option Bool :=
  if stop - start ≥ minCasesForTable then
    let firstValue := (cases.get start).caseValue
    let lastValue := (cases.get (stop - 1)).caseValue
    (int64 (lastValue - firstValue)).bind fun difference =>
      (int64 (difference + 1)).map fun size => decide (size.tdiv (stop - start : ℕ) < densityLimit)
  else some false

/-- The table that the generator of the patchpoint fills. The handled indices are visited from the
lowest to the highest one, while the labels are in the order of the cases. -/
def jumpTable (cases : List (SwitchCase τ)) (fallThrough : τ) (firstValue : ℤ) (tableSize : ℕ) :
    List (Option τ) :=
  let handledIndices := fun i => cases.any fun c => (c.caseValue - firstValue).toNat == i
  let hasUnhandledIndex := (List.range tableSize).any fun i => !handledIndices i
  let labels := cases.map SwitchCase.target ++ if hasUnhandledIndex then [fallThrough] else []
  let table := List.replicate tableSize (if hasUnhandledIndex then labels.getLast? else none)
  (((List.range tableSize).filter handledIndices).zip labels).foldl
    (fun table entry => table.set entry.1 (some entry.2)) table

/-- The cases from `start` to `stop`. -/
def slice (cases : Vec (SwitchCase τ)) (start stop : ℕ) : List (SwitchCase τ) :=
  (List.range' start (stop - start)).map cases.get

def buildTable (w : ℕ) (cases : Vec (SwitchCase τ)) (fallThrough : τ) (start stop : ℕ) : Code w τ :=
  let firstValue := (cases.get start).caseValue
  let lastValue := (cases.get (stop - 1)).caseValue
  .table (BitVec.ofInt w firstValue) (BitVec.ofInt w (lastValue - firstValue)) fallThrough
    (jumpTable (slice cases start stop) fallThrough firstValue (lastValue - firstValue + 1).toNat)

/-- Compare the child with one case after the other. -/
def equalChain (w : ℕ) (cases : List (SwitchCase τ)) (last : Code w τ) : Code w τ :=
  cases.foldr (fun c nextCheck => .equal (BitVec.ofInt w c.caseValue) c.target nextCheck) last

/-- Whether the last case of a leaf needs no comparison. -/
def allConsecutive (cases : Vec (SwitchCase τ)) (start : ℕ) (hardStart : Bool) (stop : ℕ) : Bool :=
  (hardStart || (start != 0 &&
    (cases.get (start - 1)).caseValue == (cases.get start).caseValue - 1)) &&
  decide (stop < cases.size) &&
  (cases.get (stop - 1)).caseValue == (cases.get stop).caseValue - 1 &&
  (List.range (stop - start - 1)).all fun i =>
    (cases.get (start + i)).caseValue + 1 == (cases.get (start + i + 1)).caseValue

def buildLeaf (w : ℕ) (cases : Vec (SwitchCase τ)) (fallThrough : τ) (start : ℕ)
    (hardStart : Bool) (stop : ℕ) : Code w τ :=
  if allConsecutive cases start hardStart stop then
    equalChain w (slice cases start (stop - 1)) (.jump (cases.get (stop - 1)).target)
  else equalChain w (slice cases start stop) (.jump fallThrough)

def recursivelyBuildSwitch (w : ℕ) (cases : Vec (SwitchCase τ)) (fallThrough : τ) (start : ℕ)
    (hardStart : Bool) (stop : ℕ) : Option (Code w τ) :=
  (usesTable cases start stop).bind fun table =>
    if table then some (buildTable w cases fallThrough start stop)
    else if hsize : stop - start ≤ leafThreshold then
      some (buildLeaf w cases fallThrough start hardStart stop)
    else
      let medianIndex := (start + stop) / 2
      (recursivelyBuildSwitch w cases fallThrough start hardStart medianIndex).bind fun left =>
        (recursivelyBuildSwitch w cases fallThrough medianIndex true stop).map fun right =>
          .lessThan (BitVec.ofInt w (cases.get medianIndex).caseValue) left right
termination_by stop - start
decreasing_by all_goals simp only [leafThreshold] at hsize; omega

/-! ### What the cases select -/

/-- The cases of a switch on values of `w` bits, in the order of their values. -/
structure SortedCases (w : ℕ) (τ : Type*) extends Vec (SwitchCase τ) where
  size_pos : 0 < size
  lt_of_lt : ∀ i j, i < j → j < size → (get i).caseValue < (get j).caseValue
  fits : ∀ i < size, -2 ^ (w - 1) ≤ (get i).caseValue ∧ (get i).caseValue < 2 ^ (w - 1)

namespace SortedCases

variable (cases : SortedCases w τ)

def value (i : ℕ) : ℤ := (cases.get i).caseValue

/-- The outcome `o` for the value `v` when only the cases from `start` to `stop` are left. -/
def Selects (fallThrough : τ) (start stop : ℕ) (v : ℤ) (o : Option τ) : Prop :=
  (∀ i, start ≤ i → i < stop → cases.value i = v → o = some (cases.get i).target) ∧
  ((∀ i, start ≤ i → i < stop → cases.value i ≠ v) → o = some fallThrough)

/-- The values that reach the code for the cases from `start` to `stop`. -/
def Reaches (start : ℕ) (hardStart : Bool) (stop : ℕ) (v : ℤ) : Prop :=
  (hardStart = true → cases.value start ≤ v) ∧ (stop < cases.size → v < cases.value stop)

variable {cases} {i : ℕ}

lemma value_le {j : ℕ} (hij : i ≤ j) (hj : j < cases.size) : cases.value i ≤ cases.value j := by
  rcases hij.eq_or_lt with rfl | hlt
  · exact le_rfl
  · exact (cases.lt_of_lt i j hlt hj).le

lemma value_fits (hi : i < cases.size) :
    -2 ^ (w - 1) ≤ cases.value i ∧ cases.value i < 2 ^ (w - 1) := cases.fits i hi

lemma eq_of_value_eq {j : ℕ} (hi : i < cases.size) (hj : j < cases.size)
    (h : cases.value i = cases.value j) : i = j := by
  rcases lt_trichotomy i j with hlt | heq | hlt
  · exact absurd h (cases.lt_of_lt i j hlt hj).ne
  · exact heq
  · exact absurd h (cases.lt_of_lt j i hlt hi).ne'

section

variable (hw : 0 < w) (hi : i < cases.size)

include hw hi

/-- The constant of a case has the value of the case. -/
lemma toInt_ofInt_value : (BitVec.ofInt w (cases.value i)).toInt = cases.value i :=
  toInt_ofInt_eq_self hw (value_fits hi).1 (value_fits hi).2

lemma eq_ofInt_iff (child : BitVec w) :
    child = BitVec.ofInt w (cases.value i) ↔ cases.value i = child.toInt := by
  rw [← toInt_inj, toInt_ofInt_value hw hi, eq_comm]

lemma slt_ofInt_iff (child : BitVec w) :
    child.slt (BitVec.ofInt w (cases.value i)) = true ↔ child.toInt < cases.value i := by
  rw [slt_iff_toInt_lt, toInt_ofInt_value hw hi]

end

end SortedCases

open SortedCases

variable {cases : SortedCases w τ} {fallThrough : τ} {start stop : ℕ}

/-! ### Leaves and splits -/

section

variable {hardStart : Bool} {child : BitVec w}

/-- The first case with the value of the child is taken. -/
lemma exec_equalChain (cs : List (SwitchCase τ)) (last : Code w τ) :
    (equalChain w cs last).exec child =
      ((cs.find? (child = BitVec.ofInt w ·.caseValue)).map SwitchCase.target).or
        (last.exec child) := by
  induction cs with
  | nil => rfl
  | cons c cs ih =>
    change ite _ _ ((equalChain w cs last).exec child) = _
    by_cases hc : child = BitVec.ofInt w c.caseValue
    · simp [hc]
    · simp [hc, ih]

lemma mem_slice {cs : Vec (SwitchCase τ)} {c : SwitchCase τ} :
    c ∈ slice cs start stop ↔ ∃ i, start ≤ i ∧ i < stop ∧ cs.get i = c := by
  simp only [slice, mem_map, mem_range'_1]
  constructor
  · rintro ⟨i, ⟨h₁, h₂⟩, rfl⟩
    exact ⟨i, h₁, by omega, rfl⟩
  · rintro ⟨i, h₁, h₂, rfl⟩
    exact ⟨i, ⟨h₁, by omega⟩, rfl⟩

/-- A chain of comparisons selects among its cases, and leaves the other values to `last`. -/
lemma selects_equalChain (hw : 0 < w) (hstop : stop ≤ cases.size) (target : τ) :
    cases.Selects target start stop child.toInt
      ((equalChain w (slice cases.toVec start stop) (.jump target)).exec child) := by
  have hcase : ∀ i < stop, child = BitVec.ofInt w (cases.get i).caseValue ↔
      cases.value i = child.toInt :=
    fun i hi => eq_ofInt_iff hw (hi.trans_le hstop) child
  rw [exec_equalChain]
  cases hfind : (slice cases.toVec start stop).find? _ with
  | some c =>
    obtain ⟨j, hj₁, hj₂, rfl⟩ := mem_slice.mp (mem_of_find?_eq_some hfind)
    have heq := (hcase j hj₂).1 (by simpa using find?_some hfind)
    refine ⟨fun i h₁ h₂ hi => ?_, fun hnone => absurd heq (hnone j hj₁ hj₂)⟩
    rw [eq_of_value_eq (h₂.trans_le hstop) (hj₂.trans_le hstop) (hi.trans heq.symm)]
    rfl
  | none =>
    refine ⟨fun i h₁ h₂ hi => ?_, fun _ => rfl⟩
    refine absurd ((hcase i h₂).mpr hi) ?_
    simpa using find?_eq_none.1 hfind _ (mem_slice.mpr ⟨i, h₁, h₂, rfl⟩)

/-- Consecutive cases leave no value between the first and the last one. -/
lemma exists_value_eq_of_consecutive
    (hcons : ∀ i, start ≤ i → i + 1 < stop → cases.value i + 1 = cases.value (i + 1)) {v : ℤ}
    (hst : cases.value start ≤ v) (hlt : start < stop) (hv : v ≤ cases.value (stop - 1)) :
    ∃ i, start ≤ i ∧ i < stop ∧ cases.value i = v := by
  have hval : ∀ k, start + k < stop → cases.value (start + k) = cases.value start + k := by
    intro k hk
    induction k with
    | zero => simp
    | succ k ih =>
      rw [← Nat.add_assoc, ← hcons (start + k) (by omega) (by omega), ih (by omega)]
      push_cast
      ring
  obtain ⟨k, rfl⟩ := Int.le.dest hst
  have hlast := hval (stop - 1 - start) (by omega)
  rw [show start + (stop - 1 - start) = stop - 1 by omega] at hlast
  exact ⟨start + k, by omega, by omega, hval k (by omega)⟩

lemma allConsecutive_spec (hst : hardStart = false → start = 0)
    (h : allConsecutive cases.toVec start hardStart stop = true) :
    hardStart = true ∧ stop < cases.size ∧ cases.value (stop - 1) = cases.value stop - 1 ∧
      ∀ i, start ≤ i → i + 1 < stop → cases.value i + 1 = cases.value (i + 1) := by
  simp only [allConsecutive, Bool.and_eq_true, Bool.or_eq_true, bne_iff_ne, beq_iff_eq,
    decide_eq_true_eq, all_eq_true, mem_range] at h
  obtain ⟨⟨⟨hhard, hlt⟩, hlast⟩, hcons⟩ := h
  refine ⟨?_, hlt, hlast, fun i h₁ h₂ => ?_⟩
  · rcases hhard with hhard | ⟨hne, -⟩
    · exact hhard
    · by_contra hf
      exact hne (hst (by simpa using hf))
  · have := hcons (i - start) (by omega)
    rw [show start + (i - start) = i by omega] at this
    exact this

lemma selects_buildLeaf (hw : 0 < w) (hlt : start < stop) (hstop : stop ≤ cases.size)
    (hst : hardStart = false → start = 0)
    (hreach : cases.Reaches start hardStart stop child.toInt) :
    cases.Selects fallThrough start stop child.toInt
      ((buildLeaf w cases.toVec fallThrough start hardStart stop).exec child) := by
  unfold buildLeaf
  split_ifs with hcons
  · obtain ⟨hhard, hsize, hlast, hnext⟩ := allConsecutive_spec hst hcons
    have hup := hreach.2 hsize
    -- the value is that of a case, and only the last case is not compared
    obtain ⟨j, hj₁, hj₂, hj⟩ := exists_value_eq_of_consecutive hnext (hreach.1 hhard) hlt (by omega)
    obtain ⟨hfnd, hrest⟩ := selects_equalChain hw ((Nat.sub_le stop 1).trans hstop)
      (cases.get (stop - 1)).target
    refine ⟨fun i h₁ h₂ hi => ?_, fun hnone => absurd hj (hnone j hj₁ hj₂)⟩
    by_cases hi' : i < stop - 1
    · exact hfnd i h₁ hi' hi
    · obtain rfl : i = stop - 1 := by omega
      refine hrest fun k _ hk heq => ?_
      exact hk.ne (eq_of_value_eq (by omega) (by omega) (heq.trans hi.symm))
  · exact selects_equalChain hw hstop fallThrough

/-- A split leaves the cases below the median to the left and the other ones to the right. -/
lemma selects_lessThan (hw : 0 < w) {median : ℕ} (hmed : median < cases.size)
    (h₁ : start ≤ median) (h₂ : median ≤ stop) (hstop : stop ≤ cases.size) {left right : Code w τ}
    (hleft : child.toInt < cases.value median →
      cases.Selects fallThrough start median child.toInt (left.exec child))
    (hrt : cases.value median ≤ child.toInt →
      cases.Selects fallThrough median stop child.toInt (right.exec child)) :
    cases.Selects fallThrough start stop child.toInt
      ((Code.lessThan (BitVec.ofInt w (cases.value median)) left right).exec child) := by
  rw [Code.exec]
  by_cases hlt : child.toInt < cases.value median
  · rw [if_pos ((slt_ofInt_iff hw hmed child).mpr hlt)]
    obtain ⟨hfnd, hnone⟩ := hleft hlt
    refine ⟨fun i hi hi' heq => ?_, fun h => hnone fun i hi hi' => h i hi (by omega)⟩
    refine hfnd i hi ?_ heq
    by_contra hge
    have := value_le (not_lt.mp hge) (hi'.trans_le hstop)
    omega
  · rw [if_neg (mt (slt_ofInt_iff hw hmed child).mp hlt)]
    obtain ⟨hfnd, hnone⟩ := hrt (not_lt.mp hlt)
    refine ⟨fun i hi hi' heq => ?_, fun h => hnone fun i hi hi' => h i (by omega) hi'⟩
    refine hfnd i ?_ hi' heq
    by_contra hge
    have := cases.lt_of_lt i median (not_le.mp hge) hmed
    unfold SortedCases.value at heq hlt
    omega

end

/-! ### Jump tables -/

variable {α : Type*}

lemma zip_map_append {β γ : Type*} (l : List α) (f : α → β) (g : α → γ) (extra : List γ) :
    (l.map f).zip (l.map g ++ extra) = l.map fun a => (f a, g a) := by
  induction l with
  | nil => simp
  | cons a l ih => simp [ih]

lemma getElem?_foldl_set_of_notMem (entries : List (ℕ × α)) (table : List (Option α))
    {k : ℕ} (hk : k ∉ entries.map Prod.fst) :
    (entries.foldl (fun table entry => table.set entry.1 (some entry.2)) table)[k]? =
      table[k]? := by
  induction entries generalizing table with
  | nil => rfl
  | cons e es ih =>
    simp only [map_cons, mem_cons, not_or] at hk
    simp [ih _ hk.2, getElem?_set_ne (Ne.symm hk.1)]

lemma getElem?_foldl_set_of_mem (entries : List (ℕ × α)) (table : List (Option α))
    (hnd : (entries.map Prod.fst).Nodup) {e : ℕ × α} (he : e ∈ entries) (hlt : e.1 < table.length) :
    (entries.foldl (fun table entry => table.set entry.1 (some entry.2)) table)[e.1]? =
      some (some e.2) := by
  induction entries generalizing table with
  | nil => simp at he
  | cons e' es ih =>
    rw [map_cons, nodup_cons] at hnd
    rw [foldl_cons]
    rcases mem_cons.mp he with rfl | he
    · rw [getElem?_foldl_set_of_notMem _ _ hnd.1, getElem?_set_self hlt]
    · exact ih _ hnd.2 he (by simpa using hlt)

/-- The index of a case in the table. -/
def tableIndex (firstValue : ℤ) (c : SwitchCase τ) : ℕ := (c.caseValue - firstValue).toNat

lemma pairwise_tableIndex (start : ℕ) (hstop : stop ≤ cases.size) :
    ((slice cases.toVec start stop).map (tableIndex (cases.value start))).Pairwise (· < ·) := by
  rw [slice, map_map, pairwise_map]
  refine List.Pairwise.imp_of_mem ?_ pairwise_lt_range'
  intro i j hi hj hij
  rw [mem_range'_1] at hi hj
  have h₁ := cases.lt_of_lt i j hij (by omega)
  have h₂ : cases.value start ≤ (cases.get i).caseValue := value_le hi.1 (by omega)
  simp only [Function.comp_apply, tableIndex]
  omega

section

variable (hstop : stop ≤ cases.size) {tableSize : ℕ}
  (hsize : ∀ c ∈ slice cases.toVec start stop, tableIndex (cases.value start) c < tableSize)

include hstop hsize

/-- The handled indices from the lowest to the highest one are those of the cases in their
order. -/
lemma handledIndices_eq : (List.range tableSize).filter
      (fun i => (slice cases.toVec start stop).any fun c =>
        (c.caseValue - cases.value start).toNat == i) =
      (slice cases.toVec start stop).map (tableIndex (cases.value start)) := by
  refine List.Pairwise.eq_of_mem_iff (r := (· < ·)) ?_ (pairwise_tableIndex start hstop) ?_
  · exact pairwise_lt_range.filter _
  · intro k
    simp only [mem_filter, mem_range, any_eq_true, beq_iff_eq, mem_map]
    constructor
    · rintro ⟨-, c, hc, rfl⟩
      exact ⟨c, hc, rfl⟩
    · rintro ⟨c, hc, rfl⟩
      exact ⟨hsize c hc, c, hc, rfl⟩

/-- The entries of the table: the target of a case at its index, and `fallThrough` between. -/
lemma getElem?_jumpTable {k : ℕ} (hk : k < tableSize) :
    let cs := slice cases.toVec start stop
    let entry := (jumpTable cs fallThrough (cases.value start) tableSize)[k]?
    (∀ c ∈ cs, tableIndex (cases.value start) c = k → entry = some (some c.target)) ∧
      ((∀ c ∈ cs, tableIndex (cases.value start) c ≠ k) → entry = some (some fallThrough)) := by
  have hnd := (pairwise_tableIndex start hstop).nodup
  dsimp only [jumpTable]
  rw [handledIndices_eq hstop hsize, zip_map_append]
  generalize slice cases.toVec start stop = cs at *
  constructor
  · rintro c hc rfl
    refine getElem?_foldl_set_of_mem _ _ ?_ (mem_map_of_mem hc) (by simpa using hk)
    rw [map_map]
    exact hnd
  · intro hne
    have hunhandled : ((range tableSize).any fun i => !cs.any fun c =>
        (c.caseValue - cases.value start).toNat == i) = true := by
      simp only [any_eq_true, mem_range, Bool.not_eq_true', any_eq_false, beq_iff_eq]
      exact ⟨k, hk, hne⟩
    rw [getElem?_foldl_set_of_notMem]
    · simp [hunhandled, hk]
    · simpa using hne

end

/-- The unsigned comparison of the index is the test whether the child is between the first and
the last value. -/
lemma ult_index_iff (hw : 0 < w) {first last : ℤ} (hfst : -2 ^ (w - 1) ≤ first)
    (hle : first ≤ last) (hlast : last < 2 ^ (w - 1)) (child : BitVec w) :
    ((BitVec.ofInt w (last - first)).ult (child - BitVec.ofInt w first) = false ↔
      first ≤ child.toInt ∧ child.toInt ≤ last) ∧
    (first ≤ child.toInt → (child - BitVec.ofInt w first).toNat = (child.toInt - first).toNat) := by
  have hpow : (2 : ℤ) ^ w = 2 * 2 ^ (w - 1) := by
    rw [← pow_succ', Nat.sub_add_cancel hw]
  have hmin := child.le_toInt
  have hmax := child.toInt_lt
  have hsub : child - BitVec.ofInt w first = BitVec.ofInt w (child.toInt - first) := by
    rw [Int.sub_eq_add_neg, ofInt_add, ofInt_neg, ofInt_toInt, sub_eq_add_neg]
  have hlimit : (BitVec.ofInt w (last - first)).toNat = (last - first).toNat := by
    rw [toNat_ofInt, Int.emod_eq_of_lt (by omega) (by push_cast; omega)]
  have hidx : (child - BitVec.ofInt w first).toNat =
      (if first ≤ child.toInt then child.toInt - first else child.toInt - first + 2 ^ w).toNat := by
    rw [hsub, toNat_ofInt]
    split_ifs with h
    · rw [Int.emod_eq_of_lt (by omega) (by push_cast; omega)]
    · rw [← Int.add_emod_right, Int.emod_eq_of_lt (by push_cast; omega) (by push_cast; omega)]
      rfl
  constructor
  · rw [Bool.eq_false_iff, ne_eq, ult_iff_lt, lt_def, hidx]
    split_ifs with h
    · omega
    · omega
  · intro h
    rw [hidx, if_pos h]

/-- A table selects among its cases. -/
lemma selects_buildTable (hw : 0 < w) (hlt : start < stop) (hstop : stop ≤ cases.size)
    (child : BitVec w) : cases.Selects fallThrough start stop child.toInt
      ((buildTable w cases.toVec fallThrough start stop).exec child) := by
  have hbound : ∀ i, start ≤ i → i < stop →
      cases.value start ≤ cases.value i ∧ cases.value i ≤ cases.value (stop - 1) := by
    intro i h₁ h₂
    exact ⟨value_le h₁ (by omega), value_le (by omega) (by omega)⟩
  obtain ⟨hult, hidx⟩ := ult_index_iff hw (value_fits (by omega)).1
    (hbound (stop - 1) (by omega) (by omega)).1 (value_fits (by omega)).2 child
  have hsize : ∀ c ∈ slice cases.toVec start stop, tableIndex (cases.value start) c <
      (cases.value (stop - 1) - cases.value start + 1).toNat := by
    intro c hc
    obtain ⟨i, h₁, h₂, rfl⟩ := mem_slice.mp hc
    have := hbound i h₁ h₂
    simp only [SortedCases.value, tableIndex] at this ⊢
    omega
  have hval : ∀ i, (cases.get i).caseValue = cases.value i := fun _ => rfl
  simp only [buildTable, Code.exec, hval]
  -- a value out of the table falls through, and so does a gap inside it
  split_ifs with h
  · refine ⟨fun i h₁ h₂ hi => ?_, fun _ => rfl⟩
    have hin := hbound i h₁ h₂
    rw [hi] at hin
    rw [hult.mpr hin] at h
    exact absurd h Bool.false_ne_true
  · obtain ⟨h₁, h₂⟩ := hult.mp (by simpa using h)
    rw [hidx h₁]
    obtain ⟨hfnd, hnone⟩ := getElem?_jumpTable hstop hsize
      (k := (child.toInt - cases.value start).toNat) (by omega)
    constructor
    · intro i hi hi' heq
      rw [hfnd _ (mem_slice.mpr ⟨i, hi, hi', rfl⟩), Option.join_some]
      rw [← heq]
      rfl
    · intro hne
      rw [hnone, Option.join_some]
      intro c hc heq
      obtain ⟨i, hi, hi', rfl⟩ := mem_slice.mp hc
      have := hbound i hi hi'
      refine hne i hi hi' ?_
      simp only [SortedCases.value, tableIndex] at heq this h₁ ⊢
      omega

/-! ### The whole switch -/

lemma int64_eq_some {x : ℤ} (h₁ : -2 ^ 63 ≤ x) (h₂ : x < 2 ^ 63) : int64 x = some x :=
  if_pos ⟨h₁, h₂⟩

lemma exists_usesTable (hlt : start < stop) (hstop : stop ≤ cases.size)
    (h : stop - start < minCasesForTable ∨
      cases.value (stop - 1) - cases.value start + 1 < 2 ^ 63) :
    ∃ table, usesTable cases.toVec start stop = some table := by
  unfold usesTable
  split_ifs with hmany
  · have hspan := h.resolve_left (not_lt.mpr hmany)
    have hle : cases.value start ≤ cases.value (stop - 1) := value_le (by omega) (by omega)
    unfold SortedCases.value at hspan hle
    dsimp only
    rw [int64_eq_some (by omega) (by omega), Option.bind_some, int64_eq_some (by omega) (by omega)]
    exact ⟨_, rfl⟩
  · exact ⟨false, rfl⟩

/-- Without overflow the emitted code selects among the cases, for the values that reach it. -/
lemma buildSwitch_spec (hw : 0 < w) (fallThrough : τ) (hspan : cases.size < minCasesForTable ∨
      cases.value (cases.size - 1) - cases.value 0 + 1 < 2 ^ 63) {hardStart : Bool}
    (hlt : start < stop) (hstop : stop ≤ cases.size) (hst : hardStart = false → start = 0) :
    ∃ code, recursivelyBuildSwitch w cases.toVec fallThrough start hardStart stop = some code ∧
      ∀ child : BitVec w, cases.Reaches start hardStart stop child.toInt →
        cases.Selects fallThrough start stop child.toInt (code.exec child) := by
  induction hn : stop - start using Nat.strong_induction_on generalizing start stop hardStart with
  | _ n ih =>
    have hspan' : stop - start < minCasesForTable ∨
        cases.value (stop - 1) - cases.value start + 1 < 2 ^ 63 := by
      have h₁ : cases.value 0 ≤ cases.value start := value_le (Nat.zero_le _) (by omega)
      have h₂ : cases.value (stop - 1) ≤ cases.value (cases.size - 1) :=
        value_le (by omega) (by omega)
      omega
    obtain ⟨table, htable⟩ := exists_usesTable hlt hstop hspan'
    rw [recursivelyBuildSwitch, htable, Option.bind_some]
    by_cases ht : table = true
    · rw [if_pos ht]
      exact ⟨_, rfl, fun child _ => selects_buildTable hw hlt hstop child⟩
    · rw [if_neg ht]
      by_cases hsize : stop - start ≤ leafThreshold
      · rw [dif_pos hsize]
        exact ⟨_, rfl, fun child hreach => selects_buildLeaf hw hlt hstop hst hreach⟩
      · rw [dif_neg hsize]
        simp only [leafThreshold] at hsize
        obtain ⟨median, hmed⟩ : ∃ median, median = (start + stop) / 2 := ⟨_, rfl⟩
        dsimp only
        rw [← hmed]
        obtain ⟨left, hleft, hleft'⟩ := ih (median - start) (by omega) (by omega) (by omega) hst rfl
        obtain ⟨right, hrt, hrt'⟩ := ih (stop - median) (by omega)
          (show median < stop by omega) hstop (fun h : true = false => absurd h (by decide)) rfl
        rw [hleft, hrt]
        refine ⟨_, rfl, fun child hreach => ?_⟩
        refine selects_lessThan hw (show median < cases.size by omega) (by omega) (by omega) hstop
          ?_ ?_
        · exact fun hchild => hleft' child ⟨hreach.1, fun _ => hchild⟩
        · exact fun hchild => hrt' child ⟨fun _ => hchild, hreach.2⟩

/-- The subtraction of the case values in the density test is defined only when the switch has few
cases or its values are close enough. -/
lemma buildSwitch_eq_none (fallThrough : τ) (hmany : minCasesForTable ≤ cases.size)
    (hspan : 2 ^ 63 ≤ cases.value (cases.size - 1) - cases.value 0 + 1) :
    recursivelyBuildSwitch w cases.toVec fallThrough 0 false cases.size = none := by
  have htable : usesTable cases.toVec 0 cases.size = none := by
    rw [usesTable, if_pos (by simpa using hmany)]
    unfold SortedCases.value at hspan
    dsimp only
    by_cases h : (cases.get (cases.size - 1)).caseValue - (cases.get 0).caseValue < 2 ^ 63
    · rw [int64_eq_some (by omega) h, Option.bind_some, int64, if_neg (by omega), Option.map_none]
    · rw [int64, if_neg (by omega), Option.bind_none]
  rw [recursivelyBuildSwitch, htable, Option.bind_none]

/-- The lowered switch reaches the target of the case with the value of the child, or the
fall-through target if there is none, exactly when the density test does not overflow. -/
theorem recursivelyBuildSwitch_exact_iff (type : IntType) (cases : SortedCases type.bits τ)
    (fallThrough : τ) :
    (∃ code,
      recursivelyBuildSwitch type.bits cases.toVec fallThrough 0 false cases.size = some code ∧
      ∀ child : BitVec type.bits,
        cases.Selects fallThrough 0 cases.size child.toInt (code.exec child)) ↔
    cases.size < minCasesForTable ∨ cases.value (cases.size - 1) - cases.value 0 + 1 < 2 ^ 63 := by
  constructor
  · rintro ⟨code, hcode, -⟩
    by_contra h
    rw [not_or, not_lt, not_lt] at h
    rw [buildSwitch_eq_none fallThrough h.1 h.2] at hcode
    exact absurd hcode (by simp)
  · intro hspan
    have hw : 0 < type.bits := by cases type <;> decide
    obtain ⟨code, hcode, hselects⟩ := buildSwitch_spec hw fallThrough hspan
      cases.size_pos le_rfl (fun _ => rfl)
    refine ⟨code, hcode, fun child => hselects child ⟨by simp, fun h => ?_⟩⟩
    exact absurd h (lt_irrefl _)

/-- Seven cases from the smallest to the largest value of `int64_t`. -/
def farCases : SortedCases IntType.int64.bits ℕ where
  size := 7
  get i := ⟨if i = 0 then -2 ^ 63 else if i = 6 then 2 ^ 63 - 1 else i, i⟩
  size_pos := by decide
  lt_of_lt := by
    intro i j hij hj
    interval_cases j <;> interval_cases i <;> decide
  fits := by
    intro i hi
    interval_cases i <;> decide

theorem recursivelyBuildSwitch_farCases :
    recursivelyBuildSwitch IntType.int64.bits farCases.toVec 7 0 false farCases.size = none :=
  buildSwitch_eq_none 7 (by decide) (by decide)

end LowerMacros

end WebKit.B3
