import WebKit.ContentExtensions.DFA
import WebKit.WTF.HashMap

/-!
# The transitions of a compiled node

A node is compiled into jump tables, checks for ranges of characters and a fallback. Every table
and every range is checked against the character itself or against its lower case. A character
that none of them matches takes the fallback transition, if there is one and the string has not
ended.
-/

namespace WebKit.ContentExtensions

open RangeMap WTF List

def toASCIILower (c : ℕ) : ℕ := if 65 ≤ c ∧ c ≤ 90 then c + 32 else c

namespace DFANode

/-- The loop of `canUseFallbackTransition`: the ranges go on from `lastSeenCharacter` without a
gap, up to 127. -/
def reachesEnd : ℕ → List (Range ℕ) → Bool
  | _, [] => false
  | lastSeenCharacter, r :: rs =>
    if r.first ≠ lastSeenCharacter + 1 then false
    else if r.last = 127 then true
    else reachesEnd r.last rs

/-- The transitions cover 1 to 127. -/
def canUseFallbackTransition (node : DFANode) : Bool :=
  match node.transitions with
  | [] => false
  | r :: rs =>
    if r.first = 0 then
      if r.last = 127 then true else reachesEnd r.last rs
    else reachesEnd 0 (r :: rs)

structure FallbackSearch where
  histogram : HashMap ℕ ℕ
  bestTarget : ℕ
  bestTargetScore : ℕ

/-- One iteration of the loop of `bestFallbackTarget`. -/
def FallbackSearch.visit (search : FallbackSearch) (r : Range ℕ) : FallbackSearch :=
  let rangeSize := r.last + 1 - r.first
  let histogram := search.histogram.modify r.data 0 (· + rangeSize)
  let value := (histogram.get? r.data).getD 0
  if value > search.bestTargetScore then ⟨histogram, r.data, value⟩
  else ⟨histogram, search.bestTarget, search.bestTargetScore⟩

/-- A first range with the character 0 only is skipped. -/
def fallbackCandidates (node : DFANode) : List (Range ℕ) :=
  match node.transitions with
  | [] => []
  | r :: rs => if r.first = 0 ∧ r.last = 0 then rs else r :: rs

/-- Only called when the fallback transition can be used, so there is a candidate. -/
def bestFallbackTarget (node : DFANode) : ℕ :=
  match node.fallbackCandidates with
  | [] => 0
  | r :: rs =>
    let rangeSize := r.last + 1 - r.first
    let bestTargetScore := if r.first = 0 then rangeSize - 1 else rangeSize
    let histogram := HashMap.empty.modify r.data bestTargetScore id
    (rs.foldl FallbackSearch.visit ⟨histogram, r.data, bestTargetScore⟩).bestTarget

end DFANode

variable {c : ℕ} (dests : Vec (Option ℕ))

namespace DFABytecodeCompiler

/-- The characters from `min` to `max`, in both cases if the range is not case sensitive. -/
structure CheckRange where
  min : ℕ
  max : ℕ
  destination : ℕ
  caseSensitive : Bool

structure JumpTable where
  min : ℕ
  max : ℕ
  caseSensitive : Bool
  destinations : List ℕ

/-- `fallbackTransitionTarget` is `none` when the fallback transition is not used. -/
structure Transitions where
  jumpTables : List JumpTable
  ranges : List CheckRange
  fallbackTransitionTarget : Option ℕ

/-- The characters of a transition get its target, unless that is the fallback. -/
def fillRange (fallbackTransitionTarget : Option ℕ) (destinations : Vec (Option ℕ))
    (transition : Range ℕ) : Vec (Option ℕ) :=
  if fallbackTransitionTarget = some transition.data then destinations
  else (List.range' transition.first (transition.last + 1 - transition.first)).foldl
    (fun destinations i => destinations.set i (some transition.data)) destinations

/-- `destinations` as it is filled at first. A vector has fewer than `2 ^ 32` elements, so
`noDestination` is not the index of a node. -/
def fillDestinations (fallbackTransitionTarget : Option ℕ) (transitions : List (Range ℕ)) :
    Vec (Option ℕ) :=
  transitions.foldl (fillRange fallbackTransitionTarget) (Vec.replicate 128 none)

structure RangeScan where
  destinations : Vec (Option ℕ)
  rangeMin : Option ℕ
  ranges : List CheckRange

namespace RangeScan

/-- All characters of an upper-case range have the destination of the range in lower case too. -/
def ignoresCase (scan : RangeScan) (rangeMin rangeMax : ℕ) : Bool :=
  decide (65 ≤ rangeMin ∧ rangeMax ≤ 90) &&
    (List.range' rangeMin (rangeMax + 1 - rangeMin)).all fun rangeIndex =>
      scan.destinations.get rangeMin == scan.destinations.get (toASCIILower rangeIndex)

def endRange (scan : RangeScan) (rangeMin rangeMax : ℕ) : RangeScan :=
  match scan.destinations.get rangeMin with
  | none => scan
  | some destination =>
    if scan.ignoresCase rangeMin rangeMax then
      { scan with
        destinations := (List.range' rangeMin (rangeMax + 1 - rangeMin)).foldl
          (fun destinations rangeIndex => destinations.set (toASCIILower rangeIndex) none)
          scan.destinations
        ranges := scan.ranges ++
          [⟨toASCIILower rangeMin, toASCIILower rangeMax, destination, false⟩] }
    else { scan with ranges := scan.ranges ++ [⟨rangeMin, rangeMax, destination, true⟩] }

/-- One iteration of the loop over the characters. -/
def visit (scan : RangeScan) (i : ℕ) : RangeScan :=
  match scan.rangeMin with
  | some rangeMin =>
    if scan.destinations.get i ≠ scan.destinations.get rangeMin then
      let scan := scan.endRange rangeMin (i - 1)
      { scan with rangeMin := if scan.destinations.get i = none then none else some i }
    else scan
  | none => if scan.destinations.get i ≠ none then { scan with rangeMin := some i } else scan

end RangeScan

/-- The ranges of characters with the same destination. -/
def collectRanges (destinations : Vec (Option ℕ)) : List CheckRange :=
  let scan := (List.range 128).foldl RangeScan.visit ⟨destinations, none, []⟩
  match scan.rangeMin with
  | none => scan.ranges
  | some rangeMin =>
    match scan.destinations.get rangeMin with
    | none => scan.ranges
    | some destination => scan.ranges ++ [⟨rangeMin, 127, destination, true⟩]

def extractJumpTable : List CheckRange → JumpTable
  | [] => ⟨0, 0, true, []⟩
  | r :: rs =>
    let last := (r :: rs).getLast (List.cons_ne_nil r rs)
    ⟨r.min, last.max, last.caseSensitive, (r :: rs).map CheckRange.destination⟩

/-- `ranges` in the loop that extracts the jump tables, split at `baseRangePosition` and
`rangePosition`; `base` is empty when there is no base range. -/
structure TableScan where
  jumpTables : List JumpTable
  passed : List CheckRange
  base : List CheckRange

namespace TableScan

/-- The range can be appended to the ranges from the base range on. -/
def extends? (base : List CheckRange) (range : CheckRange) : Bool :=
  match base, base.getLast? with
  | baseRange :: _, some previous =>
    range.min == range.max && baseRange.caseSensitive == range.caseSensitive &&
      previous.max + 1 == range.min
  | _, _ => false

/-- The ranges from the base range on become a jump table if there are at least two. -/
def close (scan : TableScan) : TableScan :=
  if scan.base.length > 1 then
    ⟨scan.jumpTables ++ [extractJumpTable scan.base], scan.passed, []⟩
  else ⟨scan.jumpTables, scan.passed ++ scan.base, []⟩

/-- One iteration. A range that ends a sequence is not the base range of the next one. -/
def visit (scan : TableScan) (range : CheckRange) : TableScan :=
  if scan.base ≠ [] then
    if extends? scan.base range then { scan with base := scan.base ++ [range] }
    else { scan.close with passed := scan.close.passed ++ [range] }
  else if range.min = range.max then { scan with base := [range] }
  else { scan with passed := scan.passed ++ [range] }

end TableScan

def extractJumpTables (ranges : List CheckRange) : TableScan :=
  (ranges.foldl TableScan.visit ⟨[], [], []⟩).close

def transitions (node : DFANode) : Transitions :=
  let fallbackTransitionTarget :=
    if node.canUseFallbackTransition then some node.bestFallbackTarget else none
  let destinations := fillDestinations fallbackTransitionTarget node.transitions
  let scan := extractJumpTables (collectRanges destinations)
  ⟨scan.jumpTables, scan.passed, fallbackTransitionTarget⟩

/-! ### What a character matches -/

/-- The character that is compared. -/
def comparedCharacter (caseSensitive : Bool) (c : ℕ) : ℕ :=
  if caseSensitive then c else toASCIILower c

def CheckRange.target? (r : CheckRange) (c : ℕ) : Option ℕ :=
  let character := comparedCharacter r.caseSensitive c
  if r.min ≤ character ∧ character ≤ r.max then some r.destination else none

def JumpTable.target? (table : JumpTable) (c : ℕ) : Option ℕ :=
  let character := comparedCharacter table.caseSensitive c
  if table.min ≤ character ∧ character ≤ table.max then
    table.destinations[character - table.min]?
  else none

/-- The ranges lead to what `f` gives, and are ranges of characters. -/
structure Sound (f : ℕ → Option ℕ) (r : CheckRange) : Prop where
  min_le_max : r.min ≤ r.max
  max_lt : r.max < 128
  target : ∀ c < 128, ∀ d, r.target? c = some d → f c = some d
  destination : ∃ c < 128, f c = some r.destination

/-- Some range has a target for `c`. -/
def Covered (ranges : List CheckRange) (c : ℕ) : Prop := ∃ r ∈ ranges, (r.target? c).isSome

variable {ranges ranges' : List CheckRange}

lemma covered_append : Covered (ranges ++ ranges') c ↔ Covered ranges c ∨ Covered ranges' c := by
  simp [Covered, or_and_right, exists_or]

lemma Covered.append (h : Covered ranges c) :
    Covered (ranges ++ ranges') c := covered_append.2 (.inl h)

variable {r : CheckRange}

lemma covered_append_singleton (h : (r.target? c).isSome) : Covered (ranges ++ [r]) c :=
  ⟨r, by simp, h⟩

lemma CheckRange.target?_eq_some {c d : ℕ} : r.target? c = some d ↔
    (r.min ≤ comparedCharacter r.caseSensitive c ∧ comparedCharacter r.caseSensitive c ≤ r.max) ∧
      r.destination = d := by
  simp [CheckRange.target?]

lemma CheckRange.isSome_target? : (r.target? c).isSome ↔
    r.min ≤ comparedCharacter r.caseSensitive c ∧ comparedCharacter r.caseSensitive c ≤ r.max := by
  simp only [Option.isSome_iff_exists, target?_eq_some]
  simp

/-- A letter that is `l` in lower case is `l` or the upper case of `l`. -/
lemma toASCIILower_cases (c : ℕ) :
    (toASCIILower c = c ∧ ¬(65 ≤ c ∧ c ≤ 90)) ∨ (toASCIILower c = c + 32 ∧ 65 ≤ c ∧ c ≤ 90) := by
  unfold toASCIILower
  split_ifs with h
  · exact .inr ⟨rfl, h⟩
  · exact .inl ⟨rfl, h⟩

/-! ### The ranges -/

/-- What the scan has done before it reaches the character `i`. -/
structure RangeScan.Inv (f : ℕ → Option ℕ) (i : ℕ) (scan : RangeScan) : Prop where
  sound : ∀ r ∈ scan.ranges, Sound f r
  /-- A destination is only removed when a range covers the character. -/
  kept : ∀ c < 128, scan.destinations.get c = f c ∨
    (scan.destinations.get c = none ∧ Covered scan.ranges c)
  /-- Below the open range everything is covered. -/
  covered : ∀ c < i, (∀ m, scan.rangeMin = some m → c < m) → f c ≠ none → Covered scan.ranges c
  rangeMin : ∀ m, scan.rangeMin = some m →
    m < i ∧ ∃ d, ∀ c, m ≤ c → c < i → scan.destinations.get c = some d

namespace RangeScan

variable {f : ℕ → Option ℕ} {i : ℕ} {scan : RangeScan}

/-- A destination that is left is the one of `f`. -/
lemma Inv.eq_some (h : scan.Inv f i) {c d : ℕ} (hc : c < 128)
    (hd : scan.destinations.get c = some d) : f c = some d := by
  rcases h.kept c hc with hkept | ⟨hnone, -⟩
  · rw [← hkept, hd]
  · rw [hnone] at hd
    cases hd

lemma ignoresCase_eq_true {m n : ℕ} : scan.ignoresCase m n = true ↔ (65 ≤ m ∧ n ≤ 90) ∧
    ∀ k, m ≤ k → k ≤ n → scan.destinations.get (toASCIILower k) = scan.destinations.get m := by
  simp only [ignoresCase, Bool.and_eq_true, decide_eq_true_eq, all_eq_true,
    mem_range'_1, beq_iff_eq]
  refine and_congr_right fun _ => ⟨fun h k hk hkn => ?_, fun h k hk => ?_⟩
  · exact (h k (by omega)).symm
  · exact (h k hk.1 (by omega)).symm

/-- All characters below `i` are covered. -/
structure Closed (f : ℕ → Option ℕ) (i : ℕ) (scan : RangeScan) : Prop where
  sound : ∀ r ∈ scan.ranges, Sound f r
  kept : ∀ c < 128, scan.destinations.get c = f c ∨
    (scan.destinations.get c = none ∧ Covered scan.ranges c)
  covered : ∀ c < i, f c ≠ none → Covered scan.ranges c

/-- A range that covers the open range closes it. -/
lemma Inv.closed_append (h : scan.Inv f i) {m : ℕ} (hm : scan.rangeMin = some m)
    {dests : Vec (Option ℕ)} (hr : Sound f r)
    (hcov : ∀ c, m ≤ c → c < i → (r.target? c).isSome)
    (hdest : ∀ c < 128, dests.get c = scan.destinations.get c ∨
      (dests.get c = none ∧ (r.target? c).isSome)) :
    Closed f i ⟨dests, scan.rangeMin, scan.ranges ++ [r]⟩ where
  sound := forall_mem_append.2 ⟨h.sound, forall_mem_singleton.2 hr⟩
  kept := by
    intro c hc
    rcases hdest c hc with heq | ⟨hnone, hsome⟩
    · rw [heq]
      exact (h.kept c hc).imp_right fun ⟨hnone, hcov⟩ => ⟨hnone, hcov.append⟩
    · exact .inr ⟨hnone, covered_append_singleton hsome⟩
  covered := by
    intro c hc hne
    by_cases hmc : m ≤ c
    · exact covered_append_singleton (hcov c hmc hc)
    · refine (h.covered c hc ?_ hne).append
      intro m' hm'
      rw [hm] at hm'
      cases hm'
      omega

lemma isSome_target?_sensitive {m i d c : ℕ} (hi : 0 < i) :
    ((⟨m, i - 1, d, true⟩ : CheckRange).target? c).isSome ↔ m ≤ c ∧ c < i := by
  rw [CheckRange.isSome_target?]
  simp only [comparedCharacter, if_true]
  omega

lemma isSome_target?_insensitive {m i d c : ℕ} (hm : 65 ≤ m) (hmi : m < i) (hi : i ≤ 91) :
    ((⟨toASCIILower m, toASCIILower (i - 1), d, false⟩ : CheckRange).target? c).isSome ↔
      (m ≤ c ∧ c < i) ∨ (m + 32 ≤ c ∧ c < i + 32) := by
  have hmlow : toASCIILower m = m + 32 := if_pos (by omega)
  have hilow : toASCIILower (i - 1) = i - 1 + 32 := if_pos (by omega)
  rw [CheckRange.isSome_target?]
  simp only [comparedCharacter, Bool.false_eq_true, if_false]
  rcases toASCIILower_cases c with ⟨hlow, hc⟩ | ⟨hlow, hc⟩ <;> rw [hlow] <;> omega

section

variable {m : ℕ} (h : scan.Inv f i) (hi : i ≤ 128) (hm : scan.rangeMin = some m)

include h hi hm

/-- The open range as a case-sensitive range. -/
lemma Inv.closed_sensitive {d : ℕ} (hd : scan.destinations.get m = some d) :
    Closed f i ⟨scan.destinations, scan.rangeMin, scan.ranges ++ [⟨m, i - 1, d, true⟩]⟩ := by
  obtain ⟨hmi, d', hd'⟩ := h.rangeMin m hm
  obtain rfl : d = d' := by simpa [hd] using hd' m le_rfl hmi
  have hi0 : 0 < i := by omega
  have hfd : ∀ c, m ≤ c → c < i → f c = some d := fun c hmc hci =>
    h.eq_some (by omega) (hd' c hmc hci)
  apply h.closed_append hm
  · refine ⟨by dsimp only; omega, by dsimp only; omega, ?_, ⟨m, by omega, hfd m le_rfl hmi⟩⟩
    intro c hc t ht
    rw [← (CheckRange.target?_eq_some.1 ht).2]
    obtain ⟨hmc, hci⟩ := (isSome_target?_sensitive hi0).1 (by rw [ht]; rfl)
    exact hfd c hmc hci
  · intro c hmc hci
    exact (isSome_target?_sensitive hi0).2 ⟨hmc, hci⟩
  · exact fun c _ => .inl rfl

/-- Ending the open range at `i - 1` covers it. -/
lemma Inv.endRange : Closed f i (scan.endRange m (i - 1)) := by
  obtain ⟨hmi, d, hd⟩ := h.rangeMin m hm
  have hdm := hd m le_rfl hmi
  have hfd : ∀ c, m ≤ c → c < i → f c = some d := fun c hmc hci =>
    h.eq_some (by omega) (hd c hmc hci)
  have hdestination : ∃ c < 128, f c = some d := ⟨m, by omega, hfd m le_rfl hmi⟩
  unfold RangeScan.endRange
  rw [hdm]
  split_ifs with hcase
  · obtain ⟨hup, hlo⟩ := ignoresCase_eq_true.1 hcase
    have hmat : ∀ c, _ ↔ _ := fun c =>
      isSome_target?_insensitive (d := d) (c := c) hup.1 hmi (by omega)
    have hmlow : toASCIILower m = m + 32 := if_pos (by omega)
    have hilow : toASCIILower (i - 1) = i - 1 + 32 := if_pos (by omega)
    apply h.closed_append hm
    · refine ⟨by dsimp only; omega, by dsimp only; omega, ?_, hdestination⟩
      intro c hc d' hd'
      rw [← (CheckRange.target?_eq_some.1 hd').2]
      rcases (hmat c).1 (by rw [hd']; rfl) with ⟨hmc, hci⟩ | ⟨hmc, hci⟩
      · exact hfd c hmc hci
      · -- a lower-case letter: its destination was compared with that of the range
        have hk := hlo (c - 32) (by omega) (by omega)
        rw [toASCIILower, if_pos (by omega), Nat.sub_add_cancel (by omega), hdm] at hk
        exact h.eq_some hc hk
    · intro c hmc hci
      exact (hmat c).2 (.inl ⟨hmc, hci⟩)
    · intro c hc
      rw [Vec.get_foldl_set toASCIILower]
      split_ifs with hex
      · obtain ⟨k, hk, rfl⟩ := hex
        rw [mem_range'_1] at hk
        refine .inr ⟨rfl, (hmat _).2 ?_⟩
        rw [toASCIILower, if_pos (by omega)]
        omega
      · exact .inl rfl
  · exact h.closed_sensitive hi hm hdm

end

lemma Inv.closed (h : scan.Inv f i) (hm : scan.rangeMin = none) : Closed f i scan :=
  ⟨h.sound, h.kept, fun c hc => h.covered c hc (by simp [hm])⟩

/-- Before a character, when no range is open, a range may be opened. -/
lemma Closed.inv_succ (h : Closed f i scan) (hi : i < 128) :
    Inv f (i + 1) { scan with
      rangeMin := if scan.destinations.get i = none then none else some i } where
  sound := h.sound
  kept := h.kept
  covered := by
    intro c hc hm hne
    rcases Nat.lt_succ_iff_lt_or_eq.1 hc with hc | rfl
    · exact h.covered c hc hne
    · rcases h.kept c hi with hkept | ⟨-, hcov⟩
      · rw [hkept, if_neg hne] at hm
        exact absurd (hm c rfl) (lt_irrefl c)
      · exact hcov
  rangeMin := by
    intro m hm
    split_ifs at hm with hnone
    cases hm
    obtain ⟨d, hd⟩ := Option.ne_none_iff_exists'.1 hnone
    refine ⟨Nat.lt_succ_self i, d, fun c hic hci => ?_⟩
    rwa [show c = i by omega]

lemma Inv.visit (h : scan.Inv f i) (hi : i < 128) : (scan.visit i).Inv f (i + 1) := by
  unfold RangeScan.visit
  cases hm : scan.rangeMin with
  | none =>
    have hopen := (h.closed hm).inv_succ hi
    split_ifs with hne
    · rwa [if_neg hne] at hopen
    · rw [not_not] at hne
      rw [if_pos hne, ← hm] at hopen
      exact hopen
  | some m =>
    dsimp only
    by_cases hne : scan.destinations.get i = scan.destinations.get m
    · -- the open range goes on
      obtain ⟨hmi, d, hd⟩ := h.rangeMin m hm
      rw [if_neg (not_not.2 hne)]
      rw [hd m le_rfl hmi] at hne
      refine ⟨h.sound, h.kept, ?_, ?_⟩
      · intro c hc hlt hcne
        have := hlt m hm
        exact h.covered c (by omega) hlt hcne
      · intro m' hm'
        rw [hm] at hm'
        cases hm'
        refine ⟨by omega, d, fun c hmc hci => ?_⟩
        rcases Nat.lt_succ_iff_lt_or_eq.1 hci with hci | rfl
        · exact hd c hmc hci
        · exact hne
    · rw [if_pos hne]
      exact (h.endRange (by omega) hm).inv_succ hi

lemma Inv.foldl_visit (n : ℕ) (hn : n ≤ 128) (h : scan.Inv f 0) :
    ((List.range n).foldl RangeScan.visit scan).Inv f n := by
  induction n with
  | zero => exact h
  | succ n ih =>
    rw [range_succ, foldl_append]
    exact (ih (by omega)).visit (by omega)

end RangeScan

/-- The ranges that are collected lead to their destinations, and cover every character that has
one. -/
lemma collectRanges_spec : (∀ r ∈ collectRanges dests, Sound dests.get r) ∧
    ∀ c < 128, dests.get c ≠ none → Covered (collectRanges dests) c := by
  have hinit : RangeScan.Inv dests.get 0 ⟨dests, none, []⟩ := by
    refine ⟨by simp, fun c _ => .inl rfl, by simp, by simp⟩
  have hinv := hinit.foldl_visit 128 le_rfl
  unfold collectRanges
  dsimp only
  generalize (range 128).foldl RangeScan.visit ⟨dests, none, []⟩ = scan at hinv
  cases hm : scan.rangeMin with
  | none => exact ⟨(hinv.closed hm).sound, (hinv.closed hm).covered⟩
  | some m =>
    obtain ⟨hm128, d, hd⟩ := hinv.rangeMin m hm
    have hdm := hd m le_rfl hm128
    have hcls := hinv.closed_sensitive le_rfl hm hdm
    dsimp only
    rw [hdm]
    exact ⟨hcls.sound, hcls.covered⟩

/-! ### The jump tables -/

/-- The table leads to what `f` gives, and is a table of characters. -/
structure JumpTable.Sound (f : ℕ → Option ℕ) (table : JumpTable) : Prop where
  min_le_max : table.min ≤ table.max
  max_lt : table.max < 128
  length_destinations : table.destinations.length = table.max + 1 - table.min
  target : ∀ c < 128, ∀ d, table.target? c = some d → f c = some d
  destination : ∀ d ∈ table.destinations, ∃ c < 128, f c = some d

/-- Consecutive ranges of one character each, from `min` on. -/
def Consecutive (min : ℕ) (caseSensitive : Bool) (base : List CheckRange) : Prop :=
  ∀ k r, base[k]? = some r → r.min = min + k ∧ r.max = min + k ∧ r.caseSensitive = caseSensitive

variable {min : ℕ} {caseSensitive : Bool} {base : List CheckRange} {f : ℕ → Option ℕ}
  {range : CheckRange}

lemma Consecutive.append (h : Consecutive min caseSensitive base)
    (hne : base ≠ []) (hext : TableScan.extends? base range = true) :
    Consecutive min caseSensitive (base ++ [range]) := by
  obtain ⟨b, bs, rfl⟩ := exists_cons_of_ne_nil hne
  have hlast : (b :: bs)[bs.length]? = some ((b :: bs).getLast hne) := by
    rw [getLast_eq_getElem]
    simp
  obtain ⟨-, hmax, -⟩ := h _ _ hlast
  obtain ⟨-, -, hcase⟩ := h 0 b rfl
  simp only [TableScan.extends?, getLast?_eq_some_getLast hne, Bool.and_eq_true, beq_iff_eq] at hext
  obtain ⟨⟨hsing, hsame⟩, hnext⟩ := hext
  intro k r hr
  rcases Nat.lt_or_ge k (b :: bs).length with hk | hk
  · rw [getElem?_append_left hk] at hr
    exact h k r hr
  · rw [getElem?_append_right hk, getElem?_singleton] at hr
    split_ifs at hr with hk0
    cases hr
    rw [length_cons] at hk hk0
    exact ⟨by omega, by omega, hsame ▸ hcase⟩

lemma consecutive_singleton (h : range.min = range.max) :
    Consecutive range.min range.caseSensitive [range] := by
  intro k r hr
  rw [getElem?_singleton] at hr
  split_ifs at hr with hk
  cases hr
  exact ⟨by omega, by omega, rfl⟩

section

variable (h : Consecutive min caseSensitive base) (hne : base ≠ [])

include h hne

lemma Consecutive.extractJumpTable_eq :
    extractJumpTable base =
      ⟨min, min + (base.length - 1), caseSensitive, base.map CheckRange.destination⟩ := by
  obtain ⟨b, bs, rfl⟩ := exists_cons_of_ne_nil hne
  have hlast : (b :: bs)[bs.length]? = some ((b :: bs).getLast hne) := by
    rw [getLast_eq_getElem]
    simp
  obtain ⟨-, hmax, hcase⟩ := h _ _ hlast
  obtain ⟨hmin, -, -⟩ := h 0 b rfl
  simp only [extractJumpTable, hmax, hcase, hmin]
  simp

/-- A jump table does what the ranges do that it was extracted from. -/
lemma Consecutive.target?_extractJumpTable {c d : ℕ} :
    (extractJumpTable base).target? c = some d ↔ ∃ r ∈ base, r.target? c = some d := by
  rw [h.extractJumpTable_eq hne]
  simp only [JumpTable.target?, Option.ite_none_right_eq_some, List.getElem?_map,
    Option.map_eq_some_iff]
  constructor
  · rintro ⟨⟨hlo, hhi⟩, r, hr, rfl⟩
    obtain ⟨hmin, hmax, hcase⟩ := h _ r hr
    refine ⟨r, List.mem_of_getElem? hr, CheckRange.target?_eq_some.2 ⟨?_, rfl⟩⟩
    rw [hcase]
    omega
  · rintro ⟨r, hr, htgt⟩
    obtain ⟨hmat, rfl⟩ := CheckRange.target?_eq_some.1 htgt
    obtain ⟨k, hk⟩ := List.mem_iff_getElem?.1 hr
    obtain ⟨hmin, hmax, hcase⟩ := h k r hk
    obtain ⟨hklt, -⟩ := List.getElem?_eq_some_iff.1 hk
    rw [hcase] at hmat
    refine ⟨by omega, r, ?_, rfl⟩
    rwa [show comparedCharacter caseSensitive c - min = k by omega]

lemma Consecutive.sound_extractJumpTable (hsound : ∀ r ∈ base, Sound f r) :
    (extractJumpTable base).Sound f := by
  have hlen := length_pos_iff.2 hne
  have htgt := fun c d => h.target?_extractJumpTable hne (c := c) (d := d)
  have heq := h.extractJumpTable_eq hne
  obtain ⟨last, hlast⟩ : ∃ last, base[base.length - 1]? = some last :=
    ⟨_, getElem?_eq_getElem (by omega)⟩
  have hmax : min + (base.length - 1) < 128 := by
    rw [← (h _ _ hlast).2.1]
    exact (hsound last (mem_of_getElem? hlast)).max_lt
  refine ⟨?_, ?_, ?_, ?_, ?_⟩
  · rw [heq]
    dsimp only
    omega
  · rw [heq]
    exact hmax
  · rw [heq, length_map]
    dsimp only
    omega
  · intro c hc d hd
    obtain ⟨r, hr, hd⟩ := (htgt c d).1 hd
    exact (hsound r hr).target c hc d hd
  · intro d hd
    rw [heq] at hd
    obtain ⟨r, hr, rfl⟩ := mem_map.1 hd
    exact (hsound r hr).destination

end

/-- The tables and the ranges of the scan do what the ranges `ranges` do. -/
structure TableScan.Inv (f : ℕ → Option ℕ) (ranges : List CheckRange) (scan : TableScan) :
    Prop where
  table_sound : ∀ table ∈ scan.jumpTables, table.Sound f
  passed_sound : ∀ r ∈ scan.passed, Sound f r
  base_sound : ∀ r ∈ scan.base, Sound f r
  base_consecutive : ∃ min caseSensitive, Consecutive min caseSensitive scan.base
  covered : ∀ c, Covered ranges c → (∃ table ∈ scan.jumpTables, (table.target? c).isSome) ∨
    Covered scan.passed c ∨ Covered scan.base c

namespace TableScan

variable {ranges : List CheckRange} {scan : TableScan} {range : CheckRange}

section

variable (h : scan.Inv f ranges)

include h

lemma Inv.close : scan.close.Inv f ranges ∧ scan.close.base = [] := by
  obtain ⟨min, caseSensitive, hcons⟩ := h.base_consecutive
  have hemp : ∃ min caseSensitive, Consecutive min caseSensitive [] :=
    ⟨0, true, fun k r hr => by cases hr⟩
  unfold TableScan.close
  split_ifs with hlen
  · have hne : scan.base ≠ [] := length_pos_iff.1 (by omega)
    refine ⟨⟨?_, h.passed_sound, by simp, hemp, ?_⟩, rfl⟩
    · exact forall_mem_append.2 ⟨h.table_sound,
        forall_mem_singleton.2 (hcons.sound_extractJumpTable hne h.base_sound)⟩
    · intro c hc
      rcases h.covered c hc with ⟨table, htable, hsome⟩ | hcov | ⟨r, hr, hsome⟩
      · exact .inl ⟨table, mem_append_left _ htable, hsome⟩
      · exact .inr (.inl hcov)
      · obtain ⟨d, hd⟩ := Option.isSome_iff_exists.1 hsome
        refine .inl ⟨extractJumpTable scan.base, by simp, ?_⟩
        rw [(hcons.target?_extractJumpTable hne).2 ⟨r, hr, hd⟩]
        rfl
  · refine ⟨⟨h.table_sound, forall_mem_append.2 ⟨h.passed_sound, h.base_sound⟩, by simp, hemp,
      fun c hc => ?_⟩, rfl⟩
    exact (h.covered c hc).imp_right fun hcov => .inl (covered_append.2 hcov)

/-- A range is passed. -/
lemma Inv.pass (hr : Sound f range) :
    Inv f (ranges ++ [range]) { scan with passed := scan.passed ++ [range] } := by
  refine { h with
    passed_sound := forall_mem_append.2 ⟨h.passed_sound, forall_mem_singleton.2 hr⟩
    covered := fun c hc => ?_ }
  rcases covered_append.1 hc with hc | hc
  · exact (h.covered c hc).imp_right (Or.imp_left Covered.append)
  · exact .inr (.inl (covered_append.2 (.inr hc)))

/-- A range is taken into the sequence that starts at the base range. -/
lemma Inv.take (hr : Sound f range)
    (hcons : ∃ min caseSensitive, Consecutive min caseSensitive (scan.base ++ [range])) :
    Inv f (ranges ++ [range]) { scan with base := scan.base ++ [range] } := by
  refine { h with
    base_sound := forall_mem_append.2 ⟨h.base_sound, forall_mem_singleton.2 hr⟩
    base_consecutive := hcons
    covered := fun c hc => ?_ }
  rcases covered_append.1 hc with hc | hc
  · exact (h.covered c hc).imp_right (Or.imp_right Covered.append)
  · exact .inr (.inr (covered_append.2 (.inr hc)))

lemma Inv.visit (hr : Sound f range) : (scan.visit range).Inv f (ranges ++ [range]) := by
  unfold TableScan.visit
  split_ifs with hne hext hsing
  · obtain ⟨min, caseSensitive, hcons⟩ := h.base_consecutive
    exact h.take hr ⟨min, caseSensitive, hcons.append hne hext⟩
  · exact h.close.1.pass hr
  · have hbase : scan.base = [] := not_not.1 hne
    have := h.take hr ⟨_, _, by rw [hbase]; exact consecutive_singleton hsing⟩
    rwa [hbase] at this
  · exact h.pass hr

lemma Inv.foldl_visit (rs : List CheckRange)
    (hrs : ∀ r ∈ rs, Sound f r) : (rs.foldl TableScan.visit scan).Inv f (ranges ++ rs) := by
  induction rs generalizing scan ranges with
  | nil => simpa using h
  | cons r rs ih =>
    have hstep := h.visit (hrs r mem_cons_self)
    have := ih hstep fun r' hr' => hrs r' (mem_cons_of_mem _ hr')
    simpa using this

end

end TableScan

lemma extractJumpTables_spec (h : ∀ r ∈ ranges, Sound f r) :
    (extractJumpTables ranges).Inv f ranges ∧ (extractJumpTables ranges).base = [] := by
  have hinit : TableScan.Inv f [] ⟨[], [], []⟩ :=
    ⟨by simp, by simp, by simp, ⟨0, true, fun k r hr => by cases hr⟩, by simp⟩
  exact (hinit.foldl_visit ranges h).close

end DFABytecodeCompiler

/-! ### The fallback -/

variable {rs : List (Range ℕ)}

namespace DFANode

variable {node : DFANode}

lemma lookup_of_reachesEnd {last : ℕ} (h : reachesEnd last rs = true)
    (hlast : last < c) (hc : c ≤ 127) : lookup rs c ≠ none := by
  induction rs generalizing last with
  | nil => cases h
  | cons r rs ih =>
    rw [lookup_cons]
    by_cases hmem : r.first ≤ c ∧ c ≤ r.last
    · simp [hmem]
    · rw [if_neg hmem]
      unfold reachesEnd at h
      split_ifs at h with hfst h127
      · omega
      · exact ih h (by omega)

lemma lookup_of_canUseFallback (h : node.canUseFallbackTransition = true)
    (hpos : 0 < c) (hc : c ≤ 127) : lookup node.transitions c ≠ none := by
  unfold canUseFallbackTransition at h
  split at h
  · cases h
  · rename_i r rs heq
    rw [heq]
    split_ifs at h with hfst h127
    · rw [lookup_cons, if_pos (by omega)]
      simp
    · rw [lookup_cons]
      split_ifs with hmem
      · simp
      · exact lookup_of_reachesEnd h (by omega) hc
    · exact lookup_of_reachesEnd h hpos hc

lemma FallbackSearch.bestTarget_foldl (search : FallbackSearch) :
    (rs.foldl visit search).bestTarget = search.bestTarget ∨
      ∃ r ∈ rs, (rs.foldl visit search).bestTarget = r.data := by
  refine foldlRecOn (motive := fun s : FallbackSearch => s.bestTarget = search.bestTarget ∨
    ∃ r ∈ rs, s.bestTarget = r.data) rs _ (.inl rfl) fun s h r hr => ?_
  rw [FallbackSearch.visit]
  split_ifs
  · exact .inr ⟨r, hr, rfl⟩
  · exact h

lemma fallbackCandidates_ne_nil (h : node.canUseFallbackTransition = true) :
    node.fallbackCandidates ≠ [] := by
  unfold canUseFallbackTransition at h
  unfold fallbackCandidates
  split at h
  · cases h
  · rename_i r rs heq
    by_cases hzero : r.first = 0 ∧ r.last = 0
    · rw [if_pos hzero.1, if_neg (by omega)] at h
      cases rs with
      | nil => cases h
      | cons r' rs => simp [hzero]
    · simp [hzero]

lemma fallbackCandidates_subset : node.fallbackCandidates ⊆ node.transitions := by
  unfold fallbackCandidates
  split
  · exact nil_subset _
  · rename_i r rs heq
    rw [heq]
    split_ifs
    · exact subset_cons_self r rs
    · exact List.Subset.refl _

/-- The fallback target is the target of a transition. -/
lemma exists_bestFallbackTarget (h : node.canUseFallbackTransition = true) :
    ∃ r ∈ node.transitions, node.bestFallbackTarget = r.data := by
  obtain ⟨r, rs, hcands⟩ := exists_cons_of_ne_nil (fallbackCandidates_ne_nil h)
  have hsub : r :: rs ⊆ node.transitions := hcands ▸ fallbackCandidates_subset
  unfold bestFallbackTarget
  rw [hcands]
  rcases FallbackSearch.bestTarget_foldl _ with hbest | ⟨r', hr', hbest⟩
  · exact ⟨r, hsub mem_cons_self, hbest⟩
  · exact ⟨r', hsub (mem_cons_of_mem _ hr'), hbest⟩

end DFANode

namespace DFABytecodeCompiler

variable (fallback : Option ℕ)

lemma get_fillRange (r : Range ℕ) (c : ℕ) : (fillRange fallback dests r).get c =
      if (r.first ≤ c ∧ c ≤ r.last) ∧ fallback ≠ some r.data then some r.data
      else dests.get c := by
  unfold fillRange
  by_cases hfb : fallback = some r.data
  · simp [hfb]
  · rw [if_neg hfb]
    have hget := Vec.get_foldl_set (fun i => i) (some r.data)
      (range' r.first (r.last + 1 - r.first)) dests c
    rw [hget]
    congr 1
    simp only [exists_eq_right, mem_range'_1, ne_eq, hfb, not_false_eq_true, and_true, eq_iff_iff]
    omega

lemma get_foldl_fillRange (hs : Sorted rs) (dests : Vec (Option ℕ)) (c : ℕ) :
    (rs.foldl (fillRange fallback) dests).get c =
      match lookup rs c with
      | none => dests.get c
      | some t => if fallback = some t then dests.get c else some t := by
  induction rs generalizing dests with
  | nil => rfl
  | cons r rs ih =>
    rw [foldl_cons, ih hs.2.2, get_fillRange, lookup_cons]
    by_cases hc : r.first ≤ c ∧ c ≤ r.last
    · rw [lookup_tail_eq_none hs hc.2]
      by_cases hfb : fallback = some r.data <;> simp [hc]
    · simp [hc]

lemma get_fillDestinations (hs : Sorted rs) (c d : ℕ) :
    (fillDestinations fallback rs).get c = some d ↔ lookup rs c = some d ∧ fallback ≠ some d := by
  rw [fillDestinations, get_foldl_fillRange fallback hs]
  cases lookup rs c with
  | none => simp
  | some t =>
    dsimp only
    split_ifs with hfb
    · simp [hfb]
    · refine ⟨fun h => ⟨h, ?_⟩, And.left⟩
      rwa [← h]

section

variable {f g : ℕ → Option ℕ} (hfg : ∀ c d, f c = some d → g c = some d)

include hfg

lemma Sound.mono {r : CheckRange} (h : Sound f r) : Sound g r := by
  obtain ⟨c, hc, hd⟩ := h.destination
  exact ⟨h.min_le_max, h.max_lt, fun c hc d hd => hfg c d (h.target c hc d hd), c, hc, hfg c _ hd⟩

lemma JumpTable.Sound.mono {table : JumpTable} (h : table.Sound f) : table.Sound g := by
  refine ⟨h.min_le_max, h.max_lt, h.length_destinations,
    fun c hc d hd => hfg c d (h.target c hc d hd), fun d hd => ?_⟩
  obtain ⟨c, hc, hcd⟩ := h.destination d hd
  exact ⟨c, hc, hfg c d hcd⟩

end

/-- The tables and the ranges do what the partial function `g` does. -/
structure Transitions.Finds (g : ℕ → Option ℕ) (t : Transitions) : Prop where
  table_sound : ∀ table ∈ t.jumpTables, table.Sound g
  range_sound : ∀ r ∈ t.ranges, Sound g r
  covered : ∀ c < 128, g c ≠ none →
    (∃ table ∈ t.jumpTables, (table.target? c).isSome) ∨ Covered t.ranges c

variable {node : DFANode}

/-- Tables and ranges are for the characters that do not lead to the target of the fallback. -/
lemma transitions_finds (hs : Sorted node.transitions) :
    ∃ g : ℕ → Option ℕ, (transitions node).Finds g ∧
      ∀ c d, g c = some d ↔ lookup node.transitions c = some d ∧
        (transitions node).fallbackTransitionTarget ≠ some d := by
  obtain ⟨fallback, hfb⟩ : ∃ fallback, fallback =
    if node.canUseFallbackTransition then some node.bestFallbackTarget else none := ⟨_, rfl⟩
  obtain ⟨dests, hdsts⟩ : ∃ dests, dests = fillDestinations fallback node.transitions := ⟨_, rfl⟩
  have heq : transitions node = ⟨(extractJumpTables (collectRanges dests)).jumpTables,
      (extractJumpTables (collectRanges dests)).passed, fallback⟩ := by
    rw [transitions, hdsts, hfb]
  obtain ⟨hsound, hcov⟩ := collectRanges_spec dests
  obtain ⟨hinv, hbase⟩ := extractJumpTables_spec hsound
  rw [heq]
  generalize extractJumpTables (collectRanges dests) = scan at hinv hbase
  refine ⟨dests.get, ⟨hinv.table_sound, hinv.passed_sound, ?_⟩,
    hdsts ▸ get_fillDestinations fallback hs⟩
  intro c hc hne
  rcases hinv.covered c (hcov c hc hne) with htable | hrng | ⟨r, hr, -⟩
  · exact .inl htable
  · exact .inr hrng
  · rw [hbase] at hr
    cases hr

/-- The tables, ranges and the fallback do what the partial function `f` does. At the end of the
string no fallback is taken. -/
structure Transitions.Realizes (f : ℕ → Option ℕ) (t : Transitions) : Prop where
  table_sound : ∀ table ∈ t.jumpTables, table.Sound f
  range_sound : ∀ r ∈ t.ranges, Sound f r
  fallback : ∀ d, t.fallbackTransitionTarget = some d → ∃ c < 128, f c = some d
  otherwise : ∀ c, 0 < c → c < 128 → (∀ table ∈ t.jumpTables, table.target? c = none) →
    (∀ r ∈ t.ranges, r.target? c = none) → f c = t.fallbackTransitionTarget

theorem transitions_realizes (hs : Sorted node.transitions)
    (hlast : ∀ r ∈ node.transitions, r.last ≤ 127) :
    (transitions node).Realizes (lookup node.transitions) := by
  obtain ⟨g, hfinds, hg⟩ := transitions_finds hs
  have hle : ∀ c d, g c = some d → lookup node.transitions c = some d :=
    fun c d hd => ((hg c d).1 hd).1
  have hfb : (transitions node).fallbackTransitionTarget =
    if node.canUseFallbackTransition then some node.bestFallbackTarget else none := rfl
  refine ⟨fun table htable => (hfinds.table_sound table htable).mono hle,
    fun r hr => (hfinds.range_sound r hr).mono hle, ?_, ?_⟩
  · intro d hd
    rw [hfb] at hd
    split_ifs at hd with huse
    obtain ⟨r, hr, hbest⟩ := DFANode.exists_bestFallbackTarget huse
    rw [hbest] at hd
    cases hd
    have hle := hs.first_le_last hr
    have := hlast r hr
    exact ⟨r.first, by omega, lookup_of_mem hs hr le_rfl hle⟩
  · intro c hpos hc htables hrngs
    -- a character that nothing matches has no destination of its own
    have hnone : g c = none := by
      by_contra hne
      rcases hfinds.covered c hc hne with ⟨table, htable, hsome⟩ | ⟨r, hr, hsome⟩
      · rw [htables table htable] at hsome
        cases hsome
      · rw [hrngs r hr] at hsome
        cases hsome
    cases hlook : lookup node.transitions c with
    | some d =>
      by_contra hne
      have := (hg c d).2 ⟨hlook, fun h => hne h.symm⟩
      rw [hnone] at this
      cases this
    | none =>
      rw [hfb]
      split_ifs with huse
      · exact absurd hlook (DFANode.lookup_of_canUseFallback huse hpos (by omega))
      · rfl

end DFABytecodeCompiler

end WebKit.ContentExtensions
