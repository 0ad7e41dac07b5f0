import WebKit.Core.StepFunction
import WebKit.Graphics.Region

/-!
# The rows of a shape

A shape lists rows: the `y` at which each span begins, with its segments. Operations on shapes
combine the rows of two shapes as step functions.
-/

namespace WebKit.Graphics

open WebKit.Core List

namespace Shape

/-- The `y` at which a span begins, and its segments. -/
abbrev Row := ℤ × List ℤ

/-- The spans of rows whose segments begin at index `i`. -/
def spansFrom (i : ℕ) : List Row → List Span
  | [] => []
  | (y, segments) :: rows => ⟨y, i⟩ :: spansFrom (i + segments.length) rows

/-- All segments of some rows. -/
def flat (rows : List Row) : List ℤ := rows.flatMap Prod.snd

/-- The shape with the given rows. -/
def ofRows (rows : List Row) : Shape := ⟨flat rows, spansFrom 0 rows⟩

@[simp] lemma flat_nil : flat [] = [] := rfl

@[simp] lemma flat_cons (row : Row) (rows : List Row) : flat (row :: rows) = row.2 ++ flat rows :=
  rfl

@[simp] lemma flat_append (rows rows' : List Row) :
    flat (rows ++ rows') = flat rows ++ flat rows' := flatMap_append

lemma spansFrom_append (i : ℕ) (rows rows' : List Row) :
    spansFrom i (rows ++ rows') = spansFrom i rows ++ spansFrom (i + (flat rows).length) rows' := by
  induction rows generalizing i with
  | nil => rfl
  | cons row rows ih =>
    simp only [cons_append, spansFrom, ih, flat_cons, length_append, Nat.add_assoc]

@[simp] lemma length_spansFrom (i : ℕ) (rows : List Row) :
    (spansFrom i rows).length = rows.length := by
  induction rows generalizing i with
  | nil => rfl
  | cons row rows ih => simp [spansFrom, ih]

variable {rows : List Row}

@[simp] lemma spansFrom_eq_nil {i : ℕ} : spansFrom i rows = [] ↔ rows = [] := by
  cases rows <;> simp [spansFrom]

@[simp] lemma isEmpty_ofRows : (ofRows rows).isEmpty = rows.isEmpty := by
  cases rows <;> rfl

variable {shape : Shape} {before : List ℤ}

/-- The segments of a span are those of its row. -/
lemma segmentsOf_spansFrom {row : Row}
    (h : shape.segments = before ++ flat (row :: rows)) (hlast : rows = [] → row.2 = []) :
    shape.segmentsOf (spansFrom before.length (row :: rows)) = row.2 := by
  cases rows with
  | nil => exact (hlast rfl).symm
  | cons next rows =>
    simp only [spansFrom, segmentsOf, h]
    rw [take_append]
    simp

/-! ### Appending rows -/

lemma getLast?_spansFrom_append (i : ℕ) (row : Row) :
    (spansFrom i (rows ++ [row])).getLast? = some ⟨row.1, i + (flat rows).length⟩ := by
  rw [spansFrom_append]
  exact getLast?_concat

lemma canCoalesce_ofRows (segs : List ℤ) :
    (ofRows rows).canCoalesce segs = true ↔ rows ≠ [] ∧ segs = lastValue [] rows := by
  rcases eq_nil_or_concat rows with rfl | ⟨rows, row, rfl⟩
  · simp [ofRows, canCoalesce, spansFrom]
  · rw [canCoalesce, ofRows, concat_eq_append, getLast?_spansFrom_append, lastValue_append]
    simp only [lastValue]
    simpa using eq_comm

lemma appendSpan_ofRows {segs : List ℤ} (h : ¬(rows ≠ [] ∧ segs = lastValue [] rows))
    (y : ℤ) : (ofRows rows).appendSpanWithSegments y segs = ofRows (rows ++ [(y, segs)]) := by
  rw [appendSpanWithSegments, if_neg (mt (canCoalesce_ofRows segs).1 h)]
  simp [appendSpan, ofRows, spansFrom_append, spansFrom]

/-- A row is appended if its segments are new. -/
lemma appendRow_ofRows (y : ℤ) (segs : List ℤ) :
    (if !segs.isEmpty || !(ofRows rows).isEmpty then
      (ofRows rows).appendSpanWithSegments y segs else ofRows rows) =
      ofRows (if segs = lastValue [] rows then rows else rows ++ [(y, segs)]) := by
  cases rows with
  | nil =>
    cases segs with
    | nil => rfl
    | cons x segs => exact appendSpan_ofRows (fun hand => hand.1 rfl) y
  | cons row rows =>
    simp only [isEmpty_ofRows, isEmpty_cons, Bool.not_false, Bool.or_true, if_true]
    split_ifs with h
    · rw [appendSpanWithSegments, if_pos ((canCoalesce_ofRows _).2 ⟨cons_ne_nil _ _, h⟩)]
    · exact appendSpan_ofRows (fun hand => h hand.2) y

variable {rest : List Row} {acc : List Row}

/-- The rows that are left are appended. Each of them is new. -/
lemma appendSpans_ofRows {other : Shape} (h : other.segments = before ++ flat rest)
    (hred : Reduced (lastValue [] acc) rest) (hlast : lastValue (lastValue [] acc) rest = [] ) :
    other.appendSpans (ofRows acc) (spansFrom before.length rest) = ofRows (acc ++ rest) := by
  induction rest generalizing before acc with
  | nil => rw [append_nil]; rfl
  | cons row rest ih =>
    obtain ⟨y, segs⟩ := row
    have hsegs := segmentsOf_spansFrom h fun hrest => by
      subst hrest
      exact hlast
    have hne : ¬(acc ≠ [] ∧ segs = lastValue [] acc) := fun hand => hred.1 hand.2
    have hacc : lastValue [] (acc ++ [(y, segs)]) = segs := by
      rw [lastValue_append]
      rfl
    have hoth : other.segments = (before ++ segs) ++ flat rest := by
      simp [h]
    have hred' : Reduced (lastValue [] (acc ++ [(y, segs)])) rest := by
      rw [hacc]
      exact hred.2.2
    have hlast' : lastValue (lastValue [] (acc ++ [(y, segs)])) rest = [] := by
      rw [hacc]
      exact hlast
    have hrest := ih hoth hred' hlast'
    rw [length_append, append_assoc] at hrest
    rw [spansFrom, appendSpans]
    rw [spansFrom] at hsegs
    rw [hsegs, appendSpan_ofRows hne, hrest]
    rfl

/-! ### Merging segments -/

/-- The flag with one bit for each of two spans. -/
def flagOf (b b' : Bool) : ℕ := b.toNat + 2 * b'.toNat

@[simp] lemma flagOf_xor_one (b b' : Bool) : flagOf b b' ^^^ 1 = flagOf (!b) b' := by
  cases b <;> cases b' <;> rfl

@[simp] lemma flagOf_xor_two (b b' : Bool) : flagOf b b' ^^^ 2 = flagOf b (!b') := by
  cases b <;> cases b' <;> rfl

/-- The constants of an operation belong to a combination of two truth values: the value changes
just when the flag becomes the code or was the code, and what is left of one list is kept just when
the other one does not matter. -/
structure Implements (op : Operation) (g : Bool → Bool → Bool) : Prop where
  changes : ∀ b b' c c', (b, b') ≠ (c, c') →
    ((flagOf c c' = op.opCode ∨ flagOf b b' = op.opCode) ↔ g c c' ≠ g b b')
  segmentsFromSpan1 : ∀ b, g b false = (op.shouldAddRemainingSegmentsFromSpan1 && b)
  segmentsFromSpan2 : ∀ b, g false b = (op.shouldAddRemainingSegmentsFromSpan2 && b)
  spansFromShape1 : op.shouldAddRemainingSpansFromShape1 = op.shouldAddRemainingSegmentsFromSpan1
  spansFromShape2 : op.shouldAddRemainingSpansFromShape2 = op.shouldAddRemainingSegmentsFromSpan2

lemma implements_unionOperation : Implements unionOperation (· || ·) := by
  constructor <;> decide

lemma implements_intersectOperation : Implements intersectOperation (· && ·) := by
  constructor <;> decide

lemma implements_subtractOperation : Implements subtractOperation fun b b' => b && !b' := by
  constructor <;> decide

/-- The segments that `g` makes of the segments of two rows. -/
def combineFrom (g : Bool → Bool → Bool) (b b' : Bool) (s s' : List ℤ) : List ℤ :=
  (reduce (g b b') (zipSteps g b b' (alternating b s) (alternating b' s'))).map Prod.fst

variable {op : Operation} {g : Bool → Bool → Bool}

lemma reduce_alternating (b : Bool) (l : List ℤ) :
    reduce b (alternating b l) = alternating b l := by
  induction l generalizing b with
  | nil => rfl
  | cons x l ih => rw [alternating, reduce, if_neg (by simp), ih]

/-- All steps are kept, or none. -/
lemma reduce_map_and (keep b : Bool) (s : List ℤ) :
    (reduce (keep && b) ((alternating b s).map fun e => (e.1, keep && e.2))).map Prod.fst =
      if keep then s else [] := by
  cases keep with
  | true =>
    simp [reduce_alternating]
  | false =>
    rw [reduce_eq_nil (by simp)]
    rfl

section

variable (h : Implements op g)

include h

/-- What is left of the first list when the second one is at its end. -/
lemma combineFrom_nil_right (b : Bool) (s : List ℤ) :
    combineFrom g b false s [] = if op.shouldAddRemainingSegmentsFromSpan1 then s else [] := by
  simp only [combineFrom, alternating, zipSteps_nil_right, h.segmentsFromSpan1, reduce_map_and]

lemma combineFrom_nil_left (b' : Bool) (s' : List ℤ) :
    combineFrom g false b' [] s' = if op.shouldAddRemainingSegmentsFromSpan2 then s' else [] := by
  simp only [combineFrom, alternating, zipSteps_nil_left, h.segmentsFromSpan2, reduce_map_and]

/-- One round: the value changes at the point `x`, or not. -/
lemma map_fst_reduce_cons {b b' c c' : Bool} (hne : (b, b') ≠ (c, c')) (x : ℤ)
    (l : List (ℤ × Bool)) (acc : List ℤ) :
    acc ++ (reduce (g b b') ((x, g c c') :: l)).map Prod.fst =
      (if flagOf c c' = op.opCode ∨ flagOf b b' = op.opCode then acc ++ [x] else acc) ++
        (reduce (g c c') l).map Prod.fst := by
  have hch := h.changes b b' c c' hne
  rw [reduce]
  by_cases heq : g c c' = g b b'
  · simp [if_neg (fun hcode => hch.1 hcode heq), heq]
  · rw [if_neg heq, if_pos (hch.2 heq)]
    simp

lemma mergeSegments_nil_left (rounds : ℕ) (s' : List ℤ) (b' : Bool) (acc : List ℤ) :
    mergeSegments op rounds [] s' (flagOf false b') acc = acc ++ combineFrom g false b' [] s' := by
  rw [combineFrom_nil_left h, mergeSegments.eq_def]
  cases op.shouldAddRemainingSegmentsFromSpan2 <;> cases s' <;> simp

lemma mergeSegments_nil_right (rounds : ℕ) (s : List ℤ) (b : Bool) (acc : List ℤ) :
    mergeSegments op rounds s [] (flagOf b false) acc = acc ++ combineFrom g b false s [] := by
  rw [combineFrom_nil_right h, mergeSegments.eq_def]
  cases op.shouldAddRemainingSegmentsFromSpan1 <;> cases s <;> simp

/-- The loop over the segments of two spans. A span that is at its end is outside. -/
lemma mergeSegments_eq (rounds : ℕ) (s s' : List ℤ) (b b' : Bool)
    (acc : List ℤ) (hrnd : s.length + s'.length ≤ rounds) (hb : b = decide (Odd s.length))
    (hb' : b' = decide (Odd s'.length)) :
    mergeSegments op rounds s s' (flagOf b b') acc = acc ++ combineFrom g b b' s s' := by
  induction rounds generalizing s s' b b' acc with
  | zero =>
    obtain rfl : s = [] := length_eq_zero_iff.1 (by omega)
    rw [show b = false by simpa using hb]
    exact mergeSegments_nil_left h 0 s' b' acc
  | succ rounds ih =>
    cases s with
    | nil =>
      rw [show b = false by simpa using hb]
      exact mergeSegments_nil_left h _ s' b' acc
    | cons x s =>
      cases s' with
      | nil =>
        rw [show b' = false by simpa using hb']
        exact mergeSegments_nil_right h _ (x :: s) b acc
      | cons x' s' =>
        have hodd : ∀ {c : Bool} {y : ℤ} {l : List ℤ}, c = decide (Odd (y :: l).length) →
            (!c) = decide (Odd l.length) := by
          rintro c y l rfl
          by_cases hl : Odd l.length <;> simp [hl, Nat.odd_add_one]
        rw [length_cons, length_cons] at hrnd
        -- the lower boundary is passed, or both at once, and the flags follow
        rcases lt_trichotomy x x' with hlt | rfl | hlt
        · simp only [mergeSegments, sub_nonneg, sub_nonpos, hlt.le, hlt.not_ge, if_true, if_false,
            flagOf_xor_one]
          rw [ih s (x' :: s') _ _ _ (by rw [length_cons]; omega) (hodd hb) hb']
          simp only [combineFrom, alternating]
          rw [zipSteps, if_pos hlt, map_fst_reduce_cons h (by simp)]
        · simp only [mergeSegments, sub_self, le_refl, if_true, flagOf_xor_one, flagOf_xor_two]
          rw [ih s s' _ _ _ (by omega) (hodd hb) (hodd hb')]
          simp only [combineFrom, alternating]
          rw [zipSteps, if_neg (lt_irrefl x), if_neg (lt_irrefl x), map_fst_reduce_cons h (by simp)]
        · simp only [mergeSegments, sub_nonneg, sub_nonpos, hlt.le, hlt.not_ge, if_true, if_false,
            flagOf_xor_two]
          rw [ih (x :: s) s' _ _ _ (by rw [length_cons]; omega) hb (hodd hb')]
          simp only [combineFrom, alternating]
          rw [zipSteps, if_neg hlt.not_gt, if_pos hlt, map_fst_reduce_cons h (by simp)]

end

/-- The segments that `g` makes of the segments of two rows. -/
def combine (g : Bool → Bool → Bool) : List ℤ → List ℤ → List ℤ := combineFrom g false false

lemma mergeSegments_eq_combine (h : Implements op g) {s s' : List ℤ} (hs : Even s.length)
    (hs' : Even s'.length) :
    mergeSegments op (s.length + s'.length) s s' 0 [] = combine g s s' := by
  have hmerge := mergeSegments_eq h (s.length + s'.length) s s' false false [] le_rfl
    (by simpa using hs) (by simpa using hs')
  rwa [nil_append] at hmerge

/-! ### Merging spans -/

lemma combine_nil_right (h : Implements op g) (s : List ℤ) :
    combine g s [] = if op.shouldAddRemainingSegmentsFromSpan1 then s else [] :=
  combineFrom_nil_right h false s

lemma combine_nil_left (h : Implements op g) (s' : List ℤ) :
    combine g [] s' = if op.shouldAddRemainingSegmentsFromSpan2 then s' else [] :=
  combineFrom_nil_left h false s'

variable {v : List ℤ}

/-- The rows that are left of a shape, after the row with the segments `v`. -/
structure Remaining (shape : Shape) (spans : List Span) (v : List ℤ) (rest : List Row) : Prop where
  exists_before : ∃ before, shape.segments = before ++ flat rest ∧
    spans = spansFrom before.length rest
  reduced : Reduced v rest
  last : lastValue v rest = []
  even : Even v.length ∧ ∀ row ∈ rest, Even row.2.length

variable {spans : List Span}

lemma Remaining.nil_iff (h : Remaining shape spans v rest) : spans = [] ↔ rest = [] := by
  obtain ⟨before, -, rfl⟩ := h.exists_before
  exact spansFrom_eq_nil

/-- The next span that is left. -/
lemma Remaining.next {span : Span} (h : Remaining shape (span :: spans) v rest) :
    ∃ rest', rest = (span.y, shape.segmentsOf (span :: spans)) :: rest' ∧
      Remaining shape spans (shape.segmentsOf (span :: spans)) rest' := by
  obtain ⟨before, hsegs, hspans⟩ := h.exists_before
  cases rest with
  | nil => cases hspans
  | cons row rest =>
    obtain ⟨y, segs⟩ := row
    have hrow := segmentsOf_spansFrom hsegs fun hnil => by
      have hlast := h.last
      rwa [hnil] at hlast
    rw [spansFrom] at hspans hrow
    obtain ⟨rfl, rfl⟩ := cons.inj hspans
    rw [hrow]
    refine ⟨rest, rfl, ⟨before ++ segs, ?_, ?_⟩, h.reduced.2.2, h.last, ?_⟩
    · simp [hsegs]
    · rw [length_append]
    · exact ⟨h.even.2 _ mem_cons_self, fun row hrow => h.even.2 row (mem_cons_of_mem _ hrow)⟩

/-- Append the rows that are left. -/
lemma Remaining.appendSpans {rest acc : List Row}
    (h : Remaining shape spans (lastValue [] acc) rest) :
    shape.appendSpans (ofRows acc) spans = ofRows (acc ++ rest) := by
  obtain ⟨before, hsegs, rfl⟩ := h.exists_before
  exact appendSpans_ofRows hsegs h.reduced h.last

/-- Append the rows that are left, or leave them. -/
lemma Remaining.append_if (h : Remaining shape spans v rest) {keep : Bool}
    (hacc : lastValue [] acc = if keep then v else []) :
    (if keep ∧ spans ≠ [] then shape.appendSpans (ofRows acc) spans else ofRows acc) =
      ofRows (acc ++ reduce (if keep then v else [])
        (rest.map fun e => (e.1, if keep then e.2 else []))) := by
  cases keep with
  | false => simp [reduce_eq_nil]
  | true =>
    rw [if_pos rfl] at hacc
    have happ := (hacc ▸ h).appendSpans
    by_cases hrest : rest = []
    · simp [hrest, h.nil_iff, reduce]
    · simpa [hrest, h.nil_iff, reduce_of_reduced h.reduced] using happ

/-- Append a row and go on with those that come after it. -/
lemma ofRows_reduce_cons (hacc : lastValue [] acc = v) (y : ℤ) (w : List ℤ) (l : List Row) :
    ofRows (acc ++ reduce v ((y, w) :: l)) =
      ofRows ((if w = lastValue [] acc then acc else acc ++ [(y, w)]) ++ reduce w l) := by
  rw [reduce, hacc]
  split_ifs with h
  · rw [h]
  · rw [append_assoc]
    rfl

lemma lastValue_appendRow (y : ℤ) (w : List ℤ) :
    lastValue [] (if w = lastValue [] acc then acc else acc ++ [(y, w)]) = w := by
  split_ifs with h
  · exact h.symm
  · rw [lastValue_append]
    rfl

section

variable {shape1 shape2 : Shape} {spans1 spans2 : List Span} {v1 v2 : List ℤ}
  {rest1 rest2 acc : List Row}

section

variable (h : Implements op g) (rounds : ℕ)

include h

lemma mergeSpans_nil_left (h1 : Remaining shape1 [] v1 rest1)
    (h2 : Remaining shape2 spans2 v2 rest2) (hacc : lastValue [] acc = combine g v1 v2) :
    mergeSpans op shape1 shape2 rounds [] spans2 v1 v2 (ofRows acc) =
      ofRows (acc ++ reduce (combine g v1 v2) (zipSteps (combine g) v1 v2 rest1 rest2)) := by
  obtain rfl := h1.nil_iff.1 rfl
  obtain rfl : v1 = [] := h1.last
  rw [combine_nil_left h] at hacc
  rw [mergeSpans.eq_def]
  simpa [combine_nil_left h, h.spansFromShape2] using h2.append_if hacc

lemma mergeSpans_nil_right (h1 : Remaining shape1 spans1 v1 rest1)
    (h2 : Remaining shape2 [] v2 rest2) (hacc : lastValue [] acc = combine g v1 v2) :
    mergeSpans op shape1 shape2 rounds spans1 [] v1 v2 (ofRows acc) =
      ofRows (acc ++ reduce (combine g v1 v2) (zipSteps (combine g) v1 v2 rest1 rest2)) := by
  obtain rfl := h2.nil_iff.1 rfl
  obtain rfl : v2 = [] := h2.last
  rw [combine_nil_right h] at hacc
  rw [mergeSpans.eq_def]
  simpa [combine_nil_right h, h.spansFromShape1] using h1.append_if hacc

/-- The loop over the spans of two shapes. -/
lemma mergeSpans_eq
    (hrnd : spans1.length + spans2.length ≤ rounds) (h1 : Remaining shape1 spans1 v1 rest1)
    (h2 : Remaining shape2 spans2 v2 rest2) (hacc : lastValue [] acc = combine g v1 v2) :
    mergeSpans op shape1 shape2 rounds spans1 spans2 v1 v2 (ofRows acc) =
      ofRows (acc ++ reduce (combine g v1 v2) (zipSteps (combine g) v1 v2 rest1 rest2)) := by
  induction rounds generalizing spans1 spans2 v1 v2 rest1 rest2 acc with
  | zero =>
    obtain rfl : spans1 = [] := length_eq_zero_iff.1 (by omega)
    exact mergeSpans_nil_left h 0 h1 h2 hacc
  | succ rounds ih =>
    cases spans1 with
    | nil => exact mergeSpans_nil_left h _ h1 h2 hacc
    | cons span1 spans1 =>
      cases spans2 with
      | nil => exact mergeSpans_nil_right h _ h1 h2 hacc
      | cons span2 spans2 =>
        obtain ⟨rest1', rfl, h1'⟩ := h1.next
        obtain ⟨rest2', rfl, h2'⟩ := h2.next
        generalize hs1 : shape1.segmentsOf (span1 :: spans1) = s1 at *
        generalize hs2 : shape2.segmentsOf (span2 :: spans2) = s2 at *
        rw [length_cons, length_cons] at hrnd
        rcases lt_trichotomy span1.y span2.y with hlt | heq | hlt
        · simp only [mergeSpans, sub_nonneg, sub_nonpos, hlt.le, hlt.not_ge, if_true, if_false, hs1]
          rw [mergeSegments_eq_combine h h1'.even.1 h2.even.1, appendRow_ofRows,
            ih (by rw [length_cons]; omega) h1' h2 (lastValue_appendRow _ _), zipSteps,
            if_pos hlt, ofRows_reduce_cons hacc]
        · have hzero : span1.y - span2.y = 0 := by omega
          simp only [mergeSpans, hzero, le_refl, if_true, hs1, hs2]
          rw [mergeSegments_eq_combine h h1'.even.1 h2'.even.1, appendRow_ofRows,
            ih (by omega) h1' h2' (lastValue_appendRow _ _), zipSteps, if_neg heq.not_lt,
            if_neg heq.not_gt, ofRows_reduce_cons hacc, heq]
        · simp only [mergeSpans, sub_nonneg, sub_nonpos, hlt.le, hlt.not_ge, if_true, if_false, hs2]
          rw [mergeSegments_eq_combine h h1.even.1 h2'.even.1, appendRow_ofRows,
            ih (by rw [length_cons]; omega) h1 h2' (lastValue_appendRow _ _), zipSteps,
            if_neg hlt.not_gt, if_pos hlt, ofRows_reduce_cons hacc]

end

end

/-! ### Well-formed rows -/

/-- The ends of segments are in ascending order, two for each segment. -/
structure WellFormedSegments (segments : List ℤ) : Prop where
  pairwise : segments.Pairwise (· < ·)
  even : Even segments.length

/-- The rows of a shape are all needed, and the last one ends it. -/
structure WellFormedRows (rows : List Row) : Prop where
  reduced : Reduced [] rows
  last : lastValue [] rows = []
  segments : ∀ row ∈ rows, WellFormedSegments row.2

/-- The rows that `g` makes of the rows of two shapes. -/
def combineRows (g : Bool → Bool → Bool) (rows rows' : List Row) : List Row :=
  reduce [] (zipSteps (combine g) [] [] rows rows')

lemma WellFormedRows.remaining (h : WellFormedRows rows) :
    Remaining (ofRows rows) (ofRows rows).spans [] rows where
  exists_before := ⟨[], rfl, rfl⟩
  reduced := h.reduced
  last := h.last
  even := ⟨by simp, fun row hrow => (h.segments row hrow).even⟩

lemma combine_nil_nil (h : Implements op g) : combine g [] [] = [] := by
  rw [combine_nil_right h]
  split_ifs <;> rfl

/-- What an operation on shapes does with their rows. -/
lemma shapeOperation_ofRows (h : Implements op g) {rows rows' : List Row}
    (hsimple : op.trySimpleOperation (ofRows rows) (ofRows rows') = none)
    (hrows : WellFormedRows rows) (hrows' : WellFormedRows rows') :
    shapeOperation op (ofRows rows) (ofRows rows') = ofRows (combineRows g rows rows') := by
  have hnil := combine_nil_nil h
  have hacc : lastValue [] ([] : List Row) = combine g [] [] := hnil.symm
  have hmerge := mergeSpans_eq h _ le_rfl hrows.remaining hrows'.remaining hacc
  rw [hnil] at hmerge
  rw [shapeOperation, hsimple]
  exact hmerge

end Shape

end WebKit.Graphics
