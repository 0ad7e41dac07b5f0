import WebKit.Graphics.RegionPoints

/-!
# The algebra of regions

Regions that are made of rectangles by uniting, intersecting, subtracting and translating have
exactly the points that these operations say, and a region is determined by its points. There are
two exceptions: a region made of an empty rectangle, and an empty region that is translated.
-/

namespace WebKit.Graphics

open WebKit.Core List IntRect Bool Set

variable {g : Bool → Bool → Bool} {x : ℤ}

namespace Shape

variable {rows rows' : List Row} {s s' : List ℤ}

/-! ### Coordinates -/

/-- The ends of combined segments are ends of the segments. -/
lemma mem_or_mem_of_mem_combine (h : x ∈ combine g s s') : x ∈ s ∨ x ∈ s' := by
  obtain ⟨e, he, rfl⟩ := mem_map.1 h
  have hkeys : ∀ {l : List ℤ}, ∀ e ∈ alternating false l, e.1 ∈ l := by
    intro l e he
    rw [← map_fst_alternating false l]
    exact mem_map_of_mem he
  exact forall_fst_zipSteps (P := fun x => x ∈ s ∨ x ∈ s') (fun e he => Or.inl (hkeys e he))
    (fun e he => Or.inr (hkeys e he)) e (mem_of_mem_reduce he)

lemma mem_or_of_mem_combineRows
    (h : x ∈ flat (combineRows g rows rows')) : x ∈ flat rows ∨ x ∈ flat rows' := by
  obtain ⟨row, hrow, hx⟩ := mem_flat.1 h
  refine forall_mem_zipSteps (P := fun s => ∀ x ∈ s, x ∈ flat rows)
    (Q := fun s => ∀ x ∈ s, x ∈ flat rows') (R := fun s => ∀ x ∈ s, x ∈ flat rows ∨ x ∈ flat rows')
    (fun s s' hs hs' x hx => (mem_or_mem_of_mem_combine hx).imp (hs x) (hs' x)) (by simp) (by simp)
    (fun row hrow x hx => mem_flat.2 ⟨row, hrow, hx⟩)
    (fun row hrow x hx => mem_flat.2 ⟨row, hrow, hx⟩) row (mem_of_mem_reduce hrow) x hx

/-! ### Comparing shapes -/

/-- A comparison for containment ends early only if it fails. -/
lemma firstResult_contains (c c' : Bool) :
    firstResult [(c, compareContainsOperation.aOutsideB),
        (c', compareContainsOperation.bOutsideA)] = if c' then some false else none := by
  cases c <;> cases c' <;> rfl

lemma firstResult_contains_segments (c c' c'' : Bool) :
    firstResult [(c, compareContainsOperation.aOverlapsB), (c', compareContainsOperation.aOutsideB),
      (c'', compareContainsOperation.bOutsideA)] = if c'' then some false else none := by
  cases c <;> cases c' <;> cases c'' <;> rfl

/-- A comparison fails, or it ends without a result and then `P` holds. -/
def FailsOr (result : Option Bool) (P : Prop) : Prop := result = some false ∨ result = none ∧ P

lemma FailsOr.imp {result : Option Bool} {P Q : Prop} (h : FailsOr result P) (hPQ : P → Q) :
    FailsOr result Q := Or.imp_right (And.imp_right hPQ) h

/-- The comparison of the segments `s'` with the segments `s` fails, or `s` contains them. -/
lemma compareSegments_contains (rounds : ℕ) (h : WellFormedSegments s)
    (h' : WellFormedSegments s') (hrnd : s.length + s'.length ≤ rounds) :
    FailsOr (compareSegments compareContainsOperation rounds s s')
      (∀ x, inside s' x = true → inside s x = true) := by
  induction rounds generalizing s s' with
  | zero =>
    obtain rfl : s' = [] := length_eq_zero_iff.1 (by omega)
    exact Or.inr ⟨by simp [compareSegments, firstResult_contains], by simp⟩
  | succ rounds ih =>
    match s, s', h, h' with
    | s, [], _, _ => exact Or.inr ⟨by simp [compareSegments, firstResult_contains], by simp⟩
    | _, [_], _, h' => exact absurd h'.even (by simp)
    | [], _ :: _ :: _, _, _ => exact Or.inl (by simp [compareSegments, firstResult_contains])
    | [_], _ :: _ :: _, h, _ => exact absurd h.even (by simp)
    | a :: maxA :: s, b :: maxB :: s', h, h' =>
      simp only [length_cons] at hrnd
      rw [compareSegments, firstResult_contains_segments]
      by_cases hba : b < a
      · exact Or.inl (by simp [hba])
      have hab : a ≤ b := not_lt.1 hba
      simp only [hba]
      rcases lt_trichotomy maxA maxB with hlt | rfl | hlt
      · simp only [hlt, hlt.not_gt]
        refine (ih h.tail h' (by simp only [length_cons]; omega)).imp fun hsub x hx => ?_
        exact (inside_cons_cons h).2 (Or.inr (hsub x hx))
      · simp only [lt_irrefl]
        refine (ih h.tail h'.tail (by omega)).imp fun hsub x hx => (inside_cons_cons h).2 ?_
        exact ((inside_cons_cons h').1 hx).imp (fun hx => ⟨hab.trans hx.1, hx.2⟩) (hsub x)
      · simp only [hlt, hlt.not_gt]
        refine (ih h h'.tail (by simp only [length_cons]; omega)).imp fun hsub x hx => ?_
        rcases (inside_cons_cons h').1 hx with hx | hx
        · exact (inside_cons_cons h).2 (Or.inl ⟨hab.trans hx.1, hx.2.trans hlt⟩)
        · exact hsub x hx

/-- A row and those after it have the same value where the next row holds. -/
lemma valueAt_tail {row next : Row} {y : ℤ} (hrow : row.1 ≤ y) (hnext : next.1 ≤ y) :
    valueAt [] (row :: next :: rows) y = valueAt [] (next :: rows) y := by
  simp [valueAt_cons_le hrow, valueAt_cons_le hnext]

section

variable {shape shape' : Shape} {spans spans' : List Span} {v v' : List ℤ} {rest rest' : List Row}

/-- At the last span nothing is inside. -/
lemma inside_of_length_le (h : Remaining shape spans v rest) (hspans : spans.length ≤ 1)
    (x y : ℤ) : inside (valueAt [] rest y) x = false := by
  match spans, hspans with
  | [], _ =>
    obtain rfl := h.nil_iff.1 rfl
    rfl
  | [span], _ =>
    obtain ⟨rest, rfl, hnext⟩ := h.next
    obtain rfl := hnext.nil_iff.1 rfl
    rw [valueAt]
    split_ifs <;> rfl

/-- When one shape is at its end the comparison fails if the other one is not. -/
lemma compareSpans_contains_end (rounds : ℕ) (hadPrevious hadPrevious' : Bool)
    (hspans : spans.length ≤ 1 ∨ spans'.length ≤ 1) :
    compareSpans compareContainsOperation shape shape' rounds spans spans' hadPrevious
      hadPrevious' = if 1 < spans'.length then some false else none := by
  have hend : compareSpans compareContainsOperation shape shape' rounds spans spans' hadPrevious
      hadPrevious' = firstResult [(1 < spans.length, compareContainsOperation.aOutsideB),
        (1 < spans'.length, compareContainsOperation.bOutsideA)] := by
    rw [compareSpans.eq_def]
    split
    · simp at hspans
    · rfl
  rw [hend, firstResult_contains]
  simp

/-- The rows of the first shape contain those of the second one, from where both begin. -/
def ContainsRows (rest rest' : List Row) : Prop :=
  ∀ x y, (∀ row ∈ rest.head?, row.1 ≤ y) → (∀ row ∈ rest'.head?, row.1 ≤ y) →
    inside (valueAt [] rest' y) x = true → inside (valueAt [] rest y) x = true

/-- One round of the comparison: the first rows, as far as both hold, and what comes after. -/
lemma ContainsRows.step {a nextA b nextB : Row} {restA restB : List Row}
    (hsegs : a.1 < nextB.1 → b.1 < nextA.1 → ∀ x, inside b.2 x = true → inside a.2 x = true)
    (hnext : ContainsRows (if nextB.1 < nextA.1 then a :: nextA :: restA else nextA :: restA)
      (if nextA.1 < nextB.1 then b :: nextB :: restB else nextB :: restB)) :
    ContainsRows (a :: nextA :: restA) (b :: nextB :: restB) := by
  intro x y ha hb hx
  replace ha : a.1 ≤ y := ha a rfl
  replace hb : b.1 ≤ y := hb b rfl
  by_cases hy : y < nextA.1 ∧ y < nextB.1
  · rw [valueAt_cons_le hb, valueAt_cons_lt hy.2] at hx
    rw [valueAt_cons_le ha, valueAt_cons_lt hy.1]
    exact hsegs (ha.trans_lt hy.2) (hb.trans_lt hy.1) x hx
  · rw [not_and_or, not_lt, not_lt] at hy
    rcases lt_trichotomy nextA.1 nextB.1 with hlt | heq | hlt
    · have hyA : nextA.1 ≤ y := hy.elim id hlt.le.trans
      rw [if_neg hlt.not_gt, if_pos hlt] at hnext
      rw [valueAt_tail ha hyA]
      exact hnext x y (by simpa using hyA) (by simpa using hb) hx
    · have hyA : nextA.1 ≤ y := hy.elim id heq.le.trans
      have hyB : nextB.1 ≤ y := heq ▸ hyA
      rw [if_neg heq.not_gt, if_neg heq.not_lt] at hnext
      rw [valueAt_tail hb hyB] at hx
      rw [valueAt_tail ha hyA]
      exact hnext x y (by simpa using hyA) (by simpa using hyB) hx
    · have hyB : nextB.1 ≤ y := hy.elim hlt.le.trans id
      rw [if_pos hlt, if_neg hlt.not_gt] at hnext
      rw [valueAt_tail hb hyB] at hx
      exact hnext x y (by simpa using ha) (by simpa using hyB) hx

/-- The comparison of the spans that are left fails, or the first shape contains the second one. -/
lemma compareSpans_contains (rounds : ℕ) (hadPrevious hadPrevious' : Bool)
    (h : Remaining shape spans v rest) (h' : Remaining shape' spans' v' rest')
    (hrest : ∀ row ∈ rest, WellFormedSegments row.2)
    (hrest' : ∀ row ∈ rest', WellFormedSegments row.2)
    (hrnd : spans.length + spans'.length ≤ rounds) :
    FailsOr (compareSpans compareContainsOperation shape shape' rounds spans spans' hadPrevious
      hadPrevious') (ContainsRows rest rest') := by
  induction rounds generalizing spans spans' v v' rest rest' hadPrevious hadPrevious' with
  | zero =>
    rw [compareSpans_contains_end _ _ _ (by omega), if_neg (by omega)]
    refine Or.inr ⟨rfl, fun x y _ _ hx => ?_⟩
    rw [inside_of_length_le h' (by omega)] at hx
    cases hx
  | succ rounds ih =>
    by_cases hend : spans.length ≤ 1 ∨ spans'.length ≤ 1
    · rw [compareSpans_contains_end _ _ _ hend]
      split_ifs with hlen
      · exact Or.inl rfl
      · refine Or.inr ⟨rfl, fun x y _ _ hx => ?_⟩
        rw [inside_of_length_le h' (not_lt.1 hlen)] at hx
        cases hx
    match spans, spans', h, h', hrnd, hend with
    | [], _, _, _, _, hend | [_], _, _, _, _, hend => simp at hend
    | _ :: _ :: _, [], _, _, _, hend | _ :: _ :: _, [_], _, _, _, hend => simp at hend
    | a :: nextA :: spans, b :: nextB :: spans', h, h', hrnd, _ =>
      obtain ⟨restA, rfl, hA⟩ := h.next
      obtain ⟨restB, rfl, hB⟩ := h'.next
      obtain ⟨hsegmentsA, hrestA⟩ := forall_mem_cons.1 hrest
      obtain ⟨hsegmentsB, hrestB⟩ := forall_mem_cons.1 hrest'
      obtain ⟨restA', rfl, -⟩ := hA.next
      obtain ⟨restB', rfl, -⟩ := hB.next
      simp only [length_cons] at hrnd
      rw [compareSpans, firstResult_contains]
      generalize hsA : shape.segmentsOf (a :: nextA :: spans) = sA at *
      generalize hsB : shape'.segmentsOf (b :: nextB :: spans') = sB at *
      generalize hhadA : (!sA.isEmpty) = hadA
      generalize hhadB : (!sB.isEmpty) = hadB
      generalize hr : compareSpans compareContainsOperation shape shape' rounds
        (if nextB.y < nextA.y then a :: nextA :: spans else nextA :: spans)
        (if nextA.y < nextB.y then b :: nextB :: spans' else nextB :: spans') hadA hadB = r
      -- the list whose next span starts first moves on, and both do at the same row
      have hloop : FailsOr r (ContainsRows
          (if nextB.y < nextA.y then
            (a.y, sA) :: (nextA.y, shape.segmentsOf (nextA :: spans)) :: restA'
          else (nextA.y, shape.segmentsOf (nextA :: spans)) :: restA')
          (if nextA.y < nextB.y then
            (b.y, sB) :: (nextB.y, shape'.segmentsOf (nextB :: spans')) :: restB'
          else (nextB.y, shape'.segmentsOf (nextB :: spans')) :: restB')) := by
        rw [← hr]
        rcases lt_trichotomy nextA.y nextB.y with hlt | heq | hlt
        · simp only [hlt, hlt.not_gt, if_true, if_false]
          exact ih hadA hadB hA h' hrestA hrest' (by simp only [length_cons]; omega)
        · simp only [heq.not_lt, heq.not_gt, if_false]
          exact ih hadA hadB hA hB hrestA hrestB (by simp only [length_cons]; omega)
        · simp only [hlt, hlt.not_gt, if_true, if_false]
          exact ih hadA hadB h hB hrest hrestB (by simp only [length_cons]; omega)
      -- the segments are compared only where the two spans share a row
      split_ifs with hfst hoverlap hoverlap
      · exact Or.inl rfl
      · exact Or.inl rfl
      · rcases compareSegments_contains (sA.length + sB.length) hsegmentsA hsegmentsB le_rfl with
          hfalse | ⟨hnone, hsub⟩
        · exact Or.inl (by rw [hfalse]; rfl)
        · rw [hnone]
          exact hloop.imp fun hrows => .step (fun _ _ => hsub) hrows
      · exact hloop.imp fun hrows => .step (fun h₁ h₂ => absurd ⟨h₁, h₂⟩ hoverlap) hrows

end

end Shape

/-! ### Regions and their points -/

namespace Region

open Shape

variable {region other : Region} {S S' : Set IntPoint}

/-- All coordinates of the region are of absolute value below `2 ^ 29`. -/
def InRange (region : Region) : Prop :=
  (∀ x ∈ region.shape.segments, -2 ^ 29 < x ∧ x < 2 ^ 29) ∧
    ∀ span ∈ region.shape.spans, -2 ^ 29 < span.y ∧ span.y < 2 ^ 29

instance (region : Region) : Decidable region.InRange :=
  inferInstanceAs (Decidable (_ ∧ _))

/-- The region has the points `S`, and its shape and its bounds are those that these points
determine. -/
structure Represents (region : Region) (S : Set IntPoint) : Prop where
  rows : ∃ rows, region.shape = ofRows rows ∧ WellFormedRows rows ∧ points rows = S
  bounds : S = ∅ ∧ region.bounds = .empty ∨ IsBoundingBox region.bounds S

section

variable (h : Represents region S)

include h

/-- A region is determined by its points. -/
lemma Represents.eq (h' : Represents other S) : region = other := by
  obtain ⟨rows, hshape, hrows, hpts⟩ := h.rows
  obtain ⟨rows', hshape', hrows', hpts'⟩ := h'.rows
  obtain rfl := hrows.ext hrows' (hpts.trans hpts'.symm)
  have hbd : region.bounds = other.bounds := by
    rcases h.bounds with ⟨hemp, hbd⟩ | hbox
    · rcases h'.bounds with ⟨-, hbd'⟩ | hbox'
      · rw [hbd, hbd']
      · exact absurd hemp hbox'.nonempty.ne_empty
    · rcases h'.bounds with ⟨hemp, -⟩ | hbox'
      · exact absurd hemp hbox.nonempty.ne_empty
      · exact hbox.eq hbox'
  cases region
  cases other
  simp_all

lemma Represents.isEmpty_iff : region.bounds.isEmpty = true ↔ S = ∅ := by
  rcases h.bounds with ⟨hemp, hbd⟩ | hbox
  · rw [hbd]
    exact iff_of_true rfl hemp
  · exact iff_of_false (by simp [hbox.isEmpty]) hbox.nonempty.ne_empty

lemma Represents.isBoundingBox (hS : S.Nonempty) : IsBoundingBox region.bounds S :=
  h.bounds.resolve_left fun hemp => hS.ne_empty hemp.1

/-- The bounds of a region that has no points contain no point. -/
lemma Represents.isBoundingBox_of_contains {p : IntPoint}
    (hp : region.bounds.containsPoint p = true) : IsBoundingBox region.bounds S := by
  refine h.bounds.resolve_left fun ⟨_, hbd⟩ => ?_
  rw [hbd, containsPoint_iff] at hp
  simp only [IntRect.empty, IntRect.maxX, IntRect.width] at hp
  omega

end

lemma represents_empty : Represents .empty ∅ := by
  refine ⟨⟨[], rfl, ⟨trivial, rfl, nofun⟩, ?_⟩, Or.inl ⟨rfl, rfl⟩⟩
  simp [points, valueAt]

/-! ### Rectangles -/

lemma ofRect_eq_ofRows (r : IntRect) :
    Shape.ofRect r = ofRows [(r.y, [r.x, r.maxX]), (r.maxY, [])] := rfl

variable {p : IntPoint}

lemma mem_points_rect {maxX y maxY : ℤ} (hx : x < maxX) :
    p ∈ points [(y, [x, maxX]), (maxY, [])] ↔ (x ≤ p.x ∧ p.x < maxX) ∧ y ≤ p.y ∧ p.y < maxY := by
  have hsegs : WellFormedSegments [x, maxX] := ⟨by simpa using hx, by simp⟩
  rw [mem_points]
  rcases lt_or_ge p.y y with hp | hp
  · rw [valueAt_cons_lt hp]
    simp [hp.not_ge]
  · rw [valueAt_cons_le hp]
    rcases lt_or_ge p.y maxY with hp' | hp'
    · rw [valueAt_cons_lt hp', inside_cons_cons hsegs]
      simp [hp, hp']
    · simp [valueAt, hp'.not_gt]

lemma represents_ofRect {r : IntRect} (h : r.isEmpty = false) :
    Represents (ofRect r) {p | r.containsPoint p = true} := by
  obtain ⟨hwidth, hheight⟩ := isEmpty_eq_false_iff.1 h
  have hx : r.x < r.maxX := Int.lt_add_of_pos_right _ hwidth
  have hy : r.y < r.maxY := Int.lt_add_of_pos_right _ hheight
  have hsegs : WellFormedSegments [r.x, r.maxX] := ⟨by simpa using hx, by simp⟩
  refine ⟨⟨_, ofRect_eq_ofRows r,
    ⟨⟨by simp, by simpa using hy, by simp, by simp, trivial⟩, rfl, ?_⟩, ?_⟩,
    Or.inr ⟨fun p hp => hp, ⟨⟨r.x, r.y⟩, ?_, rfl⟩, ⟨⟨r.maxX - 1, r.y⟩, ?_, sub_add_cancel _ _⟩,
      ⟨⟨r.x, r.y⟩, ?_, rfl⟩, ⟨⟨r.x, r.maxY - 1⟩, ?_, sub_add_cancel _ _⟩⟩⟩
  · rw [forall_mem_cons, forall_mem_singleton]
    exact ⟨hsegs, wellFormed_nil⟩
  · ext p
    simp [mem_points_rect hx, containsPoint_iff]
  all_goals
    rw [mem_ofPred_eq, containsPoint_iff]
    refine ⟨⟨?_, ?_⟩, ?_, ?_⟩ <;> dsimp only <;> omega

/-! ### Operations -/

/-- The coordinates along the `x` axis are integers of the machine. -/
lemma InRange.segments (h : InRange region) (hx : x ∈ region.shape.segments) :
    -2 ^ 31 ≤ x ∧ x ≤ 2 ^ 31 - 1 := by
  obtain ⟨h₁, h₂⟩ := h.1 x hx
  omega

/-- What an operation on shapes makes of two regions, with the bounds of the new shape. -/
lemma represents_shapeOperation {op : Operation} (hop : Implements op g)
    (hg : g false false = false) (hsimple : op.trySimpleOperation region.shape other.shape = none)
    (h : Represents region S) (h' : Represents other S') (hrng : InRange region)
    (hrng' : InRange other) {T : Set IntPoint}
    (hT : ∀ p (b b' : Bool), (p ∈ S ↔ b = true) → (p ∈ S' ↔ b' = true) → (p ∈ T ↔ g b b' = true)) :
    Represents ⟨(shapeOperation op region.shape other.shape).bounds,
      shapeOperation op region.shape other.shape⟩ T := by
  obtain ⟨rows, hshape, hrows, rfl⟩ := h.rows
  obtain ⟨rows', hshape', hrows', rfl⟩ := h'.rows
  have hwellFormed := wellFormedRows_combineRows hg hrows hrows'
  have hpts : points (combineRows g rows rows') = T := by
    ext p
    rw [mem_points_combineRows hg hrows hrows']
    exact (hT p _ _ Iff.rfl Iff.rfl).symm
  have hoperation :
      shapeOperation op region.shape other.shape = ofRows (combineRows g rows rows') := by
    rw [hshape, hshape'] at hsimple ⊢
    exact shapeOperation_ofRows hop hsimple hrows hrows'
  refine ⟨⟨_, hoperation, hwellFormed, hpts⟩, ?_⟩
  rw [hoperation]
  by_cases hnil : combineRows g rows rows' = []
  · left
    rw [hnil] at hpts ⊢
    exact ⟨by rw [← hpts]; ext p; simp [points, valueAt], rfl⟩
  · right
    rw [← hpts]
    refine isBoundingBox_bounds hwellFormed hnil fun x hx => ?_
    rcases mem_or_of_mem_combineRows hx with hx | hx
    · exact hrng.segments (by rw [hshape]; exact hx)
    · exact hrng'.segments (by rw [hshape']; exact hx)

section

variable (h : Represents region S) (h' : Represents other S')

include h h'

/-- Two regions whose bounds do not intersect have no point in common. -/
lemma not_mem_of_not_intersects
    (hint : region.bounds.intersects other.bounds = false) (hp : p ∈ S) : p ∉ S' := by
  intro hp'
  have hbox := h.isBoundingBox ⟨p, hp⟩
  have hbox' := h'.isBoundingBox ⟨p, hp'⟩
  obtain ⟨⟨h₁, h₂⟩, h₃, h₄⟩ := containsPoint_iff.1 (hbox.contains p hp)
  obtain ⟨⟨h₁', h₂'⟩, h₃', h₄'⟩ := containsPoint_iff.1 (hbox'.contains p hp')
  have htrue : region.bounds.intersects other.bounds = true := by
    simp only [IntRect.intersects, hbox.isEmpty, hbox'.isEmpty, Bool.not_false, Bool.true_and,
      Bool.and_eq_true, decide_eq_true_eq]
    exact ⟨⟨⟨h₁.trans_lt h₂', h₁'.trans_lt h₂⟩, h₃.trans_lt h₄'⟩, h₃'.trans_lt h₄⟩
  rw [htrue] at hint
  cases hint

lemma Represents.intersect (hrng : InRange region) (hrng' : InRange other) :
    Represents (region.intersect other) (S ∩ S') := by
  unfold Region.intersect
  split_ifs with hemp hint
  · rw [h.isEmpty_iff] at hemp
    rwa [hemp, empty_inter, ← hemp]
  · have hdisj : S ∩ S' = ∅ := eq_empty_iff_forall_notMem.2 fun p hp =>
      not_mem_of_not_intersects h h' (by simpa using hint) hp.1 hp.2
    rw [hdisj]
    exact represents_empty
  · refine represents_shapeOperation implements_intersectOperation rfl rfl h h' hrng hrng'
      fun p b b' hb hb' => ?_
    simp [hb, hb']

lemma Represents.subtract (hrng : InRange region) (hrng' : InRange other) :
    Represents (region.subtract other) (S \ S') := by
  unfold Region.subtract
  split_ifs with hemp hemp' hint
  · rw [h.isEmpty_iff] at hemp
    rwa [hemp, empty_sdiff, ← hemp]
  · rw [Region.isEmpty, h'.isEmpty_iff] at hemp'
    rwa [hemp', sdiff_empty]
  · have hsame : S \ S' = S := sdiff_eq_left.2 (disjoint_left.2 fun p hp =>
      not_mem_of_not_intersects h h' (by simpa using hint) hp)
    rwa [hsame]
  · refine represents_shapeOperation implements_subtractOperation rfl rfl h h' hrng hrng'
      fun p b b' hb hb' => ?_
    rw [mem_sdiff, hb, hb']
    simp

end

/-- A region that is a rectangle has all points of its bounds. -/
lemma Represents.mem_of_isRect (h : Represents region S) (hS : S.Nonempty)
    (hrect : region.isRect = true) (hp : region.bounds.containsPoint p = true) : p ∈ S := by
  obtain ⟨rows, hshape, hrows, rfl⟩ := h.rows
  obtain ⟨hspans, hsegs⟩ : rows.length ≤ 2 ∧ (flat rows).length ≤ 2 := by
    rw [Region.isRect, hshape] at hrect
    simp only [Shape.isRect, ofRows, length_spansFrom, and_eq_true, decide_eq_true_eq] at hrect
    exact ⟨hrect.1, of_decide_eq_true hrect.2⟩
  rcases rows with _ | ⟨row, _ | ⟨⟨maxY, last⟩, _ | ⟨_, _⟩⟩⟩
  · simp [points, valueAt] at hS
  · exact absurd hrows.last hrows.reduced.1
  · obtain ⟨y, segs⟩ := row
    obtain rfl : last = [] := hrows.last
    rcases segs with _ | ⟨x, _ | ⟨maxX, _ | ⟨_, _⟩⟩⟩
    · exact absurd rfl hrows.reduced.1
    · exact absurd (hrows.segments _ mem_cons_self).even (by simp)
    · have hx : x < maxX := (hrows.segments _ mem_cons_self).lt
      have hbox := h.isBoundingBox hS
      obtain ⟨⟨h₁, h₂⟩, h₃, h₄⟩ := containsPoint_iff.1 hp
      obtain ⟨q₁, hq₁, hleft⟩ := hbox.left
      obtain ⟨q₂, hq₂, hrt⟩ := hbox.right
      obtain ⟨q₃, hq₃, htop⟩ := hbox.top
      obtain ⟨q₄, hq₄, hbottom⟩ := hbox.bottom
      rw [mem_points_rect hx] at hq₁ hq₂ hq₃ hq₄ ⊢
      omega
    · simp at hsegs
  · simp at hspans

/-- Bounds that contain those of a region contain its points. -/
lemma mem_of_contains_bounds (h' : Represents other S')
    (hcon : region.bounds.contains other.bounds = true) (hp : p ∈ S') :
    region.bounds.containsPoint p = true := by
  have hbox := h'.isBoundingBox ⟨p, hp⟩
  simp only [IntRect.contains, and_eq_true, decide_eq_true_eq] at hcon
  obtain ⟨⟨⟨h₁, h₂⟩, h₃⟩, h₄⟩ := hcon
  have hp' := containsPoint_iff.1 (hbox.contains p hp)
  exact containsPoint_iff.2 ⟨⟨h₁.trans hp'.1.1, hp'.1.2.trans_le h₂⟩, h₃.trans hp'.2.1,
    hp'.2.2.trans_le h₄⟩

lemma Represents.subset_of_isRect (h : Represents region S) (h' : Represents other S')
    (hrect : region.isRect = true) (hcon : region.bounds.contains other.bounds = true) :
    S' ⊆ S := by
  intro p hp
  have hcontainsPoint := mem_of_contains_bounds h' hcon hp
  exact h.mem_of_isRect (h.isBoundingBox_of_contains hcontainsPoint).nonempty hrect hcontainsPoint

/-- A region that contains another one as the comparison says. -/
lemma Represents.subset_of_contains (h : Represents region S) (h' : Represents other S')
    (hcon : region.contains other = true) : S' ⊆ S := by
  obtain ⟨rows, hshape, hrows, rfl⟩ := h.rows
  obtain ⟨rows', hshape', hrows', rfl⟩ := h'.rows
  rw [Region.contains, and_eq_true] at hcon
  obtain ⟨hbd, hcmp⟩ := hcon
  intro p hp
  have hcontainsPoint := mem_of_contains_bounds h' hbd hp
  obtain ⟨row', rows', rfl⟩ : ∃ row tail, rows' = row :: tail := by
    cases rows' with
    | nil => simp [points, valueAt] at hp
    | cons row tail => exact ⟨row, tail, rfl⟩
  have hst' : row'.1 ≤ p.y := (hrows'.between hp).1
  have hst : ∀ row ∈ rows.head?, row.1 ≤ p.y := by
    intro row hrow
    obtain ⟨tail, rfl⟩ := head?_eq_some_iff.1 hrow
    obtain ⟨q, hq, htop⟩ := (h.isBoundingBox_of_contains hcontainsPoint).top
    exact (hrows.between hq).1.trans (htop ▸ (containsPoint_iff.1 hcontainsPoint).2.1)
  rw [hshape, hshape', compareShapes] at hcmp
  rcases compareSpans_contains _ false false hrows.remaining hrows'.remaining hrows.segments
    hrows'.segments le_rfl with hfalse | ⟨-, hsub⟩
  · rw [hfalse] at hcmp
    cases hcmp
  · exact hsub p.x p.y hst (by simpa using hst') hp

lemma exists_mem_of_choice {f : IntPoint → ℤ} {m a b : ℤ} (hm : m = a ∨ m = b)
    (h : ∃ p ∈ S, f p = a) (h' : ∃ p ∈ S', f p = b) : ∃ p ∈ S ∪ S', f p = m := by
  rcases hm with rfl | rfl
  · exact h.imp fun p hp => ⟨Or.inl hp.1, hp.2⟩
  · exact h'.imp fun p hp => ⟨Or.inr hp.1, hp.2⟩

/-- The bounds of a union. -/
lemma isBoundingBox_unite {r r' : IntRect} (h : IsBoundingBox r S) (h' : IsBoundingBox r' S') :
    IsBoundingBox (r.unite r') (S ∪ S') := by
  have hunite : r.unite r' = ⟨⟨min r.x r'.x, min r.y r'.y⟩,
      ⟨max r.maxX r'.maxX - min r.x r'.x, max r.maxY r'.maxY - min r.y r'.y⟩⟩ := by
    simp [IntRect.unite, h.isEmpty, h'.isEmpty]
  have hx : ∀ {p : IntPoint}, r.containsPoint p = true ∨ r'.containsPoint p = true →
      (min r.x r'.x ≤ p.x ∧ p.x < max r.maxX r'.maxX) ∧
        min r.y r'.y ≤ p.y ∧ p.y < max r.maxY r'.maxY := by
    rintro p (hp | hp) <;> have hp := containsPoint_iff.1 hp <;> omega
  rw [hunite]
  refine ⟨fun p hp => ?_, ?_, ?_, ?_, ?_⟩
  · rw [containsPoint_iff]
    simp only [IntRect.x, IntRect.y, IntRect.maxX, IntRect.maxY, IntRect.width, IntRect.height,
      add_sub_cancel]
    exact hx (hp.imp (h.contains p) (h'.contains p))
  · exact exists_mem_of_choice (min_choice _ _) h.left h'.left
  · simp only [IntRect.maxX, IntRect.x, IntRect.width, add_sub_cancel]
    exact exists_mem_of_choice (max_choice _ _) h.right h'.right
  · exact exists_mem_of_choice (min_choice _ _) h.top h'.top
  · simp only [IntRect.maxY, IntRect.y, IntRect.height, add_sub_cancel]
    exact exists_mem_of_choice (max_choice _ _) h.bottom h'.bottom

lemma Represents.unite (h : Represents region S) (h' : Represents other S') (hrng : InRange region)
    (hrng' : InRange other) : Represents (region.unite other) (S ∪ S') := by
  unfold Region.unite
  split_ifs with hemp hrect hrect' hcon
  · rw [Region.isEmpty, h'.isEmpty_iff] at hemp
    rwa [hemp, union_empty]
  · rw [and_eq_true] at hrect
    rwa [union_eq_self_of_subset_right (h.subset_of_isRect h' hrect.1 hrect.2)]
  · rw [and_eq_true] at hrect'
    rwa [union_eq_self_of_subset_left (h'.subset_of_isRect h hrect'.1 hrect'.2)]
  · rw [and_eq_true] at hcon
    rwa [union_eq_self_of_subset_right (h.subset_of_contains h' hcon.2)]
  · have hS' : S'.Nonempty := by
      rw [nonempty_iff_ne_empty]
      exact fun hS' => hemp (h'.isEmpty_iff.2 hS')
    have hbox' := h'.isBoundingBox hS'
    by_cases hshape : region.shape.isEmpty = true
    · have hunion : unionShapes region.shape other.shape = other.shape := by
        simp [unionShapes, shapeOperation, unionOperation, hshape]
      have hS : S = ∅ := by
        obtain ⟨rows, hrows, -, rfl⟩ := h.rows
        rw [hrows, isEmpty_ofRows, List.isEmpty_iff] at hshape
        simp [points, valueAt, hshape]
      have hbd : region.bounds.unite other.bounds = other.bounds := by
        simp [IntRect.unite, hbox'.isEmpty, h.isEmpty_iff.2 hS]
      rw [hunion, hbd, hS, empty_union]
      exact h'
    · have hunion := represents_shapeOperation implements_unionOperation rfl
        (by simp [unionOperation, hshape]) h h' hrng hrng' (T := S ∪ S')
        (fun p b b' hb hb' => by simp [hb, hb'])
      refine ⟨hunion.rows, Or.inr (isBoundingBox_unite (h.isBoundingBox ?_) hbox')⟩
      obtain ⟨rows, hrows, hwellFormed, rfl⟩ := h.rows
      rw [hrows, isEmpty_ofRows, List.isEmpty_iff] at hshape
      obtain ⟨row, rows, rfl⟩ := List.exists_cons_of_ne_nil hshape
      obtain ⟨x, hx⟩ := (hwellFormed.segments row List.mem_cons_self).exists_inside
        hwellFormed.reduced.1
      exact ⟨_, mem_points_of_mem hwellFormed List.mem_cons_self hx⟩

/-! ### Translations -/

/-- A row that is moved. -/
def moveRow (offset : IntSize) (row : Row) : Row :=
  (row.1 + offset.height, row.2.map (· + offset.width))

/-- The points that are moved. -/
def moved (offset : IntSize) (S : Set IntPoint) : Set IntPoint :=
  {p | ⟨p.x - offset.width, p.y - offset.height⟩ ∈ S}

lemma translate_ofRows (off : IntSize) (rows : List Row) :
    (ofRows rows).translate off = ofRows (rows.map (moveRow off)) := by
  have hspans : ∀ i, (spansFrom i rows).map (fun span => { span with y := span.y + off.height }) =
      spansFrom i (rows.map (moveRow off)) := by
    induction rows with
    | nil => exact fun _ => rfl
    | cons row rows ih =>
      simp [spansFrom, moveRow, ih]
  have hflat : (flat rows).map (· + off.width) = flat (rows.map (moveRow off)) := by
    simp [flat, moveRow, flatMap, Function.comp_def]
  rw [Shape.translate, ofRows, ofRows, ← hspans, ← hflat]

lemma inside_map_add (c : ℤ) (segs : List ℤ) (x : ℤ) :
    inside (segs.map (· + c)) (x + c) = inside segs x := by
  have halt : ∀ b, alternating b (segs.map (· + c)) =
      (alternating b segs).map fun e => (e.1 + c, id e.2) := by
    induction segs with
    | nil => exact fun _ => rfl
    | cons k segs ih =>
      simp [alternating, ih]
  rw [inside, halt]
  exact valueAt_map (fun t k => add_lt_add_iff_right c) id false (alternating false segs) x

lemma wellFormedRows_move {rows : List Row} (h : WellFormedRows rows) (off : IntSize) :
    WellFormedRows (rows.map (moveRow off)) where
  reduced := h.reduced.map (fun t k => add_lt_add_iff_right off.height)
    (map_injective_iff.2 (add_left_injective off.width))
  last := by
    have hlast := lastValue_map (· + off.height) (map (· + off.width)) [] rows
    rw [h.last] at hlast
    exact hlast
  segments := forall_mem_map.2 fun row hrow => by
    refine ⟨pairwise_map.2 ((h.segments row hrow).pairwise.imp ?_), ?_⟩
    · exact fun hlt => add_lt_add_left hlt _
    · rw [moveRow, length_map]
      exact (h.segments row hrow).even

lemma points_move (rows : List Row) (off : IntSize) :
    points (rows.map (moveRow off)) = moved off (points rows) := by
  ext p
  have hval := valueAt_map (φ := (· + off.height))
    (fun t k => add_lt_add_iff_right off.height) (map (· + off.width)) [] rows
    (p.y - off.height)
  have hinside := inside_map_add off.width (valueAt [] rows (p.y - off.height)) (p.x - off.width)
  rw [sub_add_cancel] at hval hinside
  rw [mem_points, moved, mem_ofPred_eq, mem_points, ← hinside, ← hval]
  rfl

/-- A region that is not empty is translated with its points. -/
lemma Represents.translate (h : Represents region S) (hS : S.Nonempty) (off : IntSize) :
    Represents (region.translate off) (moved off S) := by
  have hbox := h.isBoundingBox hS
  have hmoved : ∀ p ∈ S, (⟨p.x + off.width, p.y + off.height⟩) ∈ moved off S := by
    simp [moved]
  constructor
  · obtain ⟨rows, hshape, hrows, rfl⟩ := h.rows
    exact ⟨_, by rw [Region.translate, hshape, translate_ofRows], wellFormedRows_move hrows off,
      points_move rows off⟩
  · right
    refine ⟨fun p hp => ?_, ?_, ?_, ?_, ?_⟩
    · have hp' := containsPoint_iff.1 (hbox.contains _ hp)
      rw [containsPoint_iff]
      simp only [Region.translate, move, x, y, maxX, maxY, width, height] at hp' ⊢
      omega
    · obtain ⟨p, hp, hpx⟩ := hbox.left
      exact ⟨_, hmoved p hp, congrArg (· + off.width) hpx⟩
    · obtain ⟨p, hp, hpx⟩ := hbox.right
      refine ⟨_, hmoved p hp, ?_⟩
      simp only [Region.translate, move, x, maxX, width] at hpx ⊢
      omega
    · obtain ⟨p, hp, hpy⟩ := hbox.top
      exact ⟨_, hmoved p hp, congrArg (· + off.height) hpy⟩
    · obtain ⟨p, hp, hpy⟩ := hbox.bottom
      refine ⟨_, hmoved p hp, ?_⟩
      simp only [Region.translate, move, y, maxY, height] at hpy ⊢
      omega

@[simp] lemma translate_zero : region.translate ⟨0, 0⟩ = region := by
  obtain ⟨⟨⟨x, y⟩, size⟩, ⟨segs, spans⟩⟩ := region
  simp [Region.translate, IntRect.move, Shape.translate, IntRect.x, IntRect.y]

@[simp] lemma moved_zero : moved ⟨0, 0⟩ S = S := by
  ext p
  simp [moved]

/-! ### What a region says about its points -/

/-- The region is exact: it contains the points `S`, its rectangles are not empty and tile `S`, and
its bounds are the bounding box of `S`. -/
structure Exact (region : Region) (S : Set IntPoint) : Prop where
  containsPoint_iff : ∀ p, region.containsPoint p = true ↔ p ∈ S
  tiles : Tiles region.rects (· ∈ S)
  isBoundingBox : S.Nonempty → IsBoundingBox region.bounds S
  isEmpty_bounds : S = ∅ → region.bounds.isEmpty = true

lemma Represents.exact (h : Represents region S) : Exact region S where
  containsPoint_iff p := by
    obtain ⟨rows, hshape, hrows, rfl⟩ := h.rows
    rw [Region.containsPoint, hshape, spansContain_eq_inside hrows.remaining hrows.segments,
      and_eq_true]
    exact and_iff_right_of_imp fun hp => (h.isBoundingBox ⟨p, hp⟩).contains p hp
  tiles := by
    obtain ⟨rows, hshape, hrows, rfl⟩ := h.rows
    rw [rects, hshape]
    exact tiles_rectsOfSpans hrows.remaining hrows.segments
  isBoundingBox := h.isBoundingBox
  isEmpty_bounds := h.isEmpty_iff.2

end Region

/-! ### Regions made of rectangles -/

/-- How a region is made of rectangles. -/
inductive RegionExpression
  | rect (r : IntRect)
  | unite (a b : RegionExpression)
  | intersect (a b : RegionExpression)
  | subtract (a b : RegionExpression)
  | translate (a : RegionExpression) (offset : IntSize)

namespace RegionExpression

open Region Shape

/-- The region that is made. -/
def region : RegionExpression → Region
  | rect r => .ofRect r
  | unite a b => a.region.unite b.region
  | intersect a b => a.region.intersect b.region
  | subtract a b => a.region.subtract b.region
  | translate a offset => a.region.translate offset

/-- The points that the region should have. -/
def points : RegionExpression → Set IntPoint
  | rect r => {p | r.containsPoint p = true}
  | unite a b => a.points ∪ b.points
  | intersect a b => a.points ∩ b.points
  | subtract a b => a.points \ b.points
  | translate a offset => moved offset a.points

/-- The regions that are made on the way. -/
def parts : RegionExpression → List RegionExpression
  | rect r => [rect r]
  | unite a b => unite a b :: (a.parts ++ b.parts)
  | intersect a b => intersect a b :: (a.parts ++ b.parts)
  | subtract a b => subtract a b :: (a.parts ++ b.parts)
  | translate a offset => translate a offset :: a.parts

/-- All coordinates on the way are of absolute value below `2 ^ 29`. -/
def InRange (e : RegionExpression) : Prop := ∀ part ∈ e.parts, part.region.InRange

/-- No rectangle is empty, and no empty region is moved. -/
def Proper : RegionExpression → Prop
  | rect r => r.isEmpty = false
  | unite a b => a.Proper ∧ b.Proper
  | intersect a b => a.Proper ∧ b.Proper
  | subtract a b => a.Proper ∧ b.Proper
  | translate a offset => a.Proper ∧ (a.points.Nonempty ∨ offset = ⟨0, 0⟩)

lemma mem_parts_self (e : RegionExpression) : e ∈ e.parts := by
  cases e <;> exact mem_cons_self

instance (e : RegionExpression) : Decidable e.InRange :=
  inferInstanceAs (Decidable (∀ part ∈ e.parts, part.region.InRange))

variable {e : RegionExpression}

/-- The parts of a part are parts. -/
lemma parts_subset {part : RegionExpression} (h : part ∈ e.parts) : part.parts ⊆ e.parts := by
  induction e with
  | rect r => rw [mem_singleton.1 h]; exact List.Subset.refl _
  | unite a b iha ihb | intersect a b iha ihb | subtract a b iha ihb =>
    rcases mem_cons.1 h with rfl | h
    · exact List.Subset.refl _
    · refine subset_cons_of_subset _ ?_
      rcases mem_append.1 h with h | h
      · exact subset_append_of_subset_left _ (iha h)
      · exact subset_append_of_subset_right _ (ihb h)
  | translate a off ih =>
    rcases mem_cons.1 h with rfl | h
    · exact List.Subset.refl _
    · exact subset_cons_of_subset _ (ih h)

lemma InRange.part {part : RegionExpression} (h : e.InRange) (hpart : part ∈ e.parts) :
    part.InRange := fun part' hpart' => h part' (parts_subset hpart hpart')

lemma Proper.part {part : RegionExpression} (h : e.Proper) (hpart : part ∈ e.parts) :
    part.Proper := by
  induction e with
  | rect r => rwa [mem_singleton.1 hpart]
  | unite a b iha ihb | intersect a b iha ihb | subtract a b iha ihb =>
    rcases mem_cons.1 hpart with rfl | hpart
    · exact h
    · exact (mem_append.1 hpart).elim (iha h.1) (ihb h.2)
  | translate a off ih =>
    rcases mem_cons.1 hpart with rfl | hpart
    · exact h
    · exact ih h.1 hpart

/-- A proper region has its points. -/
lemma Proper.represents (h : e.Proper) (hrng : e.InRange) : Represents e.region e.points := by
  -- the two operands of an operation are parts, so they are in range as well
  have hsub {c a b : RegionExpression} (hc : c.parts = c :: (a.parts ++ b.parts))
      (h : c.InRange) : a.InRange ∧ b.InRange :=
    ⟨h.part (hc ▸ mem_cons_of_mem _ (mem_append_left _ a.mem_parts_self)),
      h.part (hc ▸ mem_cons_of_mem _ (mem_append_right _ b.mem_parts_self))⟩
  induction e with
  | rect r => exact represents_ofRect h
  | unite a b iha ihb =>
    obtain ⟨ha, hb⟩ := hsub rfl hrng
    exact (iha h.1 ha).unite (ihb h.2 hb) (ha _ a.mem_parts_self) (hb _ b.mem_parts_self)
  | intersect a b iha ihb =>
    obtain ⟨ha, hb⟩ := hsub rfl hrng
    exact (iha h.1 ha).intersect (ihb h.2 hb) (ha _ a.mem_parts_self) (hb _ b.mem_parts_self)
  | subtract a b iha ihb =>
    obtain ⟨ha, hb⟩ := hsub rfl hrng
    exact (iha h.1 ha).subtract (ihb h.2 hb) (ha _ a.mem_parts_self) (hb _ b.mem_parts_self)
  | translate a off ih =>
    have hrep := ih h.1 (hrng.part (mem_cons_of_mem _ a.mem_parts_self))
    rcases h.2 with hnonempty | rfl
    · exact hrep.translate hnonempty off
    · simpa [region, points] using hrep

/-- The regions are exact, and regions of the same points are equal. -/
structure Canonical (es : List RegionExpression) : Prop where
  exact : ∀ e ∈ es, Exact e.region e.points
  eq : ∀ e ∈ es, ∀ e' ∈ es, e.points = e'.points → e.region = e'.region

lemma rects_ofRect (r : IntRect) : (Region.ofRect r).rects = [r] := by
  simp [rects, Region.ofRect, Shape.ofRect, Shape.empty, rectsOfSpans, spanRects, segmentsOf,
    Shape.appendSpan, Shape.appendSegment, IntRect.x, IntRect.y, IntRect.maxX, IntRect.maxY,
    IntRect.width, IntRect.height]

/-- Where the parts are exact and canonical, the expression is proper. -/
lemma Canonical.proper {es : List RegionExpression} (h : Canonical es)
    (hparts : e.parts ⊆ es) (hrng : e.InRange) : e.Proper := by
  induction e with
  | rect r =>
    have hex := h.exact _ (hparts (mem_parts_self _))
    exact hex.tiles.nonempty r (by simp [region, rects_ofRect])
  | unite a b iha ihb | intersect a b iha ihb | subtract a b iha ihb =>
    have ha := List.Subset.trans (subset_append_left _ _) (subset_of_cons_subset hparts)
    have hb := List.Subset.trans (subset_append_right _ _) (subset_of_cons_subset hparts)
    exact ⟨iha ha fun part hpart => hrng part (by simp [parts, hpart]),
      ihb hb fun part hpart => hrng part (by simp [parts, hpart])⟩
  | translate a off ih =>
    have ha := subset_of_cons_subset hparts
    have harange : a.InRange := fun part hpart => hrng part (mem_cons_of_mem _ hpart)
    have hproper := ih ha harange
    refine ⟨hproper, or_iff_not_imp_left.2 fun hemp => ?_⟩
    rw [not_nonempty_iff_eq_empty] at hemp
    -- the empty region is moved, but its points stay
    have hregion : a.region = .empty := (hemp ▸ hproper.represents harange).eq represents_empty
    have hpts : a.points = (translate a off).points := by
      simp [points, moved, hemp]
    have hbd := congrArg Region.bounds (h.eq a (ha a.mem_parts_self) _
      (hparts (mem_parts_self _)) hpts)
    rw [region, hregion] at hbd
    obtain ⟨hwidth, hheight⟩ : off.width = 0 ∧ off.height = 0 := by
      simpa [Region.translate, Region.empty, IntRect.empty, IntRect.move, IntRect.x, IntRect.y,
        eq_comm] using hbd
    exact congrArg₂ IntSize.mk hwidth hheight

/-- Regions that are made of rectangles are exact and canonical just if no rectangle is empty and
no empty region is moved. -/
theorem proper_iff_canonical (es : List RegionExpression) (hrange : ∀ e ∈ es, e.InRange) :
    (∀ e ∈ es, e.Proper) ↔ Canonical (es.flatMap parts) := by
  constructor
  · intro hproper
    have hrepresents : ∀ part ∈ es.flatMap parts, Represents part.region part.points := by
      intro part hpart
      obtain ⟨e, he, hpart⟩ := mem_flatMap.1 hpart
      exact ((hproper e he).part hpart).represents ((hrange e he).part hpart)
    refine ⟨fun e he => (hrepresents e he).exact, fun e he e' he' hpoints => ?_⟩
    exact (hrepresents e he).eq (hpoints ▸ hrepresents e' he')
  · exact fun hcanonical e he =>
      hcanonical.proper (fun _ hpart => mem_flatMap.2 ⟨e, he, hpart⟩) (hrange e he)

/-- The order of the rectangles of an L-shaped region does not matter. -/
theorem unite_rect_comm_region :
    (unite (rect ⟨⟨0, 0⟩, ⟨4, 2⟩⟩) (rect ⟨⟨0, 2⟩, ⟨2, 2⟩⟩)).region =
      (unite (rect ⟨⟨0, 2⟩, ⟨2, 2⟩⟩) (rect ⟨⟨0, 0⟩, ⟨4, 2⟩⟩)).region := by
  have hcanonical := (proper_iff_canonical
    [unite (rect ⟨⟨0, 0⟩, ⟨4, 2⟩⟩) (rect ⟨⟨0, 2⟩, ⟨2, 2⟩⟩),
      unite (rect ⟨⟨0, 2⟩, ⟨2, 2⟩⟩) (rect ⟨⟨0, 0⟩, ⟨4, 2⟩⟩)] (by decide)).1
    (by simp [Proper, IntRect.isEmpty, IntRect.width, IntRect.height])
  exact hcanonical.eq _ (by simp [parts]) _ (by simp [parts]) (union_comm _ _)

/-- A rectangle that is subtracted from itself and then moved has no points, but it is not the
region that was not moved. -/
theorem translate_subtract_self_ne :
    (subtract (rect ⟨⟨0, 0⟩, ⟨1, 1⟩⟩) (rect ⟨⟨0, 0⟩, ⟨1, 1⟩⟩)).InRange ∧
      (translate (subtract (rect ⟨⟨0, 0⟩, ⟨1, 1⟩⟩) (rect ⟨⟨0, 0⟩, ⟨1, 1⟩⟩)) ⟨1, 1⟩).InRange ∧
      (translate (subtract (rect ⟨⟨0, 0⟩, ⟨1, 1⟩⟩) (rect ⟨⟨0, 0⟩, ⟨1, 1⟩⟩)) ⟨1, 1⟩).points =
        (subtract (rect ⟨⟨0, 0⟩, ⟨1, 1⟩⟩) (rect ⟨⟨0, 0⟩, ⟨1, 1⟩⟩)).points ∧
      (translate (subtract (rect ⟨⟨0, 0⟩, ⟨1, 1⟩⟩) (rect ⟨⟨0, 0⟩, ⟨1, 1⟩⟩)) ⟨1, 1⟩).region ≠
        (subtract (rect ⟨⟨0, 0⟩, ⟨1, 1⟩⟩) (rect ⟨⟨0, 0⟩, ⟨1, 1⟩⟩)).region := by
  refine ⟨by decide, by decide, ?_, by decide⟩
  simp [points, moved]

end RegionExpression

end WebKit.Graphics
