import WebKit.Graphics.RegionRows

/-!
# The points of a region

The points of well-formed rows determine the rows. What a region says about its points, its
rectangles and its bounds is read off from the rows.
-/

namespace WebKit.Graphics

open WebKit.Core List

namespace Shape

variable {g : Bool → Bool → Bool} {segs s s' : List ℤ} {rows rows' : List Row}

/-- The `x` coordinate lies in one of the segments. -/
def inside (segments : List ℤ) (x : ℤ) : Bool := valueAt false (alternating false segments) x

/-- The points of a shape with the given rows. -/
def points (rows : List Row) : Set IntPoint := {p | inside (valueAt [] rows p.y) p.x = true}

variable {p : IntPoint}

lemma mem_points : p ∈ points rows ↔ inside (valueAt [] rows p.y) p.x = true := Iff.rfl

@[simp] lemma inside_nil (x : ℤ) : inside [] x = false := rfl

/-- The segments are determined by what is inside. -/
lemma WellFormedSegments.ext (h : WellFormedSegments s) (h' : WellFormedSegments s')
    (heq : ∀ x, inside s x = inside s' x) : s = s' := by
  have halt := (reduced_alternating h.pairwise false).ext
    (reduced_alternating h'.pairwise false) heq
  rw [← map_fst_alternating false s, halt, map_fst_alternating]

lemma wellFormed_nil : WellFormedSegments [] := ⟨List.Pairwise.nil, by simp⟩

lemma WellFormedRows.valueAt (h : WellFormedRows rows) (y : ℤ) :
    WellFormedSegments (valueAt [] rows y) := by
  rcases valueAt_mem [] rows y with heq | ⟨k, hk⟩
  · rw [heq]
    exact wellFormed_nil
  · exact h.segments _ hk

/-- The rows are determined by their points. -/
lemma WellFormedRows.ext (h : WellFormedRows rows) (h' : WellFormedRows rows')
    (heq : points rows = points rows') : rows = rows' := by
  refine h.reduced.ext h'.reduced fun y => (h.valueAt y).ext (h'.valueAt y) fun x => ?_
  exact Bool.eq_iff_iff.2 (Set.ext_iff.1 heq ⟨x, y⟩)

/-! ### Combinations -/

section

variable (hg : g false false = false) (h : WellFormedSegments s) (h' : WellFormedSegments s')

include hg h h'

/-- The segments that are combined, with the values at their ends. -/
lemma alternating_combine :
    alternating false (combine g s s') =
      reduce false (zipSteps g false false (alternating false s) (alternating false s')) := by
  rw [combine, combineFrom, hg]
  exact alternating_map_fst (reduced_reduce (ascending_zipSteps
    (reduced_alternating h.pairwise false).ascending
    (reduced_alternating h'.pairwise false).ascending false false) false)

lemma inside_combine (x : ℤ) : inside (combine g s s') x = g (inside s x) (inside s' x) := by
  have hs := (reduced_alternating h.pairwise false).ascending
  have hs' := (reduced_alternating h'.pairwise false).ascending
  have hzip := valueAt_zipSteps (f := g) hs hs' false false x
  rw [hg] at hzip
  rw [inside, alternating_combine hg h h', valueAt_reduce (ascending_zipSteps hs hs' false false)]
  exact hzip

lemma wellFormedSegments_combine : WellFormedSegments (combine g s s') where
  pairwise := by
    have hs := (reduced_alternating h.pairwise false).ascending
    have hs' := (reduced_alternating h'.pairwise false).ascending
    rw [← map_fst_alternating false (combine g s s'), alternating_combine hg h h']
    exact pairwise_map.2 (reduced_reduce (ascending_zipSteps hs hs' false false) false).ascending
  even := by
    have hlast : ∀ {l : List ℤ}, Even l.length → lastValue false (alternating false l) = false := by
      intro l hl
      rw [lastValue_alternating]
      simpa using hl
    have hcmb := lastValue_alternating false (combine g s s')
    rw [alternating_combine hg h h', lastValue_reduce] at hcmb
    have hzip := lastValue_zipSteps (f := g) false false (alternating false s)
      (alternating false s')
    rw [hlast h.even, hlast h'.even, hg] at hzip
    rw [hzip] at hcmb
    simpa using hcmb.symm

end

lemma combine_nil_eq_nil : combine g [] [] = [] := by
  simp [combine, combineFrom, alternating, reduce]

section

variable (hg : g false false = false) (h : WellFormedRows rows) (h' : WellFormedRows rows')

include hg h h'

lemma wellFormedRows_combineRows : WellFormedRows (combineRows g rows rows') where
  reduced := reduced_reduce (ascending_zipSteps h.reduced.ascending h'.reduced.ascending [] []) []
  last := by
    have hzip := lastValue_zipSteps (f := combine g) [] [] rows rows'
    rw [h.last, h'.last, combine_nil_eq_nil] at hzip
    simp [combineRows, hzip]
  segments row hrow :=
    forall_mem_zipSteps (P := WellFormedSegments) (Q := WellFormedSegments)
      (R := WellFormedSegments) (fun _ _ hs hs' => wellFormedSegments_combine hg hs hs')
      wellFormed_nil wellFormed_nil h.segments h'.segments row
      (mem_of_mem_reduce hrow)

/-- The points of the combination are those that `g` selects. -/
lemma mem_points_combineRows : p ∈ points (combineRows g rows rows') ↔
      g (inside (valueAt [] rows p.y) p.x) (inside (valueAt [] rows' p.y) p.x) = true := by
  have hzip := valueAt_zipSteps (f := combine g) h.reduced.ascending h'.reduced.ascending [] [] p.y
  rw [combine_nil_eq_nil] at hzip
  rw [mem_points, combineRows, valueAt_reduce (ascending_zipSteps h.reduced.ascending
    h'.reduced.ascending [] []), hzip, inside_combine hg (h.valueAt p.y) (h'.valueAt p.y)]

end

/-! ### Segments, two ends at a time -/

variable {x maxX px : ℤ}

lemma WellFormedSegments.lt (h : WellFormedSegments (x :: maxX :: segs)) : x < maxX :=
  (pairwise_cons.1 h.pairwise).1 maxX mem_cons_self

/-- The other segments begin after the first one. -/
lemma WellFormedSegments.inside_eq_false (h : WellFormedSegments (x :: maxX :: segs))
    (hlt : px < maxX) : inside segs px = false := by
  refine valueAt_of_lt fun e he => hlt.trans ?_
  refine (pairwise_cons.1 (pairwise_cons.1 h.pairwise).2).1 e.1 ?_
  rw [← map_fst_alternating false segs]
  exact mem_map_of_mem he

/-- A segment `[x, maxX)` and those after it. -/
lemma inside_cons_cons (h : WellFormedSegments (x :: maxX :: segs)) :
    inside (x :: maxX :: segs) px = true ↔ x ≤ px ∧ px < maxX ∨ inside segs px = true := by
  simp only [inside, alternating, valueAt]
  split_ifs with h₁ h₂
  · have hnone := h.inside_eq_false (h₁.trans h.lt)
    simp only [inside] at hnone
    simp [hnone, h₁.not_ge]
  · simp [h₂, not_lt.1 h₁]
  · simp [h₂]

lemma WellFormedSegments.tail (h : WellFormedSegments (x :: maxX :: segs)) :
    WellFormedSegments segs where
  pairwise := (pairwise_cons.1 (pairwise_cons.1 h.pairwise).2).2
  even := by
    have heven := h.even
    simp only [length_cons, Nat.add_assoc] at heven
    exact (Nat.even_add.1 heven).2 (by decide)

/-- Induction over segments, two ends at a time. -/
lemma WellFormedSegments.induction {motive : ∀ segs, WellFormedSegments segs → Prop}
    (nil : motive [] wellFormed_nil)
    (cons : ∀ x maxX segs (h : WellFormedSegments (x :: maxX :: segs)),
      motive segs h.tail → motive (x :: maxX :: segs) h) :
    ∀ {segs} (h : WellFormedSegments segs), motive segs h
  | [], _ => nil
  | [_], h => absurd h.even (by simp)
  | x :: maxX :: segs, h => cons x maxX segs h (h.tail.induction nil cons)

lemma segmentsContain_eq_inside (h : WellFormedSegments segs) (px : ℤ) :
    Region.segmentsContain px segs = inside segs px := by
  induction h using WellFormedSegments.induction with
  | nil => rfl
  | cons x maxX segs h ih =>
    rw [Bool.eq_iff_iff, inside_cons_cons h, Region.segmentsContain]
    split_ifs with h₁ h₂
    · simp [h.inside_eq_false (h₁.trans h.lt), h₁.not_ge]
    · simp [h₂, not_lt.1 h₁]
    · rw [ih]
      simp [h₂]

/-! ### Points of a region -/

variable {shape : Shape} {rest : List Row} {v : List ℤ} {spans : List Span}

/-- The spans that are left contain the points of their rows. -/
lemma spansContain_eq_inside (h : Remaining shape spans v rest)
    (hsegs : ∀ row ∈ rest, WellFormedSegments row.2) (p : IntPoint) :
    Region.spansContain shape p spans = inside (valueAt [] rest p.y) p.x := by
  induction spans generalizing v rest with
  | nil =>
    obtain rfl := h.nil_iff.1 rfl
    rfl
  | cons span spans ih =>
    obtain ⟨rest, rfl, hnext⟩ := h.next
    cases spans with
    | nil =>
      obtain rfl := hnext.nil_iff.1 rfl
      rw [valueAt]
      split_ifs <;> rfl
    | cons next spans =>
      have hrest := ih hnext fun row hrow => hsegs row (mem_cons_of_mem _ hrow)
      obtain ⟨rest, rfl, -⟩ := hnext.next
      rw [Region.spansContain, hrest, segmentsContain_eq_inside (hsegs _ mem_cons_self) p.x]
      split_ifs with h₁ h₂
      · simp [valueAt_cons_lt h₁]
      · simp [valueAt_cons_le (not_lt.1 h₁), valueAt_cons_le h₂]
      · simp [valueAt_cons_le (not_lt.1 h₁), valueAt_cons_lt (not_le.1 h₂)]

/-! ### Rectangles -/

variable {r : IntRect}

lemma isEmpty_eq_false_iff : r.isEmpty = false ↔ 0 < r.width ∧ 0 < r.height := by
  simp [IntRect.isEmpty]

/-- The points of a rectangle. -/
lemma containsPoint_iff :
    r.containsPoint p = true ↔ (r.x ≤ p.x ∧ p.x < r.maxX) ∧ r.y ≤ p.y ∧ p.y < r.maxY := by
  simp [IntRect.containsPoint, and_assoc]

/-- No point is in both rectangles. -/
def Apart (r r' : IntRect) : Prop := ∀ p, ¬(r.containsPoint p = true ∧ r'.containsPoint p = true)

/-- The rectangles are not empty, no two of them have a point in common, and together they have
the points that `mem` says. -/
structure Tiles (rects : List IntRect) (mem : IntPoint → Prop) : Prop where
  nonempty : ∀ r ∈ rects, r.isEmpty = false
  apart : rects.Pairwise Apart
  cover : ∀ p, (∃ r ∈ rects, r.containsPoint p = true) ↔ mem p

lemma Tiles.append {rects rects' : List IntRect} {mem mem' : IntPoint → Prop} (h : Tiles rects mem)
    (h' : Tiles rects' mem') (hapart : ∀ p, ¬(mem p ∧ mem' p)) :
    Tiles (rects ++ rects') fun p => mem p ∨ mem' p where
  nonempty r hr := (mem_append.1 hr).elim (h.nonempty r) (h'.nonempty r)
  apart := by
    refine pairwise_append.2 ⟨h.apart, h'.apart, fun r hr r' hr' p hp => hapart p ⟨?_, ?_⟩⟩
    · exact (h.cover p).1 ⟨r, hr, hp.1⟩
    · exact (h'.cover p).1 ⟨r', hr', hp.2⟩
  cover p := by
    simp only [mem_append, or_and_right, exists_or, h.cover, h'.cover]

lemma Tiles.congr {rects : List IntRect} {mem mem' : IntPoint → Prop} (h : Tiles rects mem)
    (hmem : ∀ p, mem' p ↔ mem p) : Tiles rects mem' :=
  ⟨h.nonempty, h.apart, fun p => (h.cover p).trans (hmem p).symm⟩

lemma tiles_nil : Tiles [] fun _ => False := ⟨nofun, List.Pairwise.nil, by simp⟩

lemma tiles_singleton (h : r.isEmpty = false) : Tiles [r] fun p => r.containsPoint p = true where
  nonempty r' hr' := mem_singleton.1 hr' ▸ h
  apart := pairwise_singleton _ _
  cover p := by simp

/-- The rectangles of one span. -/
lemma tiles_spanRects (h : WellFormedSegments segs) {y maxY : ℤ} (hy : y < maxY) :
    Tiles (Region.spanRects y (maxY - y) segs) fun p =>
      inside segs p.x = true ∧ y ≤ p.y ∧ p.y < maxY := by
  induction h using WellFormedSegments.induction with
  | nil => exact tiles_nil.congr fun p => by simp
  | cons x maxX segs h ih =>
    have hpt : ∀ p, (⟨⟨x, y⟩, ⟨maxX - x, maxY - y⟩⟩ : IntRect).containsPoint p = true ↔
        (x ≤ p.x ∧ p.x < maxX) ∧ y ≤ p.y ∧ p.y < maxY := by
      intro p
      rw [containsPoint_iff]
      simp [IntRect.x, IntRect.y, IntRect.maxX, IntRect.maxY, IntRect.width, IntRect.height]
    have hfst : (⟨⟨x, y⟩, ⟨maxX - x, maxY - y⟩⟩ : IntRect).isEmpty = false := by
      exact isEmpty_eq_false_iff.2 ⟨Int.sub_pos_of_lt h.lt, Int.sub_pos_of_lt hy⟩
    refine ((tiles_singleton hfst).append ih fun p => ?_).congr fun p => ?_
    · rw [hpt]
      rintro ⟨⟨⟨-, hlt⟩, -⟩, hin, -⟩
      rw [h.inside_eq_false hlt] at hin
      cases hin
    · rw [inside_cons_cons h, hpt, or_and_right]

/-- The rectangles of the spans that are left. -/
lemma tiles_rectsOfSpans
    (h : Remaining shape spans v rest) (hsegs : ∀ row ∈ rest, WellFormedSegments row.2) :
    Tiles (Region.rectsOfSpans shape spans) fun p => inside (valueAt [] rest p.y) p.x = true := by
  induction spans generalizing v rest with
  | nil =>
    obtain rfl := h.nil_iff.1 rfl
    exact tiles_nil.congr fun p => by simp [valueAt]
  | cons span spans ih =>
    obtain ⟨rest, rfl, hnext⟩ := h.next
    cases spans with
    | nil =>
      obtain rfl := hnext.nil_iff.1 rfl
      have hnone : shape.segmentsOf [span] = [] := rfl
      refine tiles_nil.congr fun p => ?_
      rw [hnone, valueAt]
      split_ifs <;> simp [valueAt]
    | cons next spans =>
      have hrest := ih hnext fun row hrow => hsegs row (mem_cons_of_mem _ hrow)
      have hy : span.y < next.y := by
        obtain ⟨rest, rfl, -⟩ := hnext.next
        exact h.reduced.2.1 _ mem_cons_self
      have hfst := tiles_spanRects (hsegs _ mem_cons_self) hy
      have hbef : ∀ p : IntPoint, p.y < next.y → valueAt [] rest p.y = [] := by
        obtain ⟨rest, rfl, -⟩ := hnext.next
        exact fun p hp => valueAt_cons_lt hp
      refine (hfst.append hrest fun p hp => ?_).congr fun p => ?_
      · rw [hbef p hp.1.2.2] at hp
        cases hp.2
      · rcases lt_or_ge p.y span.y with h₁ | h₁
        · rw [valueAt_cons_lt h₁, hbef p (h₁.trans hy)]
          simp [h₁.not_ge]
        · rw [valueAt_cons_le h₁]
          rcases lt_or_ge p.y next.y with h₂ | h₂
          · rw [hbef p h₂]
            obtain ⟨rest, rfl, -⟩ := hnext.next
            rw [valueAt_cons_lt h₂]
            simp [h₁, h₂]
          · obtain ⟨rest, rfl, -⟩ := hnext.next
            rw [valueAt_cons_le h₂, valueAt_cons_le h₂]
            simp [h₂.not_gt]

/-! ### Bounds -/

/-- The box contains the points, and each side touches one of them. -/
structure IsBoundingBox (r : IntRect) (S : Set IntPoint) : Prop where
  contains : ∀ p ∈ S, r.containsPoint p = true
  left : ∃ p ∈ S, p.x = r.x
  right : ∃ p ∈ S, p.x + 1 = r.maxX
  top : ∃ p ∈ S, p.y = r.y
  bottom : ∃ p ∈ S, p.y + 1 = r.maxY

variable {S : Set IntPoint}

lemma IsBoundingBox.nonempty (h : IsBoundingBox r S) : S.Nonempty := h.left.imp fun _ => And.left

lemma IsBoundingBox.isEmpty (h : IsBoundingBox r S) : r.isEmpty = false := by
  obtain ⟨p, hp, hx⟩ := h.left
  obtain ⟨⟨hx₁, hx₂⟩, hy₁, hy₂⟩ := containsPoint_iff.1 (h.contains p hp)
  exact isEmpty_eq_false_iff.2 ⟨lt_add_iff_pos_right r.x |>.1 (hx₁.trans_lt hx₂),
    lt_add_iff_pos_right r.y |>.1 (hy₁.trans_lt hy₂)⟩

lemma IsBoundingBox.eq {r r' : IntRect} (h : IsBoundingBox r S)
    (h' : IsBoundingBox r' S) : r = r' := by
  have hle : ∀ {r r' : IntRect}, IsBoundingBox r S → IsBoundingBox r' S →
      r.x ≤ r'.x ∧ r'.maxX ≤ r.maxX ∧ r.y ≤ r'.y ∧ r'.maxY ≤ r.maxY := by
    intro r r' h h'
    obtain ⟨p, hp, hx⟩ := h'.left
    obtain ⟨p', hp', hx'⟩ := h'.right
    obtain ⟨q, hq, hy⟩ := h'.top
    obtain ⟨q', hq', hy'⟩ := h'.bottom
    refine ⟨hx ▸ (containsPoint_iff.1 (h.contains p hp)).1.1, ?_,
      hy ▸ (containsPoint_iff.1 (h.contains q hq)).2.1, ?_⟩
    · exact hx' ▸ Int.add_one_le_iff.2 (containsPoint_iff.1 (h.contains p' hp')).1.2
    · exact hy' ▸ Int.add_one_le_iff.2 (containsPoint_iff.1 (h.contains q' hq')).2.2
  obtain ⟨h₁, h₂, h₃, h₄⟩ := hle h h'
  obtain ⟨h₁', h₂', h₃', h₄'⟩ := hle h' h
  obtain ⟨⟨x, y⟩, ⟨w, hh⟩⟩ := r
  obtain ⟨⟨x', y'⟩, ⟨w', hh'⟩⟩ := r'
  simp only [IntRect.maxX, IntRect.maxY, IntRect.width, IntRect.height] at *
  obtain rfl : x = x' := le_antisymm h₁ h₁'
  obtain rfl : y = y' := le_antisymm h₃ h₃'
  obtain rfl : w = w' := by omega
  obtain rfl : hh = hh' := by omega
  rfl

section

variable (h : WellFormedSegments segs)

include h

/-- What is inside lies between two ends. -/
lemma exists_of_inside (hx : inside segs x = true) : (∃ a ∈ segs, a ≤ x) ∧ ∃ b ∈ segs, x < b := by
  induction h using WellFormedSegments.induction with
  | nil => cases hx
  | cons a b segs h ih =>
    rcases (inside_cons_cons h).1 hx with ⟨ha, hb⟩ | hx
    · exact ⟨⟨a, mem_cons_self, ha⟩, b, mem_cons_of_mem _ mem_cons_self, hb⟩
    · obtain ⟨⟨a', ha', hle⟩, b', hb', hlt⟩ := ih hx
      exact ⟨⟨a', mem_cons_of_mem _ (mem_cons_of_mem _ ha'), hle⟩, b',
        mem_cons_of_mem _ (mem_cons_of_mem _ hb'), hlt⟩

/-- The least end begins a segment. -/
lemma inside_of_least (hx : x ∈ segs) (hleast : ∀ a ∈ segs, x ≤ a) : inside segs x = true := by
  induction h using WellFormedSegments.induction with
  | nil => cases hx
  | cons a b segs h ih =>
    have hxa := hleast a mem_cons_self
    obtain rfl : x = a := by
      rcases mem_cons.1 hx with rfl | hx
      · rfl
      · exact absurd ((pairwise_cons.1 h.pairwise).1 x hx) hxa.not_gt
    exact (inside_cons_cons h).2 (Or.inl ⟨le_rfl, h.lt⟩)

/-- The greatest end ends a segment. -/
lemma inside_of_greatest (hx : x ∈ segs)
    (hmax : ∀ a ∈ segs, a ≤ x) : inside segs (x - 1) = true := by
  induction h using WellFormedSegments.induction with
  | nil => cases hx
  | cons a b segs h ih =>
    rw [inside_cons_cons h]
    have hb : b ≤ x := hmax b (mem_cons_of_mem _ mem_cons_self)
    rcases mem_cons.1 hx with rfl | hx
    · exact absurd h.lt hb.not_gt
    · rcases mem_cons.1 hx with rfl | hx
      · exact Or.inl ⟨Int.le_sub_one_iff.2 h.lt, Int.sub_lt_self _ Int.one_pos⟩
      · exact Or.inr (ih hx fun a' ha' =>
          hmax a' (mem_cons_of_mem _ (mem_cons_of_mem _ ha')))

end

/-- The least of `minX` and some numbers. -/
structure LeastOf (l : List ℤ) (minX m : ℤ) : Prop where
  le_min : m ≤ minX
  le : ∀ x ∈ l, m ≤ x
  mem : m = minX ∨ m ∈ l

/-- The greatest of `maxX` and some numbers. -/
structure GreatestOf (l : List ℤ) (maxX m : ℤ) : Prop where
  max_le : maxX ≤ m
  ge : ∀ x ∈ l, x ≤ m
  mem : m = maxX ∨ m ∈ l

variable {l l' l'' : List ℤ} {minX m m' : ℤ}

lemma LeastOf.trans (h : LeastOf l minX m) (h' : LeastOf l' m m')
    (hmem : ∀ x, x ∈ l'' ↔ x ∈ l ∨ x ∈ l') : LeastOf l'' minX m' where
  le_min := h'.le_min.trans h.le_min
  le x hx := ((hmem x).1 hx).elim (fun hx => h'.le_min.trans (h.le x hx)) (h'.le x)
  mem := by
    rcases h'.mem with rfl | hm
    · exact h.mem.imp_right fun hm => (hmem _).2 (Or.inl hm)
    · exact Or.inr ((hmem _).2 (Or.inr hm))

lemma GreatestOf.trans (h : GreatestOf l maxX m) (h' : GreatestOf l' m m')
    (hmem : ∀ x, x ∈ l'' ↔ x ∈ l ∨ x ∈ l') : GreatestOf l'' maxX m' where
  max_le := h.max_le.trans h'.max_le
  ge x hx := ((hmem x).1 hx).elim (fun hx => (h.ge x hx).trans h'.max_le) (h'.ge x)
  mem := by
    rcases h'.mem with rfl | hm
    · exact h.mem.imp_right fun hm => (hmem _).2 (Or.inl hm)
    · exact Or.inr ((hmem _).2 (Or.inr hm))

lemma leastOf_ite {a : ℤ} (ha : a ∈ l) (hle : ∀ x ∈ l, a ≤ x) (minX : ℤ) :
    LeastOf l minX (if a < minX then a else minX) := by
  split_ifs with h
  · exact ⟨h.le, hle, Or.inr ha⟩
  · exact ⟨le_rfl, fun x hx => (not_lt.1 h).trans (hle x hx), Or.inl rfl⟩

lemma greatestOf_ite {b : ℤ} (hb : b ∈ l) (hge : ∀ x ∈ l, x ≤ b) (maxX : ℤ) :
    GreatestOf l maxX (if maxX < b then b else maxX) := by
  split_ifs with h
  · exact ⟨h.le, hge, Or.inr hb⟩
  · exact ⟨le_rfl, fun x hx => (hge x hx).trans (not_lt.1 h), Or.inl rfl⟩

/-- One round of the loop over the spans. A span without segments has the first segment of the
spans after it and the last one of those before. -/
lemma horizontalBounds_step {before segs after : List ℤ} (span next : Span)
    (spans : List Span) (minX : ℤ) (h : shape.segments = before ++ (segs ++ after))
    (hspan : span.segmentIndex = before.length)
    (hnext : next.segmentIndex = before.length + segs.length)
    (hsegs : WellFormedSegments segs) (hbef : ∀ x ∈ before, x ≤ maxX) :
    ∃ minX' maxX' lo hi,
      shape.horizontalBounds (span :: next :: spans) minX maxX =
        shape.horizontalBounds (next :: spans) minX' maxX' ∧
      LeastOf lo minX minX' ∧ GreatestOf hi maxX maxX' ∧
      (∀ x ∈ segs, x ∈ lo ∧ x ∈ hi) ∧ ∀ x, x ∈ lo ∨ x ∈ hi → x ∈ segs ++ after := by
  have hfst : ∀ a, shape.segments[span.segmentIndex]? = some a → a ∈ segs ++ after := by
    intro a ha
    rw [h, hspan, getElem?_append_right le_rfl] at ha
    exact mem_of_getElem? ha
  have hlast : ∀ b, shape.segments[next.segmentIndex - 1]? = some b →
      b ∈ before ∨ b ∈ segs ++ after := by
    intro b hb
    rw [h] at hb
    exact mem_append.1 (mem_of_getElem? hb)
  cases segs with
  -- an empty span: the source still reads a segment on each side of its index, if there is one
  | nil =>
    rw [horizontalBounds]
    cases ha : shape.segments[span.segmentIndex]? with
    | none => exact ⟨minX, maxX, [], [], by cases shape.segments[next.segmentIndex - 1]? <;> rfl,
        ⟨le_rfl, nofun, Or.inl rfl⟩, ⟨le_rfl, nofun, Or.inl rfl⟩, nofun, by simp⟩
    | some a =>
      cases hb : shape.segments[next.segmentIndex - 1]? with
      | none => exact ⟨minX, maxX, [], [], rfl,
          ⟨le_rfl, nofun, Or.inl rfl⟩, ⟨le_rfl, nofun, Or.inl rfl⟩, nofun, by simp⟩
      | some b =>
        have hlo := leastOf_ite (mem_singleton_self a) (by simp) minX
        -- a segment of an earlier span is in `maxX` already
        rcases hlast b hb with hmem | hmem
        · refine ⟨_, _, [a], [], rfl, hlo, ?_, nofun, by simpa using hfst a ha⟩
          rw [if_neg (hbef b hmem).not_gt]
          exact ⟨le_rfl, nofun, Or.inl rfl⟩
        · refine ⟨_, _, [a], [b], rfl, hlo, greatestOf_ite (mem_singleton_self b) (by simp) maxX,
            nofun, ?_⟩
          rintro x (hx | hx)
          · exact mem_singleton.1 hx ▸ hfst a ha
          · exact mem_singleton.1 hx ▸ hmem
  | cons a segs =>
    have ha : shape.segments[span.segmentIndex]? = some a := by
      rw [h, hspan]
      simp
    obtain ⟨init, b, hinit⟩ := eq_nil_or_concat (a :: segs) |>.resolve_left (by simp)
    have hb : shape.segments[next.segmentIndex - 1]? = some b := by
      rw [h, hnext, hinit]
      simp
    have hle : ∀ x ∈ a :: segs, a ≤ x := by
      intro x hx
      rcases mem_cons.1 hx with rfl | hx
      · exact le_rfl
      · exact ((pairwise_cons.1 hsegs.pairwise).1 x hx).le
    have hge : ∀ x ∈ a :: segs, x ≤ b := by
      intro x hx
      have hpairwise := hsegs.pairwise
      rw [hinit, concat_eq_append] at hpairwise hx
      rcases mem_append.1 hx with hx | hx
      · exact ((pairwise_append.1 hpairwise).2.2 x hx b (mem_singleton_self b)).le
      · exact (mem_singleton.1 hx).le
    have hmem : b ∈ a :: segs := by
      rw [hinit]
      simp
    rw [horizontalBounds, ha, hb]
    exact ⟨_, _, a :: segs, a :: segs, rfl, leastOf_ite mem_cons_self hle minX,
      greatestOf_ite hmem hge maxX, fun x hx => ⟨hx, hx⟩,
      fun x hx => mem_append_left _ (hx.elim id id)⟩

/-- The loop over the spans. -/
lemma horizontalBounds_spec {before : List ℤ} (minX : ℤ)
    (h : shape.segments = before ++ flat rest) (hlast : lastValue v rest = [])
    (hsegs : ∀ row ∈ rest, WellFormedSegments row.2) (hbef : ∀ x ∈ before, x ≤ maxX) :
    LeastOf (flat rest) minX
        (shape.horizontalBounds (spansFrom before.length rest) minX maxX).1 ∧
      GreatestOf (flat rest) maxX
        (shape.horizontalBounds (spansFrom before.length rest) minX maxX).2 := by
  induction rest generalizing before minX maxX v with
  | nil => exact ⟨⟨le_rfl, nofun, Or.inl rfl⟩, ⟨le_rfl, nofun, Or.inl rfl⟩⟩
  | cons row rest ih =>
    obtain ⟨y, segs⟩ := row
    cases rest with
    | nil =>
      obtain rfl : segs = [] := hlast
      exact ⟨⟨le_rfl, nofun, Or.inl rfl⟩, ⟨le_rfl, nofun, Or.inl rfl⟩⟩
    | cons next rest =>
      obtain ⟨y', segs'⟩ := next
      have hsegs' := forall_mem_cons.1 hsegs
      obtain ⟨minX', maxX', lo, hi, heq, hlo, hhi, hsub, hsup⟩ :=
        horizontalBounds_step ⟨y, before.length⟩ ⟨y', before.length + segs.length⟩
          (spansFrom (before.length + segs.length + segs'.length) rest) minX h rfl rfl
          hsegs'.1 hbef
      have hbef' : ∀ x ∈ before ++ segs, x ≤ maxX' := by
        intro x hx
        rcases mem_append.1 hx with hx | hx
        · exact (hbef x hx).trans hhi.max_le
        · exact hhi.ge x (hsub x hx).2
      have hshape : shape.segments = (before ++ segs) ++ flat ((y', segs') :: rest) := by
        simp [h]
      obtain ⟨hleast, hmax⟩ := ih minX' hshape (v := segs) hlast hsegs'.2 hbef'
      rw [length_append] at hleast hmax
      rw [spansFrom, spansFrom, heq]
      refine ⟨hlo.trans hleast fun x => ?_, hhi.trans hmax fun x => ?_⟩ <;>
        rw [flat_cons, mem_append]
      · exact ⟨Or.imp_left fun hx => (hsub x hx).1,
          fun hx => hx.elim (fun hx => mem_append.1 (hsup x (Or.inl hx))) Or.inr⟩
      · exact ⟨Or.imp_left fun hx => (hsub x hx).2,
          fun hx => hx.elim (fun hx => mem_append.1 (hsup x (Or.inr hx))) Or.inr⟩

variable {d : List ℤ} {row : Row}

/-- A row holds from the `y` at which it begins. -/
lemma valueAt_of_mem {l : List Row} (h : Ascending l) (hrow : row ∈ l) :
    valueAt d l row.1 = row.2 := by
  induction l generalizing d with
  | nil => cases hrow
  | cons row' l ih =>
    obtain ⟨hlt, hl⟩ := ascending_cons.1 h
    rcases mem_cons.1 hrow with rfl | hrow
    · rw [valueAt_cons_le le_rfl, valueAt_of_lt hlt]
    · rw [valueAt_cons_le (hlt row hrow).le]
      exact ih hl hrow

/-- Just before the last row another one holds. -/
lemma valueAt_getLast_sub_one_ne {l : List Row} (h : Reduced d l) (hl : l ≠ []) :
    valueAt d l ((l.getLast hl).1 - 1) ≠ lastValue d l := by
  induction l generalizing d with
  | nil => exact absurd rfl hl
  | cons row l ih =>
    cases l with
    | nil =>
      have hbef : valueAt d [row] (([row].getLast hl).1 - 1) = d :=
        valueAt_cons_lt (Int.sub_lt_self _ Int.one_pos)
      rw [hbef]
      exact h.1.symm
    | cons next l =>
      have hlt := h.2.1 _ (getLast_mem (cons_ne_nil next l))
      rw [getLast_cons (cons_ne_nil next l), valueAt_cons_le (Int.le_sub_one_iff.2 hlt)]
      exact ih h.2.2 (cons_ne_nil next l)

lemma WellFormedSegments.exists_inside (h : WellFormedSegments segs) (hne : segs ≠ []) :
    ∃ x, inside segs x = true := by
  match segs, h with
  | [], _ => exact absurd rfl hne
  | [_], h => exact absurd h.even (by simp)
  | x :: maxX :: segs, h => exact ⟨x, (inside_cons_cons h).2 (Or.inl ⟨le_rfl, h.lt⟩)⟩

/-- A point lies between the first row and the last one. -/
lemma WellFormedRows.between (h : WellFormedRows (row :: rows)) (hp : p ∈ points (row :: rows)) :
    row.1 ≤ p.y ∧ p.y < ((row :: rows).getLast (List.cons_ne_nil _ _)).1 := by
  constructor
  · by_contra hlt
    rw [mem_points, valueAt_cons_lt (not_le.1 hlt)] at hp
    cases hp
  · by_contra hge
    have hlast := dropLast_append_getLast (cons_ne_nil row rows)
    have hkeys : ∀ e ∈ row :: rows, e.1 ≤ p.y := by
      intro e he
      refine le_trans ?_ (not_lt.1 hge)
      have hasc := h.reduced.ascending
      rw [← hlast] at he hasc
      rcases mem_append.1 he with he | he
      · exact ((pairwise_append.1 hasc).2.2 e he _ (mem_singleton_self _)).le
      · exact (congrArg Prod.fst (mem_singleton.1 he)).le
    rw [mem_points, valueAt_of_le hkeys, h.last] at hp
    cases hp

lemma getLast?_spansFrom {i : ℕ} (hrows : rows ≠ []) :
    ∃ n, (spansFrom i rows).getLast? = some ⟨(rows.getLast hrows).1, n⟩ := by
  obtain ⟨init, row, rfl⟩ := (eq_nil_or_concat rows).resolve_left hrows
  refine ⟨i + (flat init).length, ?_⟩
  simp only [concat_eq_append, getLast_append_singleton]
  exact getLast?_spansFrom_append i row

/-- A point of the row with the given segments. -/
lemma mem_points_of_mem (h : WellFormedRows rows) (hrow : row ∈ rows)
    (hx : inside row.2 x = true) : ⟨x, row.1⟩ ∈ points rows := by
  rw [mem_points, valueAt_of_mem h.reduced.ascending hrow]
  exact hx

lemma mem_flat : x ∈ flat rows ↔ ∃ row ∈ rows, x ∈ row.2 := mem_flatMap

/-- The ends of the segments are between the least and the greatest `x`. -/
lemma exists_mem_flat_of_mem_points (h : WellFormedRows rows) (hp : p ∈ points rows) :
    (∃ a ∈ flat rows, a ≤ p.x) ∧ ∃ b ∈ flat rows, p.x < b := by
  obtain ⟨⟨a, ha, hle⟩, b, hb, hlt⟩ := exists_of_inside (h.valueAt p.y) hp
  rcases valueAt_mem [] rows p.y with hnil | ⟨y, hrow⟩
  · rw [hnil] at ha
    cases ha
  · exact ⟨⟨a, mem_flat.2 ⟨_, hrow, ha⟩, hle⟩, b, mem_flat.2 ⟨_, hrow, hb⟩, hlt⟩

/-- The bounds of a shape whose coordinates are integers of the machine. -/
lemma isBoundingBox_bounds (h : WellFormedRows rows) (hrows : rows ≠ [])
    (hrng : ∀ x ∈ flat rows, -2 ^ 31 ≤ x ∧ x ≤ 2 ^ 31 - 1) :
    IsBoundingBox (ofRows rows).bounds (points rows) := by
  obtain ⟨row, rows, rfl⟩ := exists_cons_of_ne_nil hrows
  obtain ⟨n, hlastSpan⟩ := getLast?_spansFrom hrows
  obtain ⟨hleast, hgreatest⟩ := horizontalBounds_spec (2 ^ 31 - 1)
    (show (ofRows (row :: rows)).segments = [] ++ flat (row :: rows) from rfl) h.last h.segments
    (fun x hx => (nomatch hx))
  obtain ⟨⟨minX, maxX⟩, hr⟩ : ∃ r, r = (ofRows (row :: rows)).horizontalBounds
    (spansFrom 0 (row :: rows)) (2 ^ 31 - 1) (-2 ^ 31) := ⟨_, rfl⟩
  rw [length_nil, ← hr] at hleast hgreatest
  obtain ⟨maxY, hmaxY⟩ : ∃ maxY, maxY = ((row :: rows).getLast hrows).1 := ⟨_, rfl⟩
  have hbd : (ofRows (row :: rows)).bounds = ⟨⟨minX, row.1⟩, ⟨maxX - minX, maxY - row.1⟩⟩ := by
    have hfirstSpan : (ofRows (row :: rows)).spans.head? = some ⟨row.1, 0⟩ := rfl
    have hlastSpan' : (ofRows (row :: rows)).spans.getLast? = some ⟨maxY, n⟩ := by
      rw [hmaxY]
      exact hlastSpan
    have hspans : (ofRows (row :: rows)).spans = spansFrom 0 (row :: rows) := rfl
    simp only [bounds, hfirstSpan, hlastSpan']
    rw [hspans, ← hr]
  have hfst : row.2 ≠ [] := h.reduced.1
  obtain ⟨a, ha⟩ := exists_mem_of_ne_nil _ hfst
  have haflat : a ∈ flat (row :: rows) := mem_flat.2 ⟨row, mem_cons_self, ha⟩
  -- the initial values of the loop are met only by a coordinate at the end of the range
  have hmin : minX ∈ flat (row :: rows) := by
    rcases hleast.mem with heq | hmem
    · have hle := hleast.le a haflat
      dsimp only at heq hle
      rw [heq, le_antisymm (heq ▸ hle) (hrng a haflat).2]
      exact haflat
    · exact hmem
  have hmax : maxX ∈ flat (row :: rows) := by
    rcases hgreatest.mem with heq | hmem
    · have hle := hgreatest.ge a haflat
      dsimp only at heq hle
      rw [heq, le_antisymm (hrng a haflat).1 (heq ▸ hle)]
      exact haflat
    · exact hmem
  rw [hbd]
  -- the box contains every point, and each of its sides touches one
  refine ⟨fun p hp => ?_, ?_, ?_, ?_, ?_⟩
  · obtain ⟨⟨a, ha, hle⟩, b, hb, hlt⟩ := exists_mem_flat_of_mem_points h hp
    obtain ⟨htop, hbottom⟩ := h.between hp
    rw [containsPoint_iff]
    simp only [IntRect.x, IntRect.y, IntRect.maxX, IntRect.maxY, IntRect.width, IntRect.height,
      add_sub_cancel]
    exact ⟨⟨(hleast.le a ha).trans hle, hlt.trans_le (hgreatest.ge b hb)⟩, htop, hmaxY ▸ hbottom⟩
  · obtain ⟨row', hrow', hx⟩ := mem_flat.1 hmin
    refine ⟨⟨minX, row'.1⟩, mem_points_of_mem h hrow' ?_, rfl⟩
    exact inside_of_least (h.segments row' hrow') hx fun a ha =>
      hleast.le a (mem_flat.2 ⟨row', hrow', ha⟩)
  · obtain ⟨row', hrow', hx⟩ := mem_flat.1 hmax
    refine ⟨⟨maxX - 1, row'.1⟩, mem_points_of_mem h hrow' ?_, ?_⟩
    · exact inside_of_greatest (h.segments row' hrow') hx fun a ha =>
        hgreatest.ge a (mem_flat.2 ⟨row', hrow', ha⟩)
    · simp [IntRect.maxX, IntRect.x, IntRect.width]
  · obtain ⟨x, hx⟩ := (h.segments row mem_cons_self).exists_inside hfst
    exact ⟨⟨x, row.1⟩, mem_points_of_mem h mem_cons_self hx, rfl⟩
  · have hne := valueAt_getLast_sub_one_ne h.reduced hrows
    rw [h.last, ← hmaxY] at hne
    obtain ⟨x, hx⟩ := (h.valueAt (maxY - 1)).exists_inside hne
    refine ⟨⟨x, maxY - 1⟩, hx, ?_⟩
    simp [IntRect.maxY, IntRect.y, IntRect.height]

end Shape

end WebKit.Graphics
