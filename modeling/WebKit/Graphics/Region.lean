import Mathlib

/-!
# Regions

`Region` of the graphics platform code. A region is a list of spans, each of which begins at some
`y` and holds segments of the `x` axis up to the next span. All segments are in one vector, and a
span knows where its own begin. Coordinates are small enough that no sum or difference of two of
them overflows.
-/

namespace WebKit.Graphics

/-! ### Rectangles -/

structure IntPoint where
  x : ℤ
  y : ℤ
deriving DecidableEq, Repr

structure IntSize where
  width : ℤ
  height : ℤ
deriving DecidableEq, Repr

structure IntRect where
  location : IntPoint
  size : IntSize
deriving DecidableEq, Repr

namespace IntRect

variable (r other : IntRect)

/-- The rectangle that the default constructor makes. -/
def empty : IntRect := ⟨⟨0, 0⟩, ⟨0, 0⟩⟩

def x : ℤ := r.location.x
def y : ℤ := r.location.y
def width : ℤ := r.size.width
def height : ℤ := r.size.height
def maxX : ℤ := r.x + r.width
def maxY : ℤ := r.y + r.height

def isEmpty : Bool := r.width ≤ 0 ∨ r.height ≤ 0

def intersects : Bool :=
  !r.isEmpty && !other.isEmpty && r.x < other.maxX && other.x < r.maxX && r.y < other.maxY &&
    other.y < r.maxY

def contains : Bool :=
  r.x ≤ other.x && other.maxX ≤ r.maxX && r.y ≤ other.y && other.maxY ≤ r.maxY

def containsPoint (p : IntPoint) : Bool := r.x ≤ p.x && p.x < r.maxX && r.y ≤ p.y && p.y < r.maxY

def unite : IntRect :=
  if other.isEmpty then r
  else if r.isEmpty then other
  else
    let l := min r.x other.x
    let t := min r.y other.y
    let right := max r.maxX other.maxX
    let b := max r.maxY other.maxY
    ⟨⟨l, t⟩, ⟨right - l, b - t⟩⟩

def move (size : IntSize) : IntRect := ⟨⟨r.x + size.width, r.y + size.height⟩, r.size⟩

end IntRect

/-! ### Shapes -/

structure Span where
  y : ℤ
  segmentIndex : ℕ
deriving DecidableEq, Repr

structure Shape where
  segments : List ℤ
  spans : List Span
deriving DecidableEq, Repr

namespace Shape

/-- The shape that the default constructor makes. -/
def empty : Shape := ⟨[], []⟩

variable (shape : Shape)

def isEmpty : Bool := shape.spans.isEmpty

def isRect : Bool := shape.spans.length ≤ 2 && shape.segments.length ≤ 2

/-- The segments between `segments_begin` and `segments_end` of the first of the spans that are
left. They end where those of the next span begin, and the last span has none. -/
def segmentsOf : List Span → List ℤ
  | span :: next :: _ => (shape.segments.take next.segmentIndex).drop span.segmentIndex
  | _ => []

def appendSpan (y : ℤ) : Shape :=
  { shape with spans := shape.spans ++ [⟨y, shape.segments.length⟩] }

def appendSegment (x : ℤ) : Shape := { shape with segments := shape.segments ++ [x] }

/-- The shape of a rectangle. -/
def ofRect (rect : IntRect) : Shape :=
  (((empty.appendSpan rect.y).appendSegment rect.x).appendSegment rect.maxX).appendSpan rect.maxY

def canCoalesce (segments : List ℤ) : Bool :=
  match shape.spans.getLast? with
  | none => false
  | some last => shape.segments.drop last.segmentIndex = segments

def appendSpanWithSegments (y : ℤ) (segments : List ℤ) : Shape :=
  if shape.canCoalesce segments then shape
  else
    let shape := shape.appendSpan y
    { shape with segments := shape.segments ++ segments }

/-- Append the spans that are left of the shape `other`. -/
def appendSpans (other : Shape) : Shape → List Span → Shape
  | shape, [] => shape
  | shape, span :: spans =>
    appendSpans other (shape.appendSpanWithSegments span.y (other.segmentsOf (span :: spans))) spans

/-- The least and the greatest `x` of the spans but the last one. The first segment of a span
without segments is that of the next span, and its last one that of the span before. -/
def horizontalBounds : List Span → ℤ → ℤ → ℤ × ℤ
  | span :: next :: spans, minX, maxX =>
    match shape.segments[span.segmentIndex]?, shape.segments[next.segmentIndex - 1]? with
    | some firstSegment, some lastSegment =>
      horizontalBounds (next :: spans) (if firstSegment < minX then firstSegment else minX)
        (if maxX < lastSegment then lastSegment else maxX)
    | _, _ => horizontalBounds (next :: spans) minX maxX
  | _, minX, maxX => (minX, maxX)

def bounds : IntRect :=
  match shape.spans.head?, shape.spans.getLast? with
  | some span, some lastSpan =>
    let minY := span.y
    let maxY := lastSpan.y
    let (minX, maxX) := shape.horizontalBounds shape.spans (2 ^ 31 - 1) (-2 ^ 31)
    ⟨⟨minX, minY⟩, ⟨maxX - minX, maxY - minY⟩⟩
  | _, _ => .empty

def translate (offset : IntSize) : Shape where
  segments := shape.segments.map (· + offset.width)
  spans := shape.spans.map fun span => { span with y := span.y + offset.height }

/-! ### Comparing shapes -/

/-- What a comparison does when one shape is outside the other or overlaps it: it may end with a
result. -/
structure CompareOperation where
  defaultResult : Bool
  aOutsideB : Option Bool
  bOutsideA : Option Bool
  aOverlapsB : Option Bool

def compareContainsOperation : CompareOperation := ⟨true, none, some false, none⟩

/-- The result that the first of the conditions that holds ends with. -/
def firstResult : List (Bool × Option Bool) → Option Bool
  | [] => none
  | (condition, result) :: checks =>
    if condition && result.isSome then result else firstResult checks

/-- Compare the segments of two spans that overlap. Each round moves past a segment. -/
def compareSegments (op : CompareOperation) : ℕ → List ℤ → List ℤ → Option Bool
  | rounds + 1, aX :: aMaxX :: aSegments, bX :: bMaxX :: bSegments =>
    (firstResult [(aX < bMaxX && bX < aMaxX, op.aOverlapsB), (aX < bX, op.aOutsideB),
      (bX < aX, op.bOutsideA)]).or <|
    compareSegments op rounds (if bMaxX < aMaxX then aX :: aMaxX :: aSegments else aSegments)
      (if aMaxX < bMaxX then bX :: bMaxX :: bSegments else bSegments)
  | _, aSegments, bSegments =>
    firstResult [(!aSegments.isEmpty, op.aOutsideB), (!bSegments.isEmpty, op.bOutsideA)]

/-- Compare the spans that are left. Each round moves past a span. -/
def compareSpans (op : CompareOperation) (aShape bShape : Shape) :
    ℕ → List Span → List Span → Bool → Bool → Option Bool
  | rounds + 1, aSpan :: aNext :: aSpans, bSpan :: bNext :: bSpans, aHadSegmentInPreviousSpan,
      bHadSegmentInPreviousSpan =>
    let aSegments := aShape.segmentsOf (aSpan :: aNext :: aSpans)
    let bSegments := bShape.segmentsOf (bSpan :: bNext :: bSpans)
    let aHasSegmentInSpan := !aSegments.isEmpty
    let bHasSegmentInSpan := !bSegments.isEmpty
    (firstResult
      [(aSpan.y < bSpan.y && !bHadSegmentInPreviousSpan && aHasSegmentInSpan, op.aOutsideB),
        (bSpan.y < aSpan.y && !aHadSegmentInPreviousSpan && bHasSegmentInSpan, op.bOutsideA)]).or <|
    (if aSpan.y < bNext.y ∧ bSpan.y < aNext.y then
      compareSegments op (aSegments.length + bSegments.length) aSegments bSegments
    else none).or <|
    compareSpans op aShape bShape rounds
      (if bNext.y < aNext.y then aSpan :: aNext :: aSpans else aNext :: aSpans)
      (if aNext.y < bNext.y then bSpan :: bNext :: bSpans else bNext :: bSpans)
      aHasSegmentInSpan bHasSegmentInSpan
  | _, aSpans, bSpans, _, _ =>
    firstResult [(1 < aSpans.length, op.aOutsideB), (1 < bSpans.length, op.bOutsideA)]

def compareShapes (op : CompareOperation) (aShape bShape : Shape) : Bool :=
  (compareSpans op aShape bShape (aShape.spans.length + bShape.spans.length) aShape.spans
    bShape.spans false false).getD op.defaultResult

/-! ### Operations on shapes -/

structure Operation where
  trySimpleOperation : Shape → Shape → Option Shape
  opCode : ℕ
  shouldAddRemainingSegmentsFromSpan1 : Bool
  shouldAddRemainingSegmentsFromSpan2 : Bool
  shouldAddRemainingSpansFromShape1 : Bool
  shouldAddRemainingSpansFromShape2 : Bool

def unionOperation : Operation where
  trySimpleOperation shape1 shape2 := if shape1.isEmpty then some shape2 else none
  opCode := 0
  shouldAddRemainingSegmentsFromSpan1 := true
  shouldAddRemainingSegmentsFromSpan2 := true
  shouldAddRemainingSpansFromShape1 := true
  shouldAddRemainingSpansFromShape2 := true

def intersectOperation : Operation where
  trySimpleOperation _ _ := none
  opCode := 3
  shouldAddRemainingSegmentsFromSpan1 := false
  shouldAddRemainingSegmentsFromSpan2 := false
  shouldAddRemainingSpansFromShape1 := false
  shouldAddRemainingSpansFromShape2 := false

def subtractOperation : Operation where
  trySimpleOperation _ _ := none
  opCode := 1
  shouldAddRemainingSegmentsFromSpan1 := true
  shouldAddRemainingSegmentsFromSpan2 := false
  shouldAddRemainingSpansFromShape1 := true
  shouldAddRemainingSpansFromShape2 := false

/-- The segments that two spans have together. The flag has one bit for each of them. Each round
moves past an end of a segment. -/
def mergeSegments (op : Operation) : ℕ → List ℤ → List ℤ → ℕ → List ℤ → List ℤ
  | rounds + 1, x1 :: s1, x2 :: s2, oldFlag, segments =>
    let test := x1 - x2
    let flag := if test ≤ 0 then oldFlag ^^^ 1 else oldFlag
    let flag := if 0 ≤ test then flag ^^^ 2 else flag
    let x := if 0 ≤ test then x2 else x1
    mergeSegments op rounds (if test ≤ 0 then s1 else x1 :: s1) (if 0 ≤ test then s2 else x2 :: s2)
      flag (if flag = op.opCode ∨ oldFlag = op.opCode then segments ++ [x] else segments)
  | _, s1, s2, _, segments =>
    if op.shouldAddRemainingSegmentsFromSpan1 ∧ s1 ≠ [] then segments ++ s1
    else if op.shouldAddRemainingSegmentsFromSpan2 ∧ s2 ≠ [] then segments ++ s2
    else segments

/-- The spans that two shapes have together. Each round moves past a span. -/
def mergeSpans (op : Operation) (shape1 shape2 : Shape) :
    ℕ → List Span → List Span → List ℤ → List ℤ → Shape → Shape
  | rounds + 1, span1 :: spans1, span2 :: spans2, segments1, segments2, result =>
    let test := span1.y - span2.y
    let y := if 0 ≤ test then span2.y else span1.y
    let segments1 := if test ≤ 0 then shape1.segmentsOf (span1 :: spans1) else segments1
    let segments2 := if 0 ≤ test then shape2.segmentsOf (span2 :: spans2) else segments2
    let segments :=
      mergeSegments op (segments1.length + segments2.length) segments1 segments2 0 []
    mergeSpans op shape1 shape2 rounds (if test ≤ 0 then spans1 else span1 :: spans1)
      (if 0 ≤ test then spans2 else span2 :: spans2) segments1 segments2
      (if !segments.isEmpty || !result.isEmpty then result.appendSpanWithSegments y segments
      else result)
  | _, spans1, spans2, _, _, result =>
    if op.shouldAddRemainingSpansFromShape1 ∧ spans1 ≠ [] then shape1.appendSpans result spans1
    else if op.shouldAddRemainingSpansFromShape2 ∧ spans2 ≠ [] then shape2.appendSpans result spans2
    else result

def shapeOperation (op : Operation) (shape1 shape2 : Shape) : Shape :=
  match op.trySimpleOperation shape1 shape2 with
  | some result => result
  | none =>
    mergeSpans op shape1 shape2 (shape1.spans.length + shape2.spans.length) shape1.spans
      shape2.spans [] [] .empty

def unionShapes : Shape → Shape → Shape := shapeOperation unionOperation

def intersectShapes : Shape → Shape → Shape := shapeOperation intersectOperation

def subtractShapes : Shape → Shape → Shape := shapeOperation subtractOperation

end Shape

/-! ### Regions -/

structure Region where
  bounds : IntRect
  shape : Shape
deriving DecidableEq, Repr

namespace Region

variable (region other : Region)

/-- The region that the default constructor makes. -/
def empty : Region := ⟨.empty, .empty⟩

def ofRect (rect : IntRect) : Region := ⟨rect, .ofRect rect⟩

def isEmpty : Bool := region.bounds.isEmpty

def isRect : Bool := region.shape.isRect

/-- The rectangles of the segments of one span. -/
def spanRects (y height : ℤ) : List ℤ → List IntRect
  | x :: maxX :: segments => ⟨⟨x, y⟩, ⟨maxX - x, height⟩⟩ :: spanRects y height segments
  | _ => []

def rectsOfSpans (shape : Shape) : List Span → List IntRect
  | span :: next :: spans =>
    spanRects span.y (next.y - span.y) (shape.segmentsOf (span :: next :: spans)) ++
      rectsOfSpans shape (next :: spans)
  | _ => []

def rects : List IntRect := rectsOfSpans region.shape region.shape.spans

def contains : Bool :=
  region.bounds.contains other.bounds &&
    Shape.compareShapes Shape.compareContainsOperation region.shape other.shape

/-- One of the segments contains `px`. -/
def segmentsContain (px : ℤ) : List ℤ → Bool
  | x :: maxX :: segments =>
    if px < x then false else if px < maxX then true else segmentsContain px segments
  | _ => false

def spansContain (shape : Shape) (point : IntPoint) : List Span → Bool
  | span :: next :: spans =>
    if point.y < span.y then false
    else if next.y ≤ point.y then spansContain shape point (next :: spans)
    else segmentsContain point.x (shape.segmentsOf (span :: next :: spans)) ||
      spansContain shape point (next :: spans)
  | _ => false

def containsPoint (point : IntPoint) : Bool :=
  region.bounds.containsPoint point && spansContain region.shape point region.shape.spans

def intersect : Region :=
  if region.bounds.isEmpty then region
  else if !region.bounds.intersects other.bounds then .empty
  else
    let intersectedShape := Shape.intersectShapes region.shape other.shape
    ⟨intersectedShape.bounds, intersectedShape⟩

def unite : Region :=
  if other.isEmpty then region
  else if region.isRect && region.bounds.contains other.bounds then region
  else if other.isRect && other.bounds.contains region.bounds then ⟨other.bounds, other.shape⟩
  else if !region.isRect && region.contains other then region
  else ⟨region.bounds.unite other.bounds, Shape.unionShapes region.shape other.shape⟩

def subtract : Region :=
  if region.bounds.isEmpty then region
  else if other.isEmpty then region
  else if !region.bounds.intersects other.bounds then region
  else
    let subtractedShape := Shape.subtractShapes region.shape other.shape
    ⟨subtractedShape.bounds, subtractedShape⟩

def translate (offset : IntSize) : Region :=
  ⟨region.bounds.move offset, region.shape.translate offset⟩

end Region

end WebKit.Graphics
