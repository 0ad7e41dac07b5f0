import WebKit.Core.Bucket
import WebKit.ContentExtensions.DFA
import WebKit.ContentExtensions.MutableRangeList
import WebKit.ContentExtensions.Partition

/-!
# The transitions of an automaton, flattened

`FullGraphPartition` cuts the transitions of all nodes at the same characters, so that a
transition has one symbol: the number of a singular range. The transitions are kept by their
target, and are partitioned by their symbol at first.
-/

namespace WebKit.ContentExtensions

open RangeMap Bucket
open List hiding lookup

/-- Counts the transitions of a range. -/
def counterConverter : Converter ℕ ℕ := ⟨fun _ => 1, fun destination _ => destination + 1⟩

/-- The ranges between any two ends of a transition, with the number of transitions that contain
them. -/
def singularTransitions (dfa : DFA) : MutableRangeList ℕ :=
  (List.range dfa.nodes.size).foldl (fun ranges i =>
      if (dfa.nodes.get i).isKilled then ranges
      else ranges.extend counterConverter (dfa.nodes.get i).transitions)
    Vec.empty

/-! ### `iterateIntersections` -/

/-- `while (index < length && firsts[index] != firstCharacter) ++index`. The list is what is left
of the firsts from `index` on. -/
def skipTo (firstCharacter : ℕ) : List ℕ → ℕ → List ℕ × ℕ
  | [], index => ([], index)
  | f :: firsts, index =>
    if f ≠ firstCharacter then skipTo firstCharacter firsts (index + 1) else (f :: firsts, index)

/-- `while (index < length && firsts[index] <= lastCharacter)`, with the indices it passes. -/
def takeUpTo (lastCharacter : ℕ) : List ℕ → ℕ → List ℕ × List ℕ × ℕ
  | [], index => ([], [], index)
  | f :: firsts, index =>
    if f ≤ lastCharacter then
      let (indices, rest, next) := takeUpTo lastCharacter firsts (index + 1)
      (index :: indices, rest, next)
    else ([], f :: firsts, index)

/-- The calls of the handler: the singular ranges inside each transition. -/
def iterateIntersections : List ℕ → ℕ → List (Range ℕ) → List (ℕ × Range ℕ)
  | _, _, [] => []
  | firsts, index, other :: others =>
    let (firsts, index) := skipTo other.first firsts index
    let (indices, rest, next) := takeUpTo other.last firsts.tail (index + 1)
    (index :: indices).map (fun i => (i, other)) ++ iterateIntersections rest next others

/-- A transition with one symbol. -/
structure FlatTransition where
  source : ℕ
  symbol : ℕ
  target : ℕ
deriving Inhabited

/-- The transitions of one node. -/
def nodeTransitions (dfa : DFA) (firsts : List ℕ) (i : ℕ) : List FlatTransition :=
  if (dfa.nodes.get i).isKilled then []
  else
    (iterateIntersections firsts 0 (dfa.nodes.get i).transitions).map fun (symbol, origin) =>
      ⟨i, symbol, origin.data⟩

/-- The transitions of all nodes, in the order in which they are visited. -/
def flatTransitions (dfa : DFA) (firsts : List ℕ) : List FlatTransition :=
  (List.range dfa.nodes.size).flatMap (nodeTransitions dfa firsts)

/-! ### The partition of the graph -/

structure FullGraphPartition where
  flattenedTransitionsStartOffsetPerNode : Vec ℕ
  flattenedTransitionsSizePerNode : Vec ℕ
  /-- The source of each transition. -/
  flattenedTransitions : Vec ℕ
  nodePartition : Partition
  transitionPartition : Partition
  nextTransitionSetToProcess : ℕ

namespace FullGraphPartition

/-- The sets of the transition partition: one for each singular range, of the size that was
counted. -/
def addSingularSets (ranges : List (Range ℕ)) : Partition × ℕ :=
  ranges.foldl
    (fun (p, accumulator) r => (p.addSetUnchecked accumulator r.data, accumulator + r.data))
    (⟨Vec.empty, Vec.empty, Vec.empty, Vec.empty, []⟩, 0)

/-- The number of transitions into each node. -/
def countIncoming (size : ℕ) (transitions : List FlatTransition) : Vec ℕ :=
  transitions.foldl (fun counts t => counts.set t.target (counts.get t.target + 1))
    (Vec.replicate size 0)

/-- Replace each count by the sum of the counts before it. -/
def accumulateOffsets (counts : Vec ℕ) : Vec ℕ × ℕ :=
  (List.range counts.size).foldl
    (fun (offsets, accumulator) i => (offsets.set i accumulator, accumulator + offsets.get i))
    (counts, 0)

/-- What the second pass over the transitions fills. -/
structure FillState where
  sizePerNode : Vec ℕ
  flattenedTransitions : Vec ℕ
  transitionPerRangeOffset : Vec ℕ
  transitionPartition : Partition

def FillState.add (startOffsetPerNode : Vec ℕ) (st : FillState) (t : FlatTransition) : FillState :=
  let position := startOffsetPerNode.get t.target + st.sizePerNode.get t.target
  let positionInPartition := st.transitionPartition.startOffsetOfSet t.symbol +
    st.transitionPerRangeOffset.get t.symbol
  { flattenedTransitions := st.flattenedTransitions.set position t.source
    transitionPerRangeOffset :=
      st.transitionPerRangeOffset.set t.symbol (st.transitionPerRangeOffset.get t.symbol + 1)
    transitionPartition :=
      st.transitionPartition.setElementUnchecked position positionInPartition t.symbol
    sizePerNode := st.sizePerNode.set t.target (st.sizePerNode.get t.target + 1) }

/-- The constructor. -/
def ofDFA (dfa : DFA) : FullGraphPartition :=
  let ranges := (singularTransitions dfa).toList
  let transitions := flatTransitions dfa (ranges.map Range.first)
  let (offsets, flattenedTransitionsSize) :=
    accumulateOffsets (countIncoming dfa.nodes.size transitions)
  let sets := (addSingularSets ranges).1.reserveUninitializedCapacity flattenedTransitionsSize
  let st := transitions.foldl (FillState.add offsets)
    ⟨Vec.replicate dfa.nodes.size 0, Vec.replicate flattenedTransitionsSize 0,
      Vec.replicate sets.sets.size 0, sets⟩
  { flattenedTransitionsStartOffsetPerNode := offsets
    flattenedTransitionsSizePerNode := st.sizePerNode
    flattenedTransitions := st.flattenedTransitions
    nodePartition := Partition.initialized dfa.nodes.size
    transitionPartition := st.transitionPartition
    nextTransitionSetToProcess := 0 }

/-- The transitions into a node. -/
def incomingTransitions (g : FullGraphPartition) (nodeIndex : ℕ) : List ℕ :=
  (List.range (g.flattenedTransitionsSizePerNode.get nodeIndex)).map fun i =>
    g.flattenedTransitionsStartOffsetPerNode.get nodeIndex + i

def markNode (g : FullGraphPartition) (nodeIndex : ℕ) : FullGraphPartition :=
  { g with nodePartition := g.nodePartition.markElementInCurrentGeneration nodeIndex }

/-- Split the transitions by whether they go to the new set of nodes. -/
def splitTransitions (g : FullGraphPartition) (nodePartition : Partition) (smallestSetIndex : ℕ)
    (transitionPartition : Partition) : Partition :=
  let marked := (nodePartition.iterateSet smallestSetIndex).foldl
    (fun p nodeIndex =>
      (g.incomingTransitions nodeIndex).foldl Partition.markElementInCurrentGeneration p)
    transitionPartition
  (Partition.refineGeneration (fun _ _ u => u) marked ()).1

def refinePartitions (g : FullGraphPartition) : FullGraphPartition :=
  let (nodePartition, transitionPartition) :=
    Partition.refineGeneration g.splitTransitions g.nodePartition g.transitionPartition
  { g with nodePartition, transitionPartition }

/-- One iteration of `splitByUniqueTransitions`. -/
def processTransitionSet (g : FullGraphPartition) : FullGraphPartition :=
  let marked := (g.transitionPartition.iterateSet g.nextTransitionSetToProcess).foldl
    (fun g transitionIndex => g.markNode (g.flattenedTransitions.get transitionIndex)) g
  let refined := marked.refinePartitions
  { refined with nextTransitionSetToProcess := g.nextTransitionSetToProcess + 1 }

/-- There are no more sets than transitions, which bounds the iterations. -/
def splitLoop : ℕ → FullGraphPartition → FullGraphPartition
  | 0, g => g
  | fuel + 1, g =>
    if g.nextTransitionSetToProcess < g.transitionPartition.sets.size then
      splitLoop fuel g.processTransitionSet
    else g

def splitByUniqueTransitions (g : FullGraphPartition) : FullGraphPartition :=
  splitLoop g.flattenedTransitions.size g

def nodeReplacement (g : FullGraphPartition) (nodeIndex : ℕ) : ℕ :=
  g.nodePartition.firstElementInSet (g.nodePartition.setIndex nodeIndex)

end FullGraphPartition

/-! ### Singular ranges -/

variable {q : Range ℕ}

section

variable {dfa : DFA}

/-- The number of the first `k` nodes that have a transition for the character `c`. -/
def transitionCount (dfa : DFA) (k c : ℕ) : ℕ :=
  (List.range k).countP fun i => (dfa.target i c).isSome

lemma transitionCount_succ (dfa : DFA) (k c : ℕ) : transitionCount dfa (k + 1) c =
    transitionCount dfa k c + if (dfa.target k c).isSome then 1 else 0 := by
  simp [transitionCount, range_succ]

/-- Ranges that stand for the transitions of the first `k` nodes. -/
structure Singular (dfa : DFA) (k : ℕ) (rs : List (Range ℕ)) : Prop where
  sorted : Sorted rs
  subdivides : ∀ i < k, ∀ r ∈ (dfa.nodes.get i).transitions, Subdivides rs r
  lookup_eq : ∀ c, lookup rs c =
    if transitionCount dfa k c = 0 then none else some (transitionCount dfa k c)

lemma singular_zero (dfa : DFA) : Singular dfa 0 [] := ⟨trivial, by simp, by simp [transitionCount]⟩

variable {rs : List (Range ℕ)} {k : ℕ}

lemma Singular.merge (h : Singular dfa k rs) (hwf : dfa.WF) (hk : k < dfa.nodes.size) :
    Singular dfa (k + 1) (merge counterConverter rs (dfa.nodes.get k).transitions) := by
  have hsort := hwf.sorted k hk
  refine ⟨sorted_merge _ _ _ h.sorted hsort, ?_, ?_⟩
  · intro i hi r hr
    rcases Nat.lt_succ_iff_lt_or_eq.mp hi with hi | rfl
    · have hle := (hwf.sorted i (hi.trans hk)).first_le_last hr
      exact (h.subdivides i hi r hr).merge _ h.sorted hsort hle
    · exact subdivides_merge_right _ h.sorted hsort hr
  · intro c
    have hlook : lookup (dfa.nodes.get k).transitions c = dfa.target k c := rfl
    rw [lookup_merge _ _ _ h.sorted hsort, h.lookup_eq, transitionCount_succ, hlook]
    cases dfa.target k c with
    | none => simp
    | some j =>
      by_cases h0 : transitionCount dfa k c = 0 <;> simp [h0, counterConverter]

lemma singularTransitions_prefix (hwf : dfa.WF) (k : ℕ) (hk : k ≤ dfa.nodes.size) :
    ∃ rs, MutableRangeList.Represents ((List.range k).foldl (fun ranges i =>
          if (dfa.nodes.get i).isKilled then ranges
          else ranges.extend counterConverter (dfa.nodes.get i).transitions)
        (Vec.empty : MutableRangeList ℕ)) rs ∧ Singular dfa k rs := by
  induction k with
  | zero => exact ⟨[], MutableRangeList.represents_empty, singular_zero dfa⟩
  | succ k ih =>
    obtain ⟨rs, hrep, hrs⟩ := ih (by omega)
    rw [range_succ, foldl_append, foldl_cons]
    refine ⟨merge counterConverter rs (dfa.nodes.get k).transitions, ?_, hrs.merge hwf hk⟩
    split_ifs with hkill
    · -- a killed node has no transitions
      have hnil := ((dfa.nodes.get k).killed_empty hkill).2
      have hmerge : merge counterConverter rs ([] : List (Range ℕ)) = rs := by
        cases rs <;> simp [RangeMap.merge]
      rwa [hnil, hmerge]
    · exact (MutableRangeList.extend_represents _ hrep _).1

theorem singular_toList (hwf : dfa.WF) :
    Singular dfa dfa.nodes.size (singularTransitions dfa).toList := by
  obtain ⟨rs, hrep, hrs⟩ := singularTransitions_prefix hwf dfa.nodes.size le_rfl
  rw [singularTransitions, hrep.toList_eq]
  exact hrs

/-- All characters of a singular range have the same target. -/
lemma Singular.target_eq (h : Singular dfa k rs) (hwf : dfa.WF)
    {i : ℕ} (hik : i < k) (hi : i < dfa.nodes.size) (hq : q ∈ rs) {c : ℕ}
    (h₁ : q.first ≤ c) (h₂ : c ≤ q.last) : dfa.target i c = dfa.target i q.first := by
  have hsort := hwf.sorted i hi
  have hchar : ∀ d d' j, q.first ≤ d → d ≤ q.last → q.first ≤ d' → d' ≤ q.last →
      dfa.target i d = some j → dfa.target i d' = some j := by
    intro d d' j h₁ h₂ h₃ h₄ hj
    obtain ⟨r, hr, hfst, hlast, rfl⟩ := lookup_eq_some hj
    have halig := (h.subdivides i hik r hr).1 q hq
    unfold AlignedWith at halig
    exact lookup_of_mem hsort hr (by omega) (by omega)
  have hle := h.sorted.first_le_last hq
  cases hc : dfa.target i c with
  | some j => exact (hchar c q.first j h₁ h₂ le_rfl hle hc).symm
  | none =>
    cases hf : dfa.target i q.first with
    | some j => rw [hchar q.first c j le_rfl hle h₁ h₂ hf] at hc; simp at hc
    | none => rfl

/-- The data of a singular range counts the nodes with a transition for it. -/
lemma Singular.data_eq (h : Singular dfa k rs)
    (hq : q ∈ rs) : q.data = transitionCount dfa k q.first ∧ 0 < q.data := by
  have hlook := h.lookup_eq q.first
  rw [lookup_of_mem h.sorted hq le_rfl (h.sorted.first_le_last hq)] at hlook
  split_ifs at hlook with h0
  rw [Option.some.injEq] at hlook
  omega

end

/-! ### Intersections -/

section

variable {F : List ℕ}

section

variable (hF : F.Pairwise (· < ·))

include hF

lemma skipTo_drop {c j : ℕ} (hj : F[j]? = some c) (index : ℕ)
    (hle : index ≤ j) : skipTo c (F.drop index) index = (F.drop j, j) := by
  obtain ⟨d, rfl⟩ := Nat.exists_eq_add_of_le hle
  induction d generalizing index with
  | zero =>
    rw [Nat.add_zero] at hj ⊢
    obtain ⟨hlt, hget⟩ := List.getElem?_eq_some_iff.mp hj
    rw [drop_eq_getElem_cons hlt, skipTo, if_neg (by simp [hget])]
  | succ d ih =>
    have hlt' : index + (d + 1) < F.length := (List.getElem?_eq_some_iff.mp hj).1
    have hlt : index < F.length := by omega
    have hne : F[index] ≠ c := by
      have hget := (List.getElem?_eq_some_iff.mp hj).2
      have := pairwise_iff_getElem.mp hF index (index + (d + 1)) hlt hlt' (by omega)
      omega
    have harith : index + (d + 1) = index + 1 + d := by omega
    rw [drop_eq_getElem_cons hlt, skipTo, if_pos hne]
    rw [harith] at hj ⊢
    exact ih (index + 1) hj (by omega)

lemma takeUpTo_drop (l index : ℕ) :
    ∃ e, index ≤ e ∧ e ≤ max index F.length ∧
      takeUpTo l (F.drop index) index = (List.range' index (e - index), F.drop e, e) ∧
      ∀ j f, F[j]? = some f → index ≤ j → (j < e ↔ f ≤ l) := by
  induction hd : F.length - index generalizing index with
  | zero =>
    refine ⟨index, le_rfl, le_max_left _ _, ?_, ?_⟩
    · rw [drop_eq_nil_of_le (by omega)]
      simp [takeUpTo]
    · intro j f hj hle
      have := (List.getElem?_eq_some_iff.mp hj).1
      omega
  | succ d ih =>
    have hlt : index < F.length := by omega
    rw [drop_eq_getElem_cons hlt, takeUpTo]
    split_ifs with hle
    · obtain ⟨e, he, hmax, htake, hiff⟩ := ih (index + 1) (by omega)
      refine ⟨e, by omega, by omega, ?_, ?_⟩
      · rw [htake]
        have harith : e - index = e - (index + 1) + 1 := by omega
        simp [harith, range'_succ]
      · intro j f hj hij
        rcases Nat.eq_or_lt_of_le hij with rfl | hij
        · have hf := (List.getElem?_eq_some_iff.mp hj).2
          exact ⟨fun _ => hf ▸ hle, fun _ => by omega⟩
        · exact hiff j f hj hij
    · refine ⟨index, le_rfl, le_max_left _ _, ?_, ?_⟩
      · simp
      · intro j f hj hij
        obtain ⟨hj', hf⟩ := List.getElem?_eq_some_iff.mp hj
        have hge : F[index] ≤ f := by
          rcases Nat.eq_or_lt_of_le hij with rfl | hij
          · exact hf.le
          · exact hf ▸ (pairwise_iff_getElem.mp hF index j hlt hj' hij).le
        omega

/-- In an increasing list a smaller element has a smaller index. -/
lemma index_lt_of_lt {j j' f f' : ℕ} (hj : F[j]? = some f)
    (hj' : F[j']? = some f') (hff : f < f') : j < j' := by
  obtain ⟨h₁, rfl⟩ := List.getElem?_eq_some_iff.mp hj
  obtain ⟨h₂, rfl⟩ := List.getElem?_eq_some_iff.mp hj'
  by_contra hle
  rcases Nat.eq_or_lt_of_le (not_lt.mp hle) with rfl | hlt
  · exact lt_irrefl _ hff
  · exact absurd (pairwise_iff_getElem.mp hF j' j h₂ h₁ hlt) (by omega)

/-- The singular ranges that start inside one transition have consecutive indices. -/
lemma exists_intersection_end {o : Range ℕ} (ho : o.first ≤ o.last)
    {j₀ : ℕ} (hj₀ : F[j₀]? = some o.first) :
    ∃ e, j₀ < e ∧
      takeUpTo o.last (F.drop (j₀ + 1)) (j₀ + 1) =
        (List.range' (j₀ + 1) (e - (j₀ + 1)), F.drop e, e) ∧
      (∀ j < e, ∃ f, F[j]? = some f) ∧
      ∀ j f, F[j]? = some f → (j₀ ≤ j ∧ j < e ↔ o.first ≤ f ∧ f ≤ o.last) := by
  obtain ⟨e, he, hmax, htake, hiff⟩ := takeUpTo_drop hF o.last (j₀ + 1)
  obtain ⟨hlen, hget⟩ := List.getElem?_eq_some_iff.mp hj₀
  refine ⟨e, he, htake, fun j hj => ⟨F.get ⟨j, by omega⟩, by simp⟩, ?_⟩
  intro j f hj
  obtain ⟨hjlen, rfl⟩ := List.getElem?_eq_some_iff.mp hj
  rcases lt_trichotomy j j₀ with hlt | rfl | hgt
  · have := pairwise_iff_getElem.mp hF j j₀ hjlen hlen hlt
    omega
  · omega
  · have := pairwise_iff_getElem.mp hF j₀ j hlen hjlen hgt
    have := hiff j _ hj hgt
    omega

/-- The handler is called for the singular ranges that start inside a transition, once for each,
in increasing order. -/
lemma iterateIntersections_drop (others : List (Range ℕ)) (hoth : Sorted others) (index : ℕ)
    (hfst : ∀ o ∈ others, ∃ j, index ≤ j ∧ F[j]? = some o.first) :
    (∀ j o, (j, o) ∈ iterateIntersections (F.drop index) index others ↔
      o ∈ others ∧ index ≤ j ∧ ∃ f, F[j]? = some f ∧ o.first ≤ f ∧ f ≤ o.last) ∧
    ((iterateIntersections (F.drop index) index others).map Prod.fst).Pairwise (· < ·) := by
  induction others generalizing index with
  | nil => simp [iterateIntersections]
  | cons o others ih =>
    obtain ⟨j₀, hj₀, hget₀⟩ := hfst o mem_cons_self
    have hle := hoth.1
    obtain ⟨e, he, htake, hsome, hiff⟩ := exists_intersection_end hF hle hget₀
    -- the ranges that follow start behind the end of this one
    have hlate : ∀ o' ∈ others, ∀ j f, F[j]? = some f → o'.first ≤ f → e ≤ j := by
      intro o' ho' j f hj hf
      have hgap := hoth.2.1 o' ho'
      have hlt := index_lt_of_lt hF hget₀ hj (by omega)
      have := hiff j f hj
      omega
    obtain ⟨hmem, hpair⟩ := ih hoth.2.2 e fun o' ho' => by
      obtain ⟨j, -, hj⟩ := hfst o' (mem_cons_of_mem _ ho')
      exact ⟨j, hlate o' ho' j _ hj le_rfl, hj⟩
    have hcons : j₀ :: range' (j₀ + 1) (e - (j₀ + 1)) = range' j₀ (e - j₀) := by
      have harith : e - j₀ = e - (j₀ + 1) + 1 := by omega
      rw [harith, range'_succ]
    -- so the handler gets an interval of indices for `o`, and the rest from its end on
    have hstep : iterateIntersections (F.drop index) index (o :: others) =
        (range' j₀ (e - j₀)).map (fun i => (i, o)) ++ iterateIntersections (F.drop e) e others := by
      simp only [iterateIntersections, skipTo_drop hF hget₀ index hj₀, tail_drop, htake, hcons]
    rw [hstep]
    constructor
    · intro j o'
      rw [mem_append, hmem, mem_map, mem_cons]
      constructor
      · rintro (⟨i, hi, heq⟩ | ⟨ho', hej, hf⟩)
        · obtain ⟨rfl, rfl⟩ := Prod.mk.inj heq
          rw [mem_range'_1] at hi
          obtain ⟨f, hf⟩ := hsome i (by omega)
          exact ⟨.inl rfl, by omega, f, hf, (hiff i f hf).mp (by omega)⟩
        · exact ⟨.inr ho', by omega, hf⟩
      · rintro ⟨rfl | ho', hij, f, hf, hin⟩
        · have hj := (hiff j f hf).mpr hin
          exact .inl ⟨j, mem_range'_1.mpr (by omega), rfl⟩
        · exact .inr ⟨ho', hlate o' ho' j f hf hin.1, f, hf, hin⟩
    · rw [map_append, map_map, pairwise_append]
      refine ⟨?_, hpair, ?_⟩
      · have hid : (Prod.fst ∘ fun i => (i, o)) = (id : ℕ → ℕ) := rfl
        rw [hid, map_id]
        exact pairwise_lt_range'
      · intro a ha b hb
        simp only [mem_map, mem_range'_1, Function.comp_apply] at ha
        obtain ⟨⟨b', o'⟩, hb', rfl⟩ := mem_map.mp hb
        have := ((hmem b' o').mp hb').2.1
        omega

/-- The intersections of a whole list with the transitions of a node. -/
lemma iterateIntersections_spec {others : List (Range ℕ)}
    (hoth : Sorted others) (hfst : ∀ o ∈ others, o.first ∈ F) :
    (∀ j o, (j, o) ∈ iterateIntersections F 0 others ↔
      o ∈ others ∧ ∃ f, F[j]? = some f ∧ o.first ≤ f ∧ f ≤ o.last) ∧
    ((iterateIntersections F 0 others).map Prod.fst).Nodup := by
  obtain ⟨hmem, hpair⟩ := iterateIntersections_drop hF others hoth 0 fun o ho => by
    obtain ⟨j, hj⟩ := mem_iff_getElem?.mp (hfst o ho)
    exact ⟨j, Nat.zero_le _, hj⟩
  rw [drop_zero] at hmem hpair
  exact ⟨fun j o => by simp [hmem], hpair.imp fun h => h.ne⟩

end

end

/-! ### Flat transitions -/

section

variable {dfa : DFA} {rs : List (Range ℕ)}

lemma pairwise_first (hs : Sorted rs) : (rs.map Range.first).Pairwise (· < ·) := by
  induction rs with
  | nil => exact List.Pairwise.nil
  | cons r rs ih =>
    refine List.Pairwise.cons ?_ (ih hs.2.2)
    intro f hf
    obtain ⟨q, hq, rfl⟩ := mem_map.mp hf
    exact hs.1.trans_lt (hs.2.1 q hq)

section

variable (hwf : dfa.WF) (hrs : Singular dfa dfa.nodes.size rs)

include hwf hrs

lemma transitions_spec {i : ℕ} (hi : i < dfa.nodes.size) :
    (∀ t, t ∈ nodeTransitions dfa (rs.map Range.first) i ↔ t.source = i ∧
      ∃ q, rs[t.symbol]? = some q ∧ dfa.target i q.first = some t.target) ∧
    ((nodeTransitions dfa (rs.map Range.first) i).map FlatTransition.symbol).Nodup := by
  have hsort := hwf.sorted i hi
  unfold nodeTransitions
  split_ifs with hkill
  · have hnil := ((dfa.nodes.get i).killed_empty hkill).2
    simp [DFA.target, hnil]
  · have hfst : ∀ o ∈ (dfa.nodes.get i).transitions, o.first ∈ rs.map Range.first := by
      intro o ho
      obtain ⟨q, hq, heq⟩ := (hrs.subdivides i hi o ho).exists_first (hsort.first_le_last ho)
      exact mem_map.mpr ⟨q, hq, heq⟩
    obtain ⟨hmem, hnd⟩ := iterateIntersections_spec (pairwise_first hrs.sorted) hsort hfst
    constructor
    · rintro ⟨source, symbol, target⟩
      simp only [mem_map, Prod.exists, FlatTransition.mk.injEq]
      constructor
      · rintro ⟨j, o, hjo, rfl, rfl, rfl⟩
        obtain ⟨ho, f, hf, h₁, h₂⟩ := (hmem j o).mp hjo
        rw [getElem?_map, Option.map_eq_some_iff] at hf
        obtain ⟨q, hq, rfl⟩ := hf
        exact ⟨rfl, q, hq, lookup_of_mem hsort ho h₁ h₂⟩
      · rintro ⟨rfl, q, hq, htgt⟩
        obtain ⟨o, ho, h₁, h₂, hdata⟩ := lookup_eq_some htgt
        refine ⟨symbol, o, (hmem symbol o).mpr ⟨ho, q.first, ?_, h₁, h₂⟩, rfl, rfl, hdata⟩
        simp [hq]
    · rw [map_map]
      exact hnd

lemma mem_flatTransitions (t : FlatTransition) : t ∈ flatTransitions dfa (rs.map Range.first) ↔
      t.source < dfa.nodes.size ∧
        ∃ q, rs[t.symbol]? = some q ∧ dfa.target t.source q.first = some t.target := by
  rw [flatTransitions, mem_flatMap]
  constructor
  · rintro ⟨i, hi, ht⟩
    rw [mem_range] at hi
    obtain ⟨rfl, hq⟩ := ((transitions_spec hwf hrs hi).1 t).mp ht
    exact ⟨hi, hq⟩
  · rintro ⟨hi, hq⟩
    exact ⟨t.source, mem_range.mpr hi, ((transitions_spec hwf hrs hi).1 t).mpr ⟨rfl, hq⟩⟩

/-- A node has at most one transition for a symbol. -/
lemma nodup_flatTransitions :
    ((flatTransitions dfa (rs.map Range.first)).map fun t => (t.source, t.symbol)).Nodup := by
  rw [flatTransitions, map_flatMap, nodup_flatMap]
  constructor
  · intro i hi
    obtain ⟨-, hnd⟩ := transitions_spec hwf hrs (mem_range.mp hi)
    refine List.Nodup.of_map Prod.snd ?_
    rw [map_map]
    exact hnd
  · refine List.Pairwise.imp_of_mem ?_ (nodup_range)
    intro i i' hi hi' hne x hx hx'
    obtain ⟨t, ht, rfl⟩ := mem_map.mp hx
    obtain ⟨t', ht', heq⟩ := mem_map.mp hx'
    have h₁ := (((transitions_spec hwf hrs (mem_range.mp hi)).1 t).mp ht).1
    have h₂ := (((transitions_spec hwf hrs (mem_range.mp hi')).1 t').mp ht').1
    exact hne (h₁.symm.trans ((congrArg Prod.fst heq).symm.trans h₂))

/-- Each symbol has as many transitions as its singular range counts. -/
lemma count_symbol {j : ℕ} (hq : rs[j]? = some q) :
    ((flatTransitions dfa (rs.map Range.first)).map FlatTransition.symbol).count j = q.data := by
  have hpre : ∀ k ≤ dfa.nodes.size, ((range k).flatMap fun i =>
      (nodeTransitions dfa (rs.map Range.first) i).map FlatTransition.symbol).count j =
      transitionCount dfa k q.first := by
    intro k hk
    induction k with
    | zero => simp [transitionCount]
    | succ k ih =>
      obtain ⟨hmem, hnd⟩ := transitions_spec hwf hrs (show k < dfa.nodes.size by omega)
      rw [range_succ, flatMap_append, count_append, ih (by omega),
        transitionCount_succ, flatMap_singleton, hnd.count]
      congr 1
      refine if_congr ?_ rfl rfl
      rw [mem_map, Option.isSome_iff_exists]
      constructor
      · rintro ⟨t, ht, rfl⟩
        obtain ⟨-, q', hq', htgt⟩ := (hmem t).mp ht
        rw [hq, Option.some.injEq] at hq'
        exact ⟨t.target, hq' ▸ htgt⟩
      · rintro ⟨target, htgt⟩
        exact ⟨⟨k, j, target⟩, (hmem _).mpr ⟨rfl, q, hq, htgt⟩, rfl⟩
  rw [flatTransitions, map_flatMap, hpre _ le_rfl]
  exact (hrs.data_eq (mem_of_getElem? hq)).1.symm

end

end

/-! ### Building the partition -/

namespace FullGraphPartition

variable {m : ℕ}

section

variable {ts : List FlatTransition} {rs : List (Range ℕ)}

/-- The targets of the transitions. -/
def targets (transitions : List FlatTransition) : List ℕ := transitions.map FlatTransition.target

/-- The symbols of the transitions. -/
def symbols (transitions : List FlatTransition) : List ℕ := transitions.map FlatTransition.symbol

lemma get_countIncoming (size : ℕ) (k : ℕ) :
    (countIncoming size ts).get k = (targets ts).count k := by
  induction ts using reverseRecOn with
  | nil => rfl
  | append_singleton ts t ih =>
    rw [countIncoming, foldl_append, foldl_cons, foldl_nil, Vec.get_set]
    rw [countIncoming] at ih
    rw [targets] at ih ⊢
    rw [map_append, count_append, ← ih]
    by_cases hk : k = t.target
    · simp [hk]
    · simp [hk, Ne.symm hk]

lemma size_countIncoming (size : ℕ) : (countIncoming size ts).size = size := by
  induction ts using reverseRecOn with
  | nil => rfl
  | append_singleton ts t ih =>
    rw [countIncoming, foldl_append]
    exact ih

/-- Offsets are the starts of the buckets of the targets. -/
lemma accumulateOffsets_countIncoming {size : ℕ} (htgt : ∀ t ∈ ts, t.target < size) :
    (∀ k < size, (accumulateOffsets (countIncoming size ts)).1.get k =
      Bucket.start (targets ts) k) ∧
    (accumulateOffsets (countIncoming size ts)).2 = ts.length := by
  have hpre : ∀ i ≤ size, ∀ r, (range i).foldl
      (fun r i => (r.1.set i r.2, r.2 + r.1.get i))
      (countIncoming size ts, 0) = r →
      r.2 = start (targets ts) i ∧
      ∀ k, r.1.get k = if k < i then start (targets ts) k
        else (targets ts).count k := by
    intro i hi
    induction i with
    | zero =>
      rintro r rfl
      simp [get_countIncoming]
    | succ i ih =>
      rintro r rfl
      obtain ⟨hacc, hget⟩ := ih (by omega) _ rfl
      rw [range_succ, foldl_append, foldl_cons, foldl_nil]
      refine ⟨?_, fun k => ?_⟩
      · rw [hacc, hget, if_neg (lt_irrefl _), start_succ]
      · rw [Vec.get_set, hget, hacc]
        rcases lt_trichotomy k i with h | rfl | h
        · rw [if_neg h.ne, if_pos h, if_pos (by omega)]
        · simp
        · rw [if_neg h.ne', if_neg (by omega), if_neg (by omega)]
  have hall := hpre size le_rfl _ rfl
  rw [accumulateOffsets, size_countIncoming]
  refine ⟨fun k hk => ?_, ?_⟩
  · exact (hall.2 k).trans (if_pos hk)
  · refine hall.1.trans ?_
    have hlen := start_eq_length (targets ts) (by
      intro a ha
      obtain ⟨t, ht, rfl⟩ := mem_map.mp ha
      exact htgt t ht)
    rw [hlen, targets, length_map]

/-- The sets of the singular ranges stand one after another. -/
lemma addSingularSets_spec :
    (addSingularSets rs).2 = (rs.map Range.data).sum ∧
    (addSingularSets rs).1.sets.size = rs.length ∧
    (addSingularSets rs).1.setsMarkedInCurrentGeneration = [] ∧
    ∀ j q, rs[j]? = some q → (addSingularSets rs).1.sets.get j =
      ⟨((rs.take j).map Range.data).sum, q.data, 0⟩ := by
  induction rs using List.reverseRecOn with
  | nil => simp [addSingularSets]
  | append_singleton rs r ih =>
    obtain ⟨hacc, hsize, hmk, hget⟩ := ih
    have hstep : addSingularSets (rs ++ [r]) =
        ((addSingularSets rs).1.addSetUnchecked (addSingularSets rs).2 r.data,
          (addSingularSets rs).2 + r.data) := by
      rw [addSingularSets, foldl_append]
      rfl
    rw [hstep]
    refine ⟨by simp [hacc], by simp [Partition.addSetUnchecked, hsize], hmk, ?_⟩
    intro j q hj
    simp only [Partition.addSetUnchecked, Vec.get_push, hsize]
    by_cases hjl : j = rs.length
    · subst hjl
      obtain rfl : r = q := by simpa using hj
      simp [hacc]
    · have hlt : j < rs.length := by
        have := (List.getElem?_eq_some_iff.mp hj).1
        rw [length_append, length_singleton] at this
        omega
      rw [getElem?_append_left hlt] at hj
      rw [if_neg hjl, hget j q hj, take_append_of_le_length hlt.le]

/-- The sets of the singular ranges are the buckets of the symbols. -/
lemma sum_data_take {symbols : List ℕ} (hcnt : ∀ j q, rs[j]? = some q → symbols.count j = q.data)
    (j : ℕ) (hj : j ≤ rs.length) : ((rs.take j).map Range.data).sum = Bucket.start symbols j := by
  induction j with
  | zero => simp
  | succ j ih =>
    have hlt : j < rs.length := hj
    have hq : rs[j]? = some rs[j] := getElem?_eq_getElem hlt
    rw [take_succ_eq_append_getElem hlt, map_append, sum_append, ih hlt.le, start_succ, hcnt j _ hq]
    simp

/-- The flattened index of the transition with number `m`. -/
def flatIndex (transitions : List FlatTransition) (m : ℕ) : ℕ :=
  Bucket.place (targets transitions) m

/-- The position in the transition partition of the transition with number `m`. -/
def flatPosition (transitions : List FlatTransition) (m : ℕ) : ℕ :=
  Bucket.place (symbols transitions) m

/-- The first `m` transitions are filled in. -/
structure Filled (transitions : List FlatTransition) (sets : Vec SetDescriptor) (m : ℕ)
    (st : FillState) : Prop where
  sizePerNode : ∀ k, st.sizePerNode.get k = ((targets transitions).take m).count k
  rangeOffset : ∀ j, st.transitionPerRangeOffset.get j = ((symbols transitions).take m).count j
  sets_eq : st.transitionPartition.sets = sets
  marked_eq : st.transitionPartition.setsMarkedInCurrentGeneration = []
  size_eq : st.flattenedTransitions.size = transitions.length
  source_eq : ∀ i < m, ∀ t, transitions[i]? = some t →
    st.flattenedTransitions.get (flatIndex transitions i) = t.source
  element_eq : ∀ i < m,
    st.transitionPartition.partitionedElements.get (flatPosition transitions i) =
      flatIndex transitions i
  pos_eq : ∀ i < m,
    st.transitionPartition.pos (flatIndex transitions i) = flatPosition transitions i
  setIndex_eq : ∀ i < m, ∀ t, transitions[i]? = some t →
    st.transitionPartition.setIndex (flatIndex transitions i) = t.symbol

variable {t : FlatTransition}

lemma key_targets (ht : ts[m]? = some t) : Bucket.key (targets ts) m = t.target := key_map ht

lemma key_symbols (ht : ts[m]? = some t) : Bucket.key (symbols ts) m = t.symbol := key_map ht

variable {sets : Vec SetDescriptor} {st : FillState}

lemma Filled.add {offsets : Vec ℕ} (h : Filled ts sets m st) (ht : ts[m]? = some t)
    (hoff : offsets.get t.target = Bucket.start (targets ts) t.target)
    (hset : (sets.get t.symbol).start = Bucket.start (symbols ts) t.symbol) :
    Filled ts sets (m + 1) (st.add offsets t) := by
  have hm : m < ts.length := (List.getElem?_eq_some_iff.mp ht).1
  have hmt : m < (targets ts).length := by simpa [targets] using hm
  have hms : m < (symbols ts).length := by simpa [symbols] using hm
  have hpos : offsets.get t.target + st.sizePerNode.get t.target = flatIndex ts m := by
    rw [hoff, h.sizePerNode, flatIndex, place, key_targets ht]
  have hpositionInPartition : st.transitionPartition.startOffsetOfSet t.symbol +
      st.transitionPerRangeOffset.get t.symbol = flatPosition ts m := by
    rw [Partition.startOffsetOfSet, h.sets_eq, hset, h.rangeOffset, flatPosition, place,
      key_symbols ht]
  have hindex_ne : ∀ i < m, flatIndex ts i ≠ flatIndex ts m :=
    fun i hi heq => hi.ne (place_injective (hi.trans hmt) hmt heq)
  have hposition_ne : ∀ i < m, flatPosition ts i ≠ flatPosition ts m :=
    fun i hi heq => hi.ne (place_injective (hi.trans hms) hms heq)
  have heq : ∀ t', ts[m]? = some t' → t = t' := fun t' ht' => Option.some.inj (ht.symm.trans ht')
  unfold FillState.add
  simp only [hpos, hpositionInPartition]
  constructor
  · intro k
    rw [Vec.get_set, h.sizePerNode, h.sizePerNode, count_take_succ hmt, key_targets ht]
    by_cases hk : k = t.target
    · simp [hk]
    · simp [hk, Ne.symm hk]
  · intro j
    rw [Vec.get_set, h.rangeOffset, h.rangeOffset, count_take_succ hms, key_symbols ht]
    by_cases hj : j = t.symbol
    · simp [hj]
    · simp [hj, Ne.symm hj]
  · exact h.sets_eq
  · exact h.marked_eq
  · exact h.size_eq
  · exact Vec.forall_get_set (P := fun i source => ∀ t, ts[i]? = some t → source = t.source)
      hindex_ne h.source_eq fun t' ht' => by rw [heq t' ht']
  · exact Vec.forall_get_set (P := fun i element => element = flatIndex ts i)
      hposition_ne h.element_eq rfl
  · exact Vec.forall_get_set (P := fun i pos => pos = flatPosition ts i) hindex_ne h.pos_eq rfl
  · exact Vec.forall_get_set (P := fun i set => ∀ t, ts[i]? = some t → set = t.symbol)
      hindex_ne h.setIndex_eq fun t' ht' => by rw [heq t' ht']

lemma filled_foldl (offsets : Vec ℕ) (h : Filled ts sets 0 st)
    (hoff : ∀ t ∈ ts, offsets.get t.target = Bucket.start (targets ts) t.target)
    (hset : ∀ t ∈ ts, (sets.get t.symbol).start = Bucket.start (symbols ts) t.symbol) (m : ℕ)
    (hm : m ≤ ts.length) : Filled ts sets m ((ts.take m).foldl (FillState.add offsets) st) := by
  induction m with
  | zero => simpa using h
  | succ m ih =>
    have hlt : m < ts.length := hm
    have ht : ts[m]? = some ts[m] := getElem?_eq_getElem hlt
    have hmem : ts[m] ∈ ts := getElem_mem hlt
    rw [take_succ_eq_append_getElem hlt, foldl_append]
    exact (ih hlt.le).add ht (hoff _ hmem) (hset _ hmem)

end

/-- The arrays of `g` hold the `N` transitions of the automaton, where `symbol` and `target` say
what each of them is. -/
structure FlatGraph (dfa : DFA) (rs : List (Range ℕ)) (g : FullGraphPartition) (N : ℕ)
    (symbol target : ℕ → ℕ) : Prop where
  source_lt : ∀ t < N, g.flattenedTransitions.get t < dfa.nodes.size
  target_lt : ∀ t < N, target t < dfa.nodes.size
  mem_incoming : ∀ k < dfa.nodes.size, ∀ t, t ∈ g.incomingTransitions k ↔ t < N ∧ target t = k
  eq_of_source_symbol : ∀ t < N, ∀ t' < N,
    g.flattenedTransitions.get t = g.flattenedTransitions.get t' → symbol t = symbol t' → t = t'
  symbol_lt : ∀ t < N, symbol t < rs.length
  target_iff : ∀ i < dfa.nodes.size, ∀ j q, rs[j]? = some q → ∀ k,
    dfa.target i q.first = some k ↔
      ∃ t < N, g.flattenedTransitions.get t = i ∧ symbol t = j ∧ target t = k

section

variable {dfa : DFA} {rs : List (Range ℕ)} {ts : List FlatTransition}
  {sets : Vec SetDescriptor} {st : FillState}

/-- Every index below the number of transitions is that of one transition. -/
lemma exists_flatIndex {x : ℕ} (hx : x < ts.length) :
    ∃ m t, m < ts.length ∧ ts[m]? = some t ∧ flatIndex ts m = x := by
  obtain ⟨m, hm, rfl⟩ := exists_place_map_eq (f := FlatTransition.target) hx
  exact ⟨m, ts[m], hm, getElem?_eq_getElem hm, rfl⟩

/-- The transitions are partitioned by their symbols. -/
lemma Filled.wf_transitionPartition (h : Filled ts sets ts.length st)
    (hsize : sets.size = rs.length)
    (hget : ∀ j < rs.length, sets.get j = ⟨Bucket.start (symbols ts) j, (symbols ts).count j, 0⟩)
    (hsym : ∀ t ∈ ts, t.symbol < rs.length) (hcnt : ∀ j < rs.length, 0 < (symbols ts).count j) :
    Partition.WF ts.length st.transitionPartition [] := by
  have hlen : (symbols ts).length = ts.length := length_map _
  -- every position is the place of one transition in the order by symbols
  have helement : ∀ m < ts.length, st.transitionPartition.partitionedElements.get
      (place (ts.map FlatTransition.symbol) m) = flatIndex ts m := h.element_eq
  constructor
  · intro x hx
    obtain ⟨m, t, hm, ht, rfl⟩ := exists_flatIndex hx
    rw [h.pos_eq m hm]
    exact place_map_lt hm
  · intro x hx
    obtain ⟨m, hm, rfl⟩ := exists_place_map_eq (f := FlatTransition.symbol) hx
    rw [helement m hm]
    exact place_map_lt hm
  · intro x hx
    obtain ⟨m, t, hm, ht, rfl⟩ := exists_flatIndex hx
    rw [h.pos_eq m hm, h.element_eq m hm]
  · intro x hx
    obtain ⟨m, hm, rfl⟩ := exists_place_map_eq (f := FlatTransition.symbol) hx
    rw [helement m hm, h.pos_eq m hm]
    rfl
  · intro x hx
    obtain ⟨m, t, hm, ht, rfl⟩ := exists_flatIndex hx
    rw [h.setIndex_eq m hm t ht, h.sets_eq, hsize]
    exact hsym t (mem_of_getElem? ht)
  · intro x hx s hs
    rw [h.sets_eq, hsize] at hs
    obtain ⟨m, t, hm, ht, rfl⟩ := exists_flatIndex hx
    rw [h.setIndex_eq m hm t ht, h.pos_eq m hm, h.sets_eq, hget s hs, ← key_symbols ht]
    simp only [SetDescriptor.stop]
    rw [← start_succ]
    exact key_eq_iff (hlen.symm ▸ hm)
  · intro s hs
    rw [h.sets_eq, hsize] at hs
    rw [h.sets_eq, hget s hs]
    simp only [SetDescriptor.stop]
    rw [← start_succ, ← hlen]
    exact start_le_length _ _
  · intro s hs
    rw [h.sets_eq, hsize] at hs
    rw [h.sets_eq, hget s hs]
    exact hcnt s hs
  · intro s hs
    rw [h.sets_eq, hsize] at hs
    rw [h.sets_eq, hget s hs]
    exact Nat.zero_le _
  · intro s
    rw [h.sets_eq, hsize]
    constructor
    · exact fun hs => absurd hs not_mem_nil
    · rintro ⟨hs, hpos⟩
      rw [hget s hs] at hpos
      exact absurd hpos (lt_irrefl _)
  · exact nodup_nil

section

variable (hwf : dfa.WF) (hrs : Singular dfa dfa.nodes.size rs)

include hwf hrs

/-- The sets of the singular ranges are the buckets of the symbols. -/
lemma sets_addSingularSets {j : ℕ} (hj : j < rs.length) : (addSingularSets rs).1.sets.get j =
      ⟨Bucket.start (symbols (flatTransitions dfa (rs.map Range.first))) j,
        (symbols (flatTransitions dfa (rs.map Range.first))).count j, 0⟩ := by
  have hq : rs[j]? = some rs[j] := getElem?_eq_getElem hj
  have hcnt := fun j q hq => count_symbol hwf hrs (j := j) (q := q) hq
  rw [addSingularSets_spec.2.2.2 j _ hq, sum_data_take hcnt j hj.le, symbols, hcnt j _ hq]

lemma symbol_lt_of_mem : ∀ t ∈ flatTransitions dfa (rs.map Range.first), t.symbol < rs.length := by
  intro t ht
  obtain ⟨-, q, hq, -⟩ := (mem_flatTransitions hwf hrs t).mp ht
  exact (List.getElem?_eq_some_iff.mp hq).1

lemma target_lt_of_mem :
    ∀ t ∈ flatTransitions dfa (rs.map Range.first), t.target < dfa.nodes.size := by
  intro t ht
  obtain ⟨hsrc, q, -, htgt⟩ := (mem_flatTransitions hwf hrs t).mp ht
  exact hwf.target_lt' hsrc htgt

end

/-- What the constructor leaves in the arrays. -/
lemma ofDFA_filled (hwf : dfa.WF) : ∃ rs st, Singular dfa dfa.nodes.size rs ∧
    Filled (flatTransitions dfa (rs.map Range.first)) (addSingularSets rs).1.sets
      (flatTransitions dfa (rs.map Range.first)).length st ∧
    (ofDFA dfa).flattenedTransitions = st.flattenedTransitions ∧
    (ofDFA dfa).transitionPartition = st.transitionPartition ∧
    (ofDFA dfa).flattenedTransitionsSizePerNode = st.sizePerNode ∧
    ∀ k < dfa.nodes.size, (ofDFA dfa).flattenedTransitionsStartOffsetPerNode.get k =
      Bucket.start (targets (flatTransitions dfa (rs.map Range.first))) k := by
  have hrs := singular_toList hwf
  have hofDFA := ofDFA.eq_1 dfa
  generalize (singularTransitions dfa).toList = rs at hrs hofDFA
  have htgt := target_lt_of_mem hwf hrs
  have hsym := symbol_lt_of_mem hwf hrs
  have hset : ∀ j < rs.length, (addSingularSets rs).1.sets.get j = _ :=
    fun j hj => sets_addSingularSets hwf hrs hj
  generalize hC : flatTransitions dfa (rs.map Range.first) = ts at *
  obtain ⟨hoff, htotal⟩ := accumulateOffsets_countIncoming htgt
  obtain ⟨-, hsize, hmk, -⟩ := addSingularSets_spec
  have hst : Filled ts (addSingularSets rs).1.sets 0
      ⟨Vec.replicate dfa.nodes.size 0,
        Vec.replicate (accumulateOffsets (countIncoming dfa.nodes.size ts)).2 0,
        Vec.replicate (addSingularSets rs).1.sets.size 0,
        (addSingularSets rs).1.reserveUninitializedCapacity
          (accumulateOffsets (countIncoming dfa.nodes.size ts)).2⟩ := by
    refine ⟨by simp, by simp, rfl, hmk, htotal, ?_, ?_, ?_, ?_⟩ <;>
      exact fun i hi => absurd hi (Nat.not_lt_zero i)
  have hfill := filled_foldl (accumulateOffsets (countIncoming dfa.nodes.size ts)).1 hst
    (fun t ht => hoff _ (htgt t ht)) (fun t ht => by rw [hset _ (hsym t ht)])
    ts.length le_rfl
  rw [take_length] at hfill
  subst hC
  rw [hofDFA]
  exact ⟨rs, _, hrs, hfill, rfl, rfl, rfl, hoff⟩

/-- The constructor flattens the transitions and partitions them by their symbol. -/
theorem ofDFA_spec (hwf : dfa.WF) : ∃ rs N target, Singular dfa dfa.nodes.size rs ∧
    FlatGraph dfa rs (ofDFA dfa) N (ofDFA dfa).transitionPartition.setIndex target ∧
    Partition.WF N (ofDFA dfa).transitionPartition [] ∧
    (ofDFA dfa).transitionPartition.setsMarkedInCurrentGeneration = [] ∧
    (ofDFA dfa).flattenedTransitions.size = N := by
  obtain ⟨rs, st, hrs, hfill, hflat, hpart, hsizes, hoff⟩ := ofDFA_filled hwf
  have hsymbol := symbol_lt_of_mem hwf hrs
  have htgt := target_lt_of_mem hwf hrs
  have hmem := mem_flatTransitions hwf hrs
  have hnd := nodup_flatTransitions hwf hrs
  have hset : ∀ j < rs.length, (addSingularSets rs).1.sets.get j = _ :=
    fun j hj => sets_addSingularSets hwf hrs hj
  have hcnt : ∀ j < rs.length,
      0 < (symbols (flatTransitions dfa (rs.map Range.first))).count j := by
    intro j hj
    have hq : rs[j]? = some rs[j] := getElem?_eq_getElem hj
    rw [symbols, count_symbol hwf hrs hq]
    exact (hrs.data_eq (getElem_mem hj)).2
  generalize flatTransitions dfa (rs.map Range.first) = ts at *
  have hlen : (targets ts).length = ts.length := length_map _
  -- the number of the transition with a flattened index
  choose! number transition hnumber using fun x (hx : x < ts.length) => exists_flatIndex hx
  have hsource : ∀ x < ts.length,
      (ofDFA dfa).flattenedTransitions.get x = (transition x).source := by
    intro x hx
    obtain ⟨hm, ht, hidx⟩ := hnumber x hx
    rw [hflat, ← hfill.source_eq _ hm _ ht, hidx]
  have hsymbol_eq : ∀ x < ts.length, st.transitionPartition.setIndex x = (transition x).symbol := by
    intro x hx
    obtain ⟨hm, ht, hidx⟩ := hnumber x hx
    rw [← hfill.setIndex_eq _ hm _ ht, hidx]
  have hmem_transition : ∀ x < ts.length, transition x ∈ ts :=
    fun x hx => mem_of_getElem? (hnumber x hx).2.1
  refine ⟨rs, ts.length, fun x => (transition x).target, hrs, ?_, ?_, ?_, ?_⟩
  · rw [hpart]
    constructor
    · intro x hx
      rw [hsource x hx]
      exact ((hmem _).mp (hmem_transition x hx)).1
    · exact fun x hx => htgt _ (hmem_transition x hx)
    · intro k hk x
      have hkey : ∀ x < ts.length, (transition x).target = k ↔
          start (targets ts) k ≤ x ∧ x < start (targets ts) (k + 1) := by
        intro x hx
        obtain ⟨hm, ht, hidx⟩ := hnumber x hx
        have hkey := key_eq_iff (k := k) (hlen.symm ▸ hm)
        rw [flatIndex] at hidx
        rwa [key_targets ht, hidx] at hkey
      rw [incomingTransitions, ← range'_eq_map_range, mem_range'_1, hoff k hk, hsizes,
        hfill.sizePerNode, ← hlen, take_length, hlen, ← start_succ]
      constructor
      · intro hx
        have hlt : x < ts.length := hx.2.trans_le (hlen ▸ start_le_length (targets ts) _)
        exact ⟨hlt, (hkey x hlt).2 hx⟩
      · exact fun hx => (hkey x hx.1).1 hx.2
    · intro x hx x' hx' hsrc hsym
      rw [hsource x hx, hsource x' hx'] at hsrc
      rw [hsymbol_eq x hx, hsymbol_eq x' hx'] at hsym
      obtain ⟨hm, ht, hidx⟩ := hnumber x hx
      obtain ⟨-, ht', hidx'⟩ := hnumber x' hx'
      have heq : number x = number x' := by
        refine (getElem?_inj (by simpa using hm) hnd).mp ?_
        rw [getElem?_map, getElem?_map, ht, ht', Option.map_some, Option.map_some, hsrc, hsym]
      rw [← hidx, ← hidx', heq]
    · intro x hx
      rw [hsymbol_eq x hx]
      exact hsymbol _ (hmem_transition x hx)
    · intro i hi j q hq k
      constructor
      · intro htar
        have hin : (⟨i, j, k⟩) ∈ ts := (hmem _).mpr ⟨hi, q, hq, htar⟩
        obtain ⟨m, hm⟩ := mem_iff_getElem?.mp hin
        have hmlt := (List.getElem?_eq_some_iff.mp hm).1
        have hx : flatIndex ts m < ts.length := place_map_lt hmlt
        obtain ⟨hm', ht, hidx⟩ := hnumber _ hx
        have hnum : number (flatIndex ts m) = m :=
          place_injective (hlen.symm ▸ hm') (hlen.symm ▸ hmlt) hidx
        rw [hnum, hm, Option.some.injEq] at ht
        exact ⟨flatIndex ts m, hx, by rw [hsource _ hx, ← ht], by
          rw [hsymbol_eq _ hx, ← ht], by rw [← ht]⟩
      · rintro ⟨x, hx, hsrc, hsym, rfl⟩
        rw [hsource x hx] at hsrc
        rw [hsymbol_eq x hx] at hsym
        obtain ⟨-, q', hq', htar⟩ := (hmem _).mp (hmem_transition x hx)
        rw [hsym, hq, Option.some.injEq] at hq'
        rw [← hsrc, hq']
        exact htar
  · rw [hpart]
    exact hfill.wf_transitionPartition addSingularSets_spec.2.1 hset hsymbol hcnt
  · rw [hpart, hfill.marked_eq]
  · rw [hflat, hfill.size_eq]

end

end FullGraphPartition

end WebKit.ContentExtensions
