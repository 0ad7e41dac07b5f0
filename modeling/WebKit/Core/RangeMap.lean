import Mathlib

/-!
# Sorted lists of ranges

A partial map from natural numbers to data is kept as a list of closed ranges, sorted and
pairwise disjoint, each with one value. `merge` combines two such lists range by range. It is
the range-wise form of the pointwise combination of the two partial maps (`lookup_merge`).
-/

namespace RangeMap

open List

variable {δ ο : Type*}

/-- A closed range `[first, last]` with the data attached to every point of it. -/
structure Range (δ : Type*) where
  first : ℕ
  last : ℕ
  data : δ
deriving Repr, DecidableEq

/-- The data of the first range of the list that contains `c`. -/
def lookup : List (Range δ) → ℕ → Option δ
  | [], _ => none
  | r :: rs, c => if r.first ≤ c ∧ c ≤ r.last then some r.data else lookup rs c

/-- Every range is non-empty and ends before the next one starts. -/
def Sorted : List (Range δ) → Prop
  | [] => True
  | r :: rs => r.first ≤ r.last ∧ (∀ s ∈ rs, r.last < s.first) ∧ Sorted rs

@[simp] lemma lookup_nil (c : ℕ) : lookup ([] : List (Range δ)) c = none := rfl

variable (f : δ → ε) (r : Range δ) (rs : List (Range δ))

lemma lookup_cons (c : ℕ) :
    lookup (r :: rs) c = if r.first ≤ c ∧ c ≤ r.last then some r.data else lookup rs c := rfl

@[simp] lemma sorted_nil : Sorted ([] : List (Range δ)) := trivial

@[simp] lemma sorted_cons :
    Sorted (r :: rs) ↔ r.first ≤ r.last ∧ (∀ s ∈ rs, r.last < s.first) ∧ Sorted rs := Iff.rfl

instance decidableSorted : (rs : List (Range δ)) → Decidable (Sorted rs)
  | [] => .isTrue trivial
  | _ :: rs => @instDecidableAnd _ _ _ (@instDecidableAnd _ _ _ (decidableSorted rs))

variable {rs : List (Range δ)} {c : ℕ}

/-- Below the first point of every range nothing is found. -/
lemma lookup_eq_none (h : ∀ r ∈ rs, c < r.first) : lookup rs c = none := by
  induction rs with
  | nil => rfl
  | cons r rs ih =>
    have hr := h r (mem_cons_self)
    rw [lookup_cons, if_neg (by omega)]
    exact ih fun s hs => h s (mem_cons_of_mem _ hs)

variable {r : Range δ}

/-- Up to the end of the first range of a sorted list the other ranges are of no use. -/
lemma lookup_tail_eq_none (h : Sorted (r :: rs)) (hc : c ≤ r.last) : lookup rs c = none :=
  lookup_eq_none fun s hs => hc.trans_lt (h.2.1 s hs)

/-- What is found lies in some range of the list. -/
lemma lookup_eq_some {d : δ} (h : lookup rs c = some d) :
    ∃ r ∈ rs, r.first ≤ c ∧ c ≤ r.last ∧ r.data = d := by
  induction rs with
  | nil => simp at h
  | cons r rs ih =>
    rw [lookup_cons] at h
    split_ifs at h with hc
    · exact ⟨r, mem_cons_self, hc.1, hc.2, by simpa using h⟩
    · obtain ⟨s, hs, hs'⟩ := ih h
      exact ⟨s, mem_cons_of_mem _ hs, hs'⟩

/-- In a sorted list every range is found at each of its points. -/
lemma lookup_of_mem (hs : Sorted rs) (hr : r ∈ rs)
    (h₁ : r.first ≤ c) (h₂ : c ≤ r.last) : lookup rs c = some r.data := by
  induction rs with
  | nil => simp at hr
  | cons s rs ih =>
    rw [lookup_cons]
    rcases mem_cons.mp hr with rfl | hr
    · rw [if_pos ⟨h₁, h₂⟩]
    · have := hs.2.1 r hr
      rw [if_neg (by omega), ih hs.2.2 hr]

lemma Sorted.first_le_last (hs : Sorted rs) (hr : r ∈ rs) : r.first ≤ r.last := by
  induction rs with
  | nil => simp at hr
  | cons s rs ih =>
    rcases mem_cons.mp hr with rfl | hr
    · exact hs.1
    · exact ih hs.2.2 hr

/-- There are no more ranges than points they can contain. -/
lemma Sorted.length_le (hs : Sorted rs) {a b : ℕ}
    (ha : ∀ r ∈ rs, a ≤ r.first) (hb : ∀ r ∈ rs, r.last ≤ b) : rs.length ≤ b + 1 - a := by
  induction rs generalizing a with
  | nil => simp
  | cons r rs ih =>
    have hlen := ih hs.2.2 (fun s hmem => hs.2.1 s hmem) fun s hmem => hb s (mem_cons_of_mem _ hmem)
    have hfst := ha r mem_cons_self
    have hlast := hb r mem_cons_self
    have hle := hs.1
    rw [length_cons]
    omega

/-- Applying a function to the data of every range. -/
def Range.map {ε : Type*} (f : δ → ε) (r : Range δ) : Range ε := ⟨r.first, r.last, f r.data⟩

variable {ε : Type*}

@[simp] lemma Range.map_first : (r.map f).first = r.first := rfl

@[simp] lemma Range.map_last : (r.map f).last = r.last := rfl

@[simp] lemma Range.map_data : (r.map f).data = f r.data := rfl

lemma lookup_map (c : ℕ) : lookup (rs.map (Range.map f)) c = (lookup rs c).map f := by
  induction rs with
  | nil => rfl
  | cons r rs ih =>
    simp only [map_cons, lookup_cons, Range.map_first, Range.map_last, ih]
    split_ifs <;> rfl

lemma sorted_map (hs : Sorted rs) : Sorted (rs.map (Range.map f)) := by
  induction rs with
  | nil => trivial
  | cons r rs ih =>
    refine ⟨hs.1, ?_, ih hs.2.2⟩
    intro s hmem
    obtain ⟨s', hs', rfl⟩ := mem_map.mp hmem
    exact hs.2.1 s' hs'

/-! ### Merging -/

/-- How the data of a second list enters a first one: `convert` where the first list has no
data, `extend` where it has. -/
structure Converter (ο δ : Type*) where
  convert : ο → δ
  extend : δ → ο → δ

/-- The pointwise meaning of merging. -/
def Converter.combine (conv : Converter ο δ) : Option δ → Option ο → Option δ
  | d, none => d
  | none, some o => some (conv.convert o)
  | some d, some o => some (conv.extend d o)

@[simp] lemma Converter.combine_none (conv : Converter ο δ) (d : Option δ) :
    conv.combine d none = d := by cases d <;> rfl

@[simp] lemma Converter.none_combine (conv : Converter ο δ) (o : Option ο) :
    conv.combine none o = o.map conv.convert := by cases o <;> rfl

@[simp] lemma Converter.some_combine_some (conv : Converter ο δ) (d : δ) (o : ο) :
    conv.combine (some d) (some o) = some (conv.extend d o) := rfl

/-- The part of two overlapping ranges before the later of their starts. -/
def leftPart (conv : Converter ο δ) (s : Range δ) (o : Range ο) : List (Range δ) :=
  if s.first < o.first then [⟨s.first, o.first - 1, s.data⟩]
  else if o.first < s.first then [⟨o.first, s.first - 1, conv.convert o.data⟩]
  else []

/-- Merge a sorted list of ranges into another one. -/
def merge (conv : Converter ο δ) : List (Range δ) → List (Range ο) → List (Range δ)
  | [], os => os.map (Range.map conv.convert)
  | s :: ss, [] => s :: ss
  | s :: ss, o :: os =>
    if s.last < o.first then s :: merge conv ss (o :: os)
    else if o.last < s.first then o.map conv.convert :: merge conv (s :: ss) os
    else if s.last = o.last then
      leftPart conv s o ++
        ⟨max s.first o.first, s.last, conv.extend s.data o.data⟩ :: merge conv ss os
    else if o.last < s.last then
      leftPart conv s o ++
        ⟨max s.first o.first, o.last, conv.extend s.data o.data⟩ ::
          merge conv (⟨o.last + 1, s.last, s.data⟩ :: ss) os
    else
      leftPart conv s o ++
        ⟨max s.first o.first, s.last, conv.extend s.data o.data⟩ ::
          merge conv ss (⟨s.last + 1, o.last, o.data⟩ :: os)
termination_by ss os => ss.length + os.length

/-- What is left of a list with the first range `r` after the point `e`. -/
def rest (e : ℕ) (r : Range δ) (rs : List (Range δ)) : List (Range δ) :=
  if e < r.last then ⟨e + 1, r.last, r.data⟩ :: rs else rs

section

variable (conv : Converter ο δ) {s : Range δ} {ss : List (Range δ)} {o : Range ο}
  {os : List (Range ο)}

/-- Two overlapping ranges are merged up to the earlier of their ends. -/
lemma merge_overlap (h₁ : o.first ≤ s.last) (h₂ : s.first ≤ o.last) :
    merge conv (s :: ss) (o :: os) = leftPart conv s o ++
      ⟨max s.first o.first, min s.last o.last, conv.extend s.data o.data⟩ ::
        merge conv (rest o.last s ss) (rest s.last o os) := by
  rw [merge, if_neg h₁.not_gt, if_neg h₂.not_gt]
  rcases lt_trichotomy s.last o.last with h | h | h
  · simp [rest, h, h.ne, h.not_gt, h.le]
  · simp [rest, h]
  · simp [rest, h, h.ne', h.not_gt, h.le]

/-- Induction over the ranges that `merge` takes. -/
lemma merge_induction (conv : Converter ο δ) {P : List (Range δ) → List (Range ο) → Prop}
    (nil : ∀ os, P [] os) (nil_right : ∀ s ss, P (s :: ss) [])
    (left : ∀ s ss o os, s.last < o.first → P ss (o :: os) → P (s :: ss) (o :: os))
    (right : ∀ s ss o os, o.last < s.first → P (s :: ss) os → P (s :: ss) (o :: os))
    (overlap : ∀ s ss o os, o.first ≤ s.last → s.first ≤ o.last →
      P (rest o.last s ss) (rest s.last o os) → P (s :: ss) (o :: os))
    (ss : List (Range δ)) (os : List (Range ο)) : P ss os := by
  fun_induction merge conv ss os with
  | case1 os => exact nil os
  | case2 s ss => exact nil_right s ss
  | case3 s ss o os h ih => exact left s ss o os h ih
  | case4 s ss o os h₁ h₂ ih => exact right s ss o os h₂ ih
  | case5 s ss o os h₁ h₂ h₃ ih =>
    exact overlap s ss o os (not_lt.mp h₁) (not_lt.mp h₂) (by simpa [rest, h₃] using ih)
  | case6 s ss o os h₁ h₂ h₃ h₄ ih =>
    exact overlap s ss o os (not_lt.mp h₁) (not_lt.mp h₂) (by simpa [rest, h₄, h₄.not_gt] using ih)
  | case7 s ss o os h₁ h₂ h₃ h₄ ih =>
    have hlt : s.last < o.last := Nat.lt_of_le_of_ne (not_lt.mp h₄) h₃
    exact overlap s ss o os (not_lt.mp h₁) (not_lt.mp h₂) (by simpa [rest, h₄, hlt] using ih)

lemma sorted_rest (h : Sorted (s :: ss)) (e : ℕ) :
    Sorted (rest e s ss) ∧ ∀ r ∈ rest e s ss, min e s.last < r.first := by
  obtain ⟨hle, hlt, hss⟩ := h
  unfold rest
  split_ifs with he
  · refine ⟨⟨he, hlt, hss⟩, forall_mem_cons.mpr ⟨?_, fun r hr => ?_⟩⟩
    · simp only
      omega
    · have := hlt r hr
      omega
  · exact ⟨hss, fun r hr => (min_le_right _ _).trans_lt (hlt r hr)⟩

lemma lookup_rest (h : Sorted (s :: ss)) {e : ℕ} (he : s.first ≤ e) (c : ℕ) :
    lookup (rest e s ss) c = if c ≤ min e s.last then none else lookup (s :: ss) c := by
  split_ifs with hc
  · exact lookup_eq_none fun r hr => hc.trans_lt ((sorted_rest h e).2 r hr)
  · rw [rest, lookup_cons]
    split_ifs with h₁ h₂ h₂ <;> first | rw [lookup_cons] | skip
    · rw [if_pos ⟨by simp only; omega, h₂.2⟩]
    · rw [if_neg (by simp only; omega)]
    · omega
    · rfl

variable (ss os) in
/-- The left part covers exactly the points of the two ranges before their later start. -/
lemma lookup_leftPart_append (s : Range δ) (o : Range ο) (rs : List (Range δ)) (c : ℕ) :
    lookup (leftPart conv s o ++ rs) c =
      if c < max s.first o.first then
        if s.first ≤ c then some s.data
        else if o.first ≤ c then some (conv.convert o.data)
        else lookup rs c
      else lookup rs c := by
  unfold leftPart
  split_ifs <;> simp only [cons_append, nil_append, lookup_cons] <;> grind

/-- Merging is the pointwise combination of the two partial maps. -/
theorem lookup_merge (ss : List (Range δ)) (os : List (Range ο)) (hss : Sorted ss) (hos : Sorted os)
    (c : ℕ) : lookup (merge conv ss os) c = conv.combine (lookup ss c) (lookup os c) := by
  induction ss, os using merge_induction conv with
  | nil os => simp [merge, lookup_map]
  | nil_right s ss => simp [merge]
  | left s ss o os h ih =>
    rw [merge, if_pos h, lookup_cons, ih hss.2.2 hos, lookup_cons s]
    split_ifs with hc
    · have hnone : lookup os c = none := lookup_tail_eq_none hos (by have := hos.1; omega)
      rw [lookup_cons, if_neg (by omega), hnone, conv.combine_none]
    · rfl
  | right s ss o os h ih =>
    have hle := hss.1
    rw [merge, if_neg (by have := hos.1; omega), if_pos h, lookup_cons (o.map _), ih hss hos.2.2,
      lookup_cons o]
    by_cases hc : o.first ≤ c ∧ c ≤ o.last
    · have hnone : lookup (s :: ss) c = none :=
        lookup_eq_none (forall_mem_cons.mpr ⟨by omega, fun r hr => by
          have := hss.2.1 r hr
          omega⟩)
      simp [hc, hnone]
    · simp [hc]
  | overlap s ss o os h₁ h₂ ih =>
    rw [merge_overlap conv h₁ h₂, lookup_leftPart_append, lookup_cons, ih (sorted_rest hss _).1
      (sorted_rest hos _).1, lookup_rest hss h₂, lookup_rest hos h₁, lookup_cons s, lookup_cons o]
    have h₅ := hss.1
    have h₆ := hos.1
    have hs := fun h => lookup_tail_eq_none (c := c) hss h
    have ho := fun h => lookup_tail_eq_none (c := c) hos h
    grind [Converter.combine]

/-- Merging does not reach below a bound that both lists respect. -/
lemma le_first_of_mem_merge (b : ℕ) (ss : List (Range δ)) (os : List (Range ο)) (hss : Sorted ss)
    (hos : Sorted os) (hs : ∀ s ∈ ss, b ≤ s.first) (ho : ∀ o ∈ os, b ≤ o.first) :
    ∀ r ∈ merge conv ss os, b ≤ r.first := by
  induction ss, os using merge_induction conv with
  | nil os => simpa [merge] using ho
  | nil_right s ss => simpa [merge] using hs
  | left s ss o os h ih =>
    rw [merge, if_pos h]
    simp only [forall_mem_cons] at hs ⊢
    exact ⟨hs.1, ih hss.2.2 hos hs.2 ho⟩
  | right s ss o os h ih =>
    rw [merge, if_neg (by have := hos.1; have := hss.1; omega), if_pos h]
    simp only [forall_mem_cons] at ho ⊢
    exact ⟨ho.1, ih hss hos.2.2 hs ho.2⟩
  | overlap s ss o os h₁ h₂ ih =>
    obtain ⟨hss', hs'⟩ := sorted_rest hss o.last
    obtain ⟨hos', ho'⟩ := sorted_rest hos s.last
    rw [merge_overlap conv h₁ h₂]
    simp only [leftPart]
    grind

section

variable (hss : Sorted (s :: ss)) (hos : Sorted (o :: os))

include hss hos

/-- Merging the ranges after one that ends first. -/
lemma le_first_of_mem_left (h : s.last < o.first) :
    (∀ r ∈ o :: os, s.last < r.first) ∧ ∀ r ∈ merge conv ss (o :: os), s.last < r.first := by
  have hbound : ∀ r ∈ o :: os, s.last < r.first :=
    forall_mem_cons.mpr ⟨h, fun r hr => by have := hos.1; have := hos.2.1 r hr; omega⟩
  exact ⟨hbound, le_first_of_mem_merge conv (s.last + 1) ss _ hss.2.2 hos hss.2.1 hbound⟩

lemma le_first_of_mem_right (h : o.last < s.first) :
    (∀ r ∈ s :: ss, o.last < r.first) ∧ ∀ r ∈ merge conv (s :: ss) os, o.last < r.first := by
  have hbound : ∀ r ∈ s :: ss, o.last < r.first :=
    forall_mem_cons.mpr ⟨h, fun r hr => by have := hss.1; have := hss.2.1 r hr; omega⟩
  exact ⟨hbound, le_first_of_mem_merge conv (o.last + 1) _ os hss hos.2.2 hbound hos.2.1⟩

lemma lt_first_of_mem_rest :
    ∀ r ∈ merge conv (rest o.last s ss) (rest s.last o os), min s.last o.last < r.first := by
  obtain ⟨hss', hs'⟩ := sorted_rest hss o.last
  obtain ⟨hos', ho'⟩ := sorted_rest hos s.last
  exact le_first_of_mem_merge conv (min s.last o.last + 1) _ _ hss' hos'
    (fun r hr => min_comm s.last _ ▸ hs' r hr) ho'

end

lemma sorted_leftPart_append {rs : List (Range δ)} (hrs : Sorted rs)
    (h : ∀ r ∈ rs, max s.first o.first ≤ r.first) : Sorted (leftPart conv s o ++ rs) := by
  unfold leftPart
  split_ifs <;> simp <;> grind

theorem sorted_merge (ss : List (Range δ)) (os : List (Range ο)) (hss : Sorted ss)
    (hos : Sorted os) : Sorted (merge conv ss os) := by
  induction ss, os using merge_induction conv with
  | nil os => simpa [merge] using sorted_map _ hos
  | nil_right s ss => simpa [merge] using hss
  | left s ss o os h ih =>
    rw [merge, if_pos h]
    exact ⟨hss.1, (le_first_of_mem_left conv hss hos h).2, ih hss.2.2 hos⟩
  | right s ss o os h ih =>
    rw [merge, if_neg (by have := hos.1; have := hss.1; omega), if_pos h]
    exact ⟨hos.1, (le_first_of_mem_right conv hss hos h).2, ih hss hos.2.2⟩
  | overlap s ss o os h₁ h₂ ih =>
    have hmem := lt_first_of_mem_rest conv hss hos
    have hle : max s.first o.first ≤ min s.last o.last := max_le (le_min hss.1 h₂) (le_min h₁ hos.1)
    rw [merge_overlap conv h₁ h₂]
    refine sorted_leftPart_append conv ⟨hle, hmem, ih (sorted_rest hss _).1 (sorted_rest hos _).1⟩
      (forall_mem_cons.mpr ⟨le_rfl, fun r hr => hle.trans (hmem r hr).le⟩)

end

/-- Merging does not reach above a bound that both lists respect. -/
lemma last_le_of_mem_merge (conv : Converter ο δ) (b : ℕ) (ss : List (Range δ))
    (os : List (Range ο)) (hss : Sorted ss) (hos : Sorted os) (hs : ∀ s ∈ ss, s.last ≤ b)
    (ho : ∀ o ∈ os, o.last ≤ b) : ∀ r ∈ merge conv ss os, r.last ≤ b := by
  intro r hr
  have hsort := sorted_merge conv ss os hss hos
  have hlook := lookup_of_mem hsort hr (hsort.first_le_last hr) le_rfl
  rw [lookup_merge conv ss os hss hos] at hlook
  cases hls : lookup ss r.last with
  | some d =>
    obtain ⟨s, hmem, -, hle, -⟩ := lookup_eq_some hls
    exact hle.trans (hs s hmem)
  | none =>
    cases hlo : lookup os r.last with
    | some e =>
      obtain ⟨o, hmem, -, hle, -⟩ := lookup_eq_some hlo
      exact hle.trans (ho o hmem)
    | none => simp [hls, hlo] at hlook

/-! ### Alignment -/

/-- A range that lies inside another one, or has no point in common with it. -/
def AlignedWith (q : Range δ) (r : Range ο) : Prop :=
  (r.first ≤ q.first ∧ q.last ≤ r.last) ∨ q.last < r.first ∨ r.last < q.first

lemma Sorted.alignedWith (hs : Sorted rs) : ∀ q ∈ rs, ∀ r ∈ rs, AlignedWith q r := by
  induction rs with
  | nil => simp
  | cons r rs ih =>
    intro q hq t ht
    rcases mem_cons.mp hq with rfl | hq' <;> rcases mem_cons.mp ht with rfl | ht'
    · exact .inl ⟨le_rfl, le_rfl⟩
    · exact .inr (.inl (hs.2.1 t ht'))
    · exact .inr (.inr (hs.2.1 q hq'))
    · exact ih hs.2.2 q hq' t ht'

/-- The ranges of the left part of two overlapping ranges are aligned with both. -/
lemma alignedWith_of_mem_leftPart (conv : Converter ο δ) {s : Range δ}
    (h₁ : o.first ≤ s.last) (h₂ : s.first ≤ o.last) :
    ∀ q ∈ leftPart conv s o, AlignedWith q s ∧ AlignedWith q o ∧ q.last < max s.first o.first := by
  intro q hq
  unfold leftPart at hq
  split_ifs at hq with h₃ h₄
  · obtain rfl := mem_singleton.mp hq
    refine ⟨.inl ⟨le_rfl, ?_⟩, .inr (.inl ?_), ?_⟩ <;> simp only <;> omega
  · obtain rfl := mem_singleton.mp hq
    refine ⟨.inr (.inl ?_), .inl ⟨le_rfl, ?_⟩, ?_⟩ <;> simp only <;> omega
  · simp at hq

variable {rs : List (Range ο)}

lemma AlignedWith.of_last_lt {q : Range δ} {b : ℕ} (hq : q.last ≤ b)
    (hb : ∀ r ∈ rs, b < r.first) : ∀ r ∈ rs, AlignedWith q r :=
  fun r hr => .inr (.inl (hq.trans_lt (hb r hr)))

variable {ss : List (Range δ)} {os : List (Range ο)}

/-- Being aligned with what is left of a list is being aligned with its ranges, past the cut. -/
lemma AlignedWith.of_rest {q : Range δ} {r : Range ο} {e : ℕ}
    (hr : r.first ≤ e) (hq : min e r.last < q.first) (h : ∀ t ∈ rest e r rs, AlignedWith q t) :
    ∀ t ∈ r :: rs, AlignedWith q t := by
  unfold rest at h
  split_ifs at h with he
  · rw [forall_mem_cons] at h ⊢
    refine ⟨?_, h.2⟩
    have := h.1
    unfold AlignedWith at this ⊢
    simp only at this
    omega
  · exact forall_mem_cons.mpr ⟨.inr (.inr (by omega)), h⟩

/-- Merging cuts at every end of a range. -/
lemma alignedWith_of_mem_merge (conv : Converter ο δ) (ss : List (Range δ)) (os : List (Range ο))
    (hss : Sorted ss) (hos : Sorted os) :
    ∀ q ∈ merge conv ss os, (∀ s ∈ ss, AlignedWith q s) ∧ ∀ o ∈ os, AlignedWith q o := by
  induction ss, os using merge_induction conv with
  | nil os =>
    intro q hq
    rw [merge] at hq
    obtain ⟨o, ho, rfl⟩ := mem_map.mp hq
    exact ⟨by simp, hos.alignedWith o ho⟩
  | nil_right s ss =>
    rw [merge]
    exact fun q hq => ⟨hss.alignedWith q hq, by simp⟩
  | left s ss o os h ih =>
    obtain ⟨hbound, hfst⟩ := le_first_of_mem_left conv hss hos h
    rw [merge, if_pos h]
    refine forall_mem_cons.mpr ⟨?_, fun q hq => ?_⟩
    · exact ⟨hss.alignedWith s mem_cons_self, AlignedWith.of_last_lt le_rfl hbound⟩
    · obtain ⟨hs, ho⟩ := ih hss.2.2 hos q hq
      exact ⟨forall_mem_cons.mpr ⟨.inr (.inr (hfst q hq)), hs⟩, ho⟩
  | right s ss o os h ih =>
    obtain ⟨hbound, hfst⟩ := le_first_of_mem_right conv hss hos h
    rw [merge, if_neg (by have := hos.1; have := hss.1; omega), if_pos h]
    refine forall_mem_cons.mpr ⟨?_, fun q hq => ?_⟩
    · exact ⟨AlignedWith.of_last_lt le_rfl hbound, hos.alignedWith o mem_cons_self⟩
    · obtain ⟨hs, ho⟩ := ih hss hos.2.2 q hq
      exact ⟨hs, forall_mem_cons.mpr ⟨.inr (.inr (hfst q hq)), ho⟩⟩
  | overlap s ss o os h₁ h₂ ih =>
    have hfst := lt_first_of_mem_rest conv hss hos
    have hls := hss.1
    have hlo := hos.1
    rw [merge_overlap conv h₁ h₂, forall_mem_append, forall_mem_cons]
    refine ⟨fun q hq => ?_, ⟨?_, ?_⟩, fun q hq => ?_⟩
    · obtain ⟨hs, ho, hlast⟩ := alignedWith_of_mem_leftPart conv h₁ h₂ q hq
      exact ⟨forall_mem_cons.mpr ⟨hs, .of_last_lt (by omega) hss.2.1⟩,
        forall_mem_cons.mpr ⟨ho, .of_last_lt (by omega) hos.2.1⟩⟩
    · exact forall_mem_cons.mpr ⟨.inl ⟨le_max_left _ _, min_le_left _ _⟩,
        .of_last_lt (min_le_left _ _) hss.2.1⟩
    · exact forall_mem_cons.mpr ⟨.inl ⟨le_max_right _ _, min_le_right _ _⟩,
        .of_last_lt (min_le_right _ _) hos.2.1⟩
    · obtain ⟨hs, ho⟩ := ih (sorted_rest hss _).1 (sorted_rest hos _).1 q hq
      have hlt := hfst q hq
      exact ⟨.of_rest h₂ (by omega) hs, .of_rest h₁ (by omega) ho⟩

/-- A list that covers a range and whose ranges are all aligned with it. -/
def Subdivides (rs : List (Range δ)) (r : Range ο) : Prop :=
  (∀ q ∈ rs, AlignedWith q r) ∧ ∀ c, r.first ≤ c → c ≤ r.last → (lookup rs c).isSome

/-- A range of a list that subdivides another range starts where that range starts. -/
lemma Subdivides.exists_first {r : Range ο} (h : Subdivides rs r)
    (hr : r.first ≤ r.last) : ∃ q ∈ rs, q.first = r.first := by
  obtain ⟨d, hd⟩ := Option.isSome_iff_exists.mp (h.2 r.first le_rfl hr)
  obtain ⟨q, hq, hfst, hlast, -⟩ := lookup_eq_some hd
  refine ⟨q, hq, ?_⟩
  have halig := h.1 q hq
  unfold AlignedWith at halig
  omega

section

variable (conv : Converter ο δ) (hss : Sorted ss) (hos : Sorted os)

include conv hss hos

lemma isSome_lookup_merge (c : ℕ) :
    (lookup (merge conv ss os) c).isSome ↔ (lookup ss c).isSome ∨ (lookup os c).isSome := by
  rw [lookup_merge conv ss os hss hos]
  cases lookup ss c <;> cases lookup os c <;> simp

/-- Merging another list keeps the subdivision of a range. -/
lemma Subdivides.merge {r : Range ε}
    (hr : r.first ≤ r.last) (h : Subdivides ss r) : Subdivides (merge conv ss os) r := by
  have hsort := sorted_merge conv ss os hss hos
  refine ⟨fun q hq => ?_, fun c h₁ h₂ => ?_⟩
  · have hle := hsort.first_le_last hq
    obtain ⟨hs, -⟩ := alignedWith_of_mem_merge conv ss os hss hos q hq
    by_contra hnot
    -- then the merged range has a point in `r`, so it lies in a range of the first list
    obtain ⟨c, hc⟩ : ∃ c, r.first ≤ c ∧ c ≤ r.last ∧ q.first ≤ c ∧ c ≤ q.last := by
      unfold AlignedWith at hnot
      refine ⟨max r.first q.first, ?_⟩
      omega
    obtain ⟨d, hd⟩ := Option.isSome_iff_exists.mp (h.2 c hc.1 hc.2.1)
    obtain ⟨t, ht, h₁, h₂, -⟩ := lookup_eq_some hd
    have hqt := hs t ht
    have htr := h.1 t ht
    unfold AlignedWith at hnot hqt htr
    omega
  · rw [isSome_lookup_merge conv hss hos]
    exact .inl (h.2 c h₁ h₂)

lemma subdivides_merge_right (ho : o ∈ os) : Subdivides (merge conv ss os) o := by
  refine ⟨fun q hq => (alignedWith_of_mem_merge conv ss os hss hos q hq).2 o ho, ?_⟩
  intro c h₁ h₂
  rw [isSome_lookup_merge conv hss hos, lookup_of_mem hos ho h₁ h₂]
  exact .inr rfl

end

end RangeMap
