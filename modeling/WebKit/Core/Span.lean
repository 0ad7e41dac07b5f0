import Mathlib

/-!
# Spans of addresses

How often the spans of a list cover an address says whether they are disjoint and what they tile.
-/

namespace WebKit.Core

open List Nat

/-- The addresses from `start` to `start + size`, without the last one. -/
structure Span where
  start : ℕ
  size : ℕ
deriving DecidableEq, Repr

namespace Span

def stop (s : Span) : ℕ := s.start + s.size

def Contains (s : Span) (x : ℕ) : Prop := s.start ≤ x ∧ x < s.stop

instance (s : Span) (x : ℕ) : Decidable (s.Contains x) := inferInstanceAs (Decidable (_ ∧ _))

def Disjoint (s t : Span) : Prop := ∀ x, s.Contains x → ¬ t.Contains x

end Span

/-- How many of the spans contain an address. -/
def cover (l : List Span) (x : ℕ) : ℕ := l.countP (·.Contains x)

variable {l l' : List Span} {s t : Span} {x : ℕ}

@[simp] lemma cover_nil : cover [] x = 0 := rfl

lemma cover_cons : cover (s :: l) x = cover [s] x + cover l x := by
  rw [cover, countP_cons, Nat.add_comm, cover, cover, countP_singleton]

lemma cover_append : cover (l ++ l') x = cover l x + cover l' x := countP_append

lemma cover_perm (h : l.Perm l') : cover l x = cover l' x := h.countP_eq _

lemma cover_singleton : cover [s] x = if s.Contains x then 1 else 0 := by
  simp [cover]

lemma cover_of_size_eq_zero (h : s.size = 0) : cover [s] x = 0 := by
  rw [cover_singleton, if_neg]
  rw [Span.Contains, Span.stop, h]
  exact fun hs => (hs.1.trans_lt hs.2).false

lemma cover_pos_iff : 0 < cover l x ↔ ∃ s ∈ l, s.Contains x := by
  simp [cover]

lemma cover_eq_zero_iff : cover l x = 0 ↔ ∀ s ∈ l, ¬ s.Contains x := by
  simp [cover]

/-- Two adjacent spans cover what the span that joins them covers. -/
lemma cover_adjacent (h : s.stop = t.start) :
    cover [⟨s.start, s.size + t.size⟩] x = cover [s] x + cover [t] x := by
  have hor : (Span.mk s.start (s.size + t.size)).Contains x ↔ s.Contains x ∨ t.Contains x := by
    simp only [Span.Contains, Span.stop] at h ⊢
    omega
  have hnot : s.Contains x → ¬ t.Contains x := by
    simp only [Span.Contains] at h ⊢
    omega
  simp only [cover_singleton, hor]
  by_cases hs : s.Contains x
  · simp [hnot hs]
  · simp [hs]

/-- A span is cut in two. -/
lemma cover_cut {k : ℕ} (h : k ≤ s.size) :
    cover [s] x = cover [⟨s.start, k⟩] x + cover [⟨s.start + k, s.size - k⟩] x := by
  have hadj : (Span.mk s.start k).stop = (Span.mk (s.start + k) (s.size - k)).start := rfl
  rw [← cover_adjacent hadj, Nat.add_sub_cancel' h]

/-- Spans are disjoint if they cover no address twice. -/
lemma pairwise_disjoint_iff : l.Pairwise Span.Disjoint ↔ ∀ x, cover l x ≤ 1 := by
  induction l with
  | nil => simp
  | cons s l ih =>
    rw [pairwise_cons, ih]
    constructor
    · rintro ⟨hs, hl⟩ x
      rw [cover_cons, cover_singleton]
      split_ifs with hx
      · have : cover l x = 0 := cover_eq_zero_iff.mpr fun t ht htx => hs t ht x hx htx
        simp [this]
      · simpa using hl x
    · intro h
      refine ⟨fun t ht x hx htx => ?_, fun x => ?_⟩
      · have hl : 0 < cover l x := cover_pos_iff.mpr ⟨t, ht, htx⟩
        have := h x
        rw [cover_cons, cover_singleton, if_pos hx] at this
        omega
      · have := h x
        rw [cover_cons] at this
        omega

/-- No other span of the list contains an address of a span if no address is covered twice. -/
lemma not_contains_of_cover_le (h : ∀ x, cover (s :: l) x ≤ 1) (ht : t ∈ l) (hs : s.Contains x) :
    ¬ t.Contains x :=
  (pairwise_cons.mp (pairwise_disjoint_iff.mpr h)).1 t ht x hs

/-! ### Maximal spans -/

/-- Spans that are not empty, disjoint, and not adjacent. -/
structure Coalesced (l : List Span) : Prop where
  size_pos : ∀ s ∈ l, 0 < s.size
  cover_le : ∀ x, cover l x ≤ 1
  stop_ne_start : ∀ s ∈ l, ∀ t ∈ l, s.stop ≠ t.start

lemma Coalesced.nil : Coalesced [] := ⟨by simp, by simp, by simp⟩

lemma Coalesced.perm (h : Coalesced l) (hperm : l.Perm l') : Coalesced l' where
  size_pos s hs := h.size_pos s (hperm.mem_iff.mpr hs)
  cover_le x := cover_perm hperm ▸ h.cover_le x
  stop_ne_start s hs t ht := h.stop_ne_start s (hperm.mem_iff.mpr hs) t (hperm.mem_iff.mpr ht)

lemma Coalesced.tail (h : Coalesced (s :: l)) : Coalesced l where
  size_pos t ht := h.size_pos t (mem_cons_of_mem s ht)
  cover_le x := by
    have hle := h.cover_le x
    rw [cover_cons] at hle
    exact (le_add_left _ _).trans hle
  stop_ne_start t ht t' ht' := h.stop_ne_start t (mem_cons_of_mem s ht) t' (mem_cons_of_mem s ht')

/-- A span without neighbors. -/
lemma Coalesced.cons (h : Coalesced l) (hsize : 0 < s.size) (hcov : ∀ x, cover (s :: l) x ≤ 1)
    (hleft : ∀ t ∈ l, t.stop ≠ s.start) (hrt : ∀ t ∈ l, s.stop ≠ t.start) : Coalesced (s :: l) where
  size_pos t ht := by
    rcases mem_cons.mp ht with rfl | ht
    · exact hsize
    · exact h.size_pos t ht
  cover_le := hcov
  stop_ne_start t ht t' ht' := by
    rcases mem_cons.mp ht with rfl | hmem
    · rcases mem_cons.mp ht' with rfl | hmem'
      · rw [Span.stop]
        omega
      · exact hrt t' hmem'
    · rcases mem_cons.mp ht' with rfl | hmem'
      · exact hleft t hmem
      · exact h.stop_ne_start t hmem t' hmem'

/-- No other span starts at an address of a span, or ends behind one. -/
lemma Coalesced.ne_of_contains (h : ∀ s ∈ l, 0 < s.size) (hcov : ∀ x, cover (s :: l) x ≤ 1)
    (ht : t ∈ l) (hs : s.Contains x) : t.start ≠ x ∧ t.stop ≠ x + 1 := by
  have hnot := not_contains_of_cover_le hcov ht hs
  have hsize := h t ht
  rw [Span.Contains, Span.stop] at hnot
  rw [Span.stop]
  omega

/-- The addresses next to a span are not covered. -/
lemma Coalesced.maximal (h : Coalesced l) (hs : s ∈ l) (ht : t ∈ l) :
    ¬ t.Contains s.stop ∧ ∀ x, x + 1 = s.start → ¬ t.Contains x := by
  have hsize := h.size_pos s hs
  have hperm := perm_cons_erase hs
  rcases mem_cons.mp (hperm.mem_iff.mp ht) with rfl | hmem
  · exact ⟨fun hx => hx.2.false, fun x hx ht => (lt_of_succ_le hx.le).not_ge ht.1⟩
  have hcons := h.perm hperm
  have hfst := not_contains_of_cover_le hcons.cover_le hmem ⟨le_rfl, Nat.lt_add_of_pos_right hsize⟩
  have hlast := not_contains_of_cover_le hcons.cover_le hmem (x := s.stop - 1)
    (by simp only [Span.Contains, Span.stop]; omega)
  have hstop := h.stop_ne_start s hs t ht
  have hst := h.stop_ne_start t ht s hs
  simp only [Span.Contains] at hfst hlast hstop hst ⊢
  refine ⟨?_, fun x hx => ?_⟩ <;> omega

/-- A span gets smaller. -/
lemma Coalesced.shrink (h : Coalesced (s :: l)) (hsize : 0 < t.size) (hst : s.start ≤ t.start)
    (hstop : t.stop ≤ s.stop) : Coalesced (t :: l) := by
  have hsub x (hx : t.Contains x) : s.Contains x := ⟨hst.trans hx.1, hx.2.trans_le hstop⟩
  have hne {u : Span} {x : ℕ} (hu : u ∈ l) (hx : s.Contains x) :=
    Coalesced.ne_of_contains h.tail.size_pos h.cover_le hu hx
  refine h.tail.cons hsize (fun x => ?_) (fun u hu => ?_) (fun u hu => ?_)
  · have hle := h.cover_le x
    rw [cover_cons, cover_singleton] at hle ⊢
    split_ifs with hx
    · rwa [if_pos (hsub x hx)] at hle
    · exact (Nat.add_le_add_right (zero_le _) _).trans hle
  · rcases hst.eq_or_lt with heq | hlt
    · exact heq ▸ h.stop_ne_start u (mem_cons_of_mem s hu) s mem_cons_self
    · have hx : s.Contains (t.start - 1) := by
        refine ⟨le_sub_one_of_lt hlt, lt_of_lt_of_le ?_ hstop⟩
        rw [Span.stop]
        omega
      have := (hne hu hx).2
      rwa [Nat.sub_add_cancel (by omega)] at this
  · rcases hstop.eq_or_lt with heq | hlt
    · exact heq ▸ h.stop_ne_start s mem_cons_self u (mem_cons_of_mem s hu)
    · refine (hne hu ⟨hst.trans ?_, hlt⟩).1.symm
      exact le_add_right _ _

/-! ### Pages -/

/-- A span has an address on a page. -/
def Span.Touches (pageSize : ℕ) (s : Span) (page : ℕ) : Prop :=
  ∃ x, s.Contains x ∧ x / pageSize = page

variable {pageSize : ℕ}

/-- The pages from the first to the last address. -/
lemma Span.touches_iff (s : Span) (page : ℕ) : s.Touches pageSize page ↔
    0 < s.size ∧ s.start / pageSize ≤ page ∧ page ≤ (s.stop - 1) / pageSize := by
  constructor
  · rintro ⟨x, ⟨hst, hstop⟩, rfl⟩
    refine ⟨?_, Nat.div_le_div_right hst, Nat.div_le_div_right (le_sub_one_of_lt hstop)⟩
    rw [Span.stop] at hstop
    omega
  · rintro ⟨hsize, hfst, hlast⟩
    have hstop : s.start ≤ s.stop - 1 ∧ s.stop - 1 < s.stop := by
      rw [Span.stop]
      omega
    rcases Nat.eq_or_lt_of_le hfst with heq | hlt
    · exact ⟨s.start, ⟨le_rfl, by rw [Span.stop]; omega⟩, heq⟩
    -- The first address of the page is in the span.
    · rcases Nat.eq_zero_or_pos pageSize with rfl | hpos
      · omega
      · refine ⟨page * pageSize, ⟨?_, ?_⟩, Nat.mul_div_cancel _ hpos⟩
        · exact ((div_lt_iff_lt_mul hpos).mp hlt).le
        · exact ((le_div_iff_mul_le hpos).mp hlast).trans_lt hstop.2

instance (pageSize : ℕ) (s : Span) (page : ℕ) : Decidable (s.Touches pageSize page) :=
  decidable_of_iff' _ (s.touches_iff page)

/-- How many of the spans touch a page. -/
def occupancy (pageSize : ℕ) (l : List Span) (page : ℕ) : ℕ :=
  l.countP (·.Touches pageSize page)

variable {page : ℕ}

lemma occupancy_cons : occupancy pageSize (s :: l) page =
    occupancy pageSize [s] page + occupancy pageSize l page := by
  rw [occupancy, countP_cons, Nat.add_comm, occupancy, occupancy, countP_singleton]

lemma occupancy_singleton : occupancy pageSize [s] page =
    if s.Touches pageSize page then 1 else 0 := by
  simp [occupancy]

lemma occupancy_perm (h : l.Perm l') :
    occupancy pageSize l page = occupancy pageSize l' page := h.countP_eq _

lemma occupancy_of_size_eq_zero {pageSize : ℕ} (h : s.size = 0) :
    occupancy pageSize [s] page = 0 := by
  rw [occupancy_singleton, if_neg]
  rw [Span.touches_iff, h]
  exact fun hs => hs.1.false

section

variable (hpageSize : 0 < pageSize) (address : ℕ)

include hpageSize address

lemma le_ceil_mul : address ≤ (address + pageSize - 1) / pageSize * pageSize := by
  have hdiv := div_add_mod' (address + pageSize - 1) pageSize
  have hmod := mod_lt (address + pageSize - 1) hpageSize
  omega

/-- The first page that starts at an address or behind it. -/
lemma ceil_div : (address + 1 + pageSize - 1) / pageSize = address / pageSize + 1 := by
  simp [add_div_right _ hpageSize]

lemma ceil_div_eq : (address + pageSize - 1) / pageSize =
      if pageSize ∣ address then address / pageSize else address / pageSize + 1 := by
  cases address with
  | zero =>
    rw [Nat.zero_add, Nat.zero_div]
    exact div_eq_of_lt (sub_lt hpageSize Nat.one_pos)
  | succ address =>
    rw [ceil_div hpageSize]
    split_ifs with h
    · rw [succ_div_of_dvd h]
    · rw [succ_div_of_not_dvd h]

end

/-- A span that is shrunk keeps the pages up to its new end, and gives up those behind it. The page
of a span that becomes empty is given up only if the span starts with the page. -/
lemma occupancy_shrink {pageSize k : ℕ} (hpageSize : 0 < pageSize) {s : Span} (hk : k < s.size)
    (page : ℕ) : occupancy pageSize [s] page = occupancy pageSize [⟨s.start, k⟩] page +
      (if (s.start + k + pageSize - 1) / pageSize * pageSize < s.stop then
        occupancy pageSize [⟨(s.start + k + pageSize - 1) / pageSize * pageSize,
          s.stop - (s.start + k + pageSize - 1) / pageSize * pageSize⟩] page else 0) +
      (if k = 0 ∧ ¬ pageSize ∣ s.start ∧ page = s.start / pageSize then 1 else 0) := by
  generalize hfst : (s.start + k + pageSize - 1) / pageSize = first
  have hlt : first * pageSize < s.stop ↔ first ≤ (s.stop - 1) / pageSize := by
    rw [le_div_iff_mul_le hpageSize, Span.stop]
    omega
  have hrest : first * pageSize < s.stop → ((Span.mk (first * pageSize)
      (s.stop - first * pageSize)).Touches pageSize page ↔
        first ≤ page ∧ page ≤ (s.stop - 1) / pageSize) := by
    intro h
    have hstop : (Span.mk (first * pageSize) (s.stop - first * pageSize)).stop = s.stop :=
      Nat.add_sub_cancel' h.le
    rw [Span.touches_iff, hstop, Nat.mul_div_cancel _ hpageSize]
    exact and_iff_right (Nat.sub_pos_of_lt h)
  have hle : s.start / pageSize ≤ (s.stop - 1) / pageSize :=
    Nat.div_le_div_right (by rw [Span.stop]; omega)
  have hs : s.Touches pageSize page ↔
      s.start / pageSize ≤ page ∧ page ≤ (s.stop - 1) / pageSize := by
    rw [Span.touches_iff]
    exact and_iff_right (by omega)
  have hsnd : (if first * pageSize < s.stop then occupancy pageSize
      [⟨first * pageSize, s.stop - first * pageSize⟩] page else 0) =
        if first ≤ page ∧ page ≤ (s.stop - 1) / pageSize then 1 else 0 := by
    by_cases h : first * pageSize < s.stop
    · rw [if_pos h, occupancy_singleton]
      simp only [hrest h]
    · rw [if_neg h, if_neg (by omega)]
  rw [hsnd, occupancy_singleton, occupancy_singleton]
  simp only [hs, Span.touches_iff (Span.mk s.start k)]
  -- the page of the start is left to no part if nothing is kept and it starts before the span
  cases k with
  | zero =>
    rw [Nat.add_zero, ceil_div_eq hpageSize] at hfst
    by_cases hdvd : pageSize ∣ s.start
    · rw [if_pos hdvd] at hfst
      simp [hdvd, hfst]
    · rw [if_neg hdvd] at hfst
      split_ifs <;> omega
  | succ k =>
    rw [← Nat.add_assoc, ceil_div hpageSize] at hfst
    have hkept : (Span.mk s.start (k + 1)).stop - 1 = s.start + k := rfl
    have hfst' : s.start / pageSize ≤ (s.start + k) / pageSize :=
      Nat.div_le_div_right (le_add_right _ _)
    have hlast : (s.start + k) / pageSize ≤ (s.stop - 1) / pageSize :=
      Nat.div_le_div_right (by rw [Span.stop]; omega)
    simp only [hkept, succ_ne_zero, false_and, if_false]
    split_ifs <;> omega

end WebKit.Core
