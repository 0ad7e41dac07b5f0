import Mathlib

/-!
# The back/forward list of a page

`WebBackForwardList` holds the entries of a page's history and the index of the current one. It is
saved without the entries that a filter drops.
-/

namespace WebKit.UIProcess

/-- An item and its state. Items are compared by address. -/
structure WebBackForwardListItem (σ : Type*) where
  address : ℕ
  itemState : σ
  deriving DecidableEq

/-- What is saved of a list. -/
structure BackForwardListState (σ : Type*) where
  items : List σ
  currentIndex : Option ℕ

structure WebBackForwardList (σ : Type*) where
  entries : List (WebBackForwardListItem σ)
  hasCurrentIndex : Bool
  currentIndex : ℕ

namespace WebBackForwardList

variable {σ : Type*}

/-! ### Saving a filtered list -/

section

variable (pass : WebBackForwardListItem σ → Bool) (entries : List (WebBackForwardListItem σ))

/-- The loop of `backForwardListState` over the entries from index `i` on. -/
def saveEntries : List (WebBackForwardListItem σ) → ℕ → BackForwardListState σ →
    BackForwardListState σ
  | [], _, state => state
  | entry :: entries, i, state =>
    if pass entry then
      saveEntries entries (i + 1) { state with items := state.items ++ [entry.itemState] }
    else
      saveEntries entries (i + 1) { state with
        currentIndex := state.currentIndex.map fun c => if i ≤ c ∧ c ≠ 0 then c - 1 else c }

/-- The state of the entries that pass the filter; without a filter, all pass. It is undefined if
some do and there is no current index. -/
def backForwardListState (l : WebBackForwardList σ) : Option (BackForwardListState σ) :=
  let state := saveEntries pass l.entries 0
    ⟨[], if l.hasCurrentIndex then some l.currentIndex else none⟩
  if state.items.isEmpty then some { state with currentIndex := none }
  else state.currentIndex.map fun c => { state with
    currentIndex := some (if state.items.length ≤ c then state.items.length - 1 else c) }

/-- How the loop lowers the index `c`. -/
def lowerIndex : List (WebBackForwardListItem σ) → ℕ → ℕ → ℕ
  | [], _, c => c
  | entry :: entries, i, c =>
    lowerIndex entries (i + 1) (if pass entry = false ∧ i ≤ c ∧ c ≠ 0 then c - 1 else c)

lemma saveEntries_eq (i : ℕ) (state : BackForwardListState σ) :
    saveEntries pass entries i state = ⟨state.items ++ (entries.filter pass).map (·.itemState),
      state.currentIndex.map (lowerIndex pass entries i)⟩ := by
  induction entries generalizing i state with
  | nil => simp [saveEntries, lowerIndex]
  | cons entry entries ih =>
    rw [saveEntries]
    cases h : pass entry <;> simp [ih, h, lowerIndex, Function.comp_def]

lemma lowerIndex_eq_self {i c : ℕ} (h : c < i ∨ c = 0) : lowerIndex pass entries i c = c := by
  induction entries generalizing i with
  | nil => rfl
  | cons entry entries ih =>
    rw [lowerIndex, if_neg (by omega)]
    exact ih (by omega)

/-- The entries before the index `i` that the filter drops. -/
def droppedBefore (i : ℕ) : ℕ := (entries.take i).countP (!pass ·)

@[simp] lemma droppedBefore_zero : droppedBefore pass entries 0 = 0 := rfl

@[simp] lemma droppedBefore_cons_succ (entry : WebBackForwardListItem σ) (i : ℕ) :
    droppedBefore pass (entry :: entries) (i + 1) =
      droppedBefore pass entries i + if pass entry then 0 else 1 := by
  cases h : pass entry <;> simp [droppedBefore, h]

/-- Each dropped entry up to the index `c` still is at or before the index that is lowered for the
dropped entries before it, unless that is zero. -/
def Tracks (c : ℕ) : Prop :=
  ∀ i ≤ c, ∀ entry ∈ entries[i]?, pass entry = false →
    i + droppedBefore pass entries i ≤ c ∨ c ≤ droppedBefore pass entries i

/-- The induction of `lowerIndex_eq_iff`, for the entries from index `i` on, where `d` entries have
been dropped before. -/
lemma lowerIndex_eq_iff_from (i d c : ℕ) :
    c - (d + droppedBefore pass entries (c + 1 - i)) ≤ lowerIndex pass entries i (c - d) ∧
    (lowerIndex pass entries i (c - d) = c - (d + droppedBefore pass entries (c + 1 - i)) ↔
      ∀ j, i + j ≤ c → ∀ entry ∈ entries[j]?, pass entry = false →
        i + j + (d + droppedBefore pass entries j) ≤ c ∨ c ≤ d + droppedBefore pass entries j) := by
  induction entries generalizing i d with
  | nil => simp [lowerIndex, droppedBefore]
  | cons entry entries ih =>
    rcases Nat.lt_or_ge c i with hlt | hle
    · rw [lowerIndex_eq_self _ _ (by omega), show c + 1 - i = 0 by omega]
      exact ⟨by simp, iff_of_true (by simp) fun j hj => by omega⟩
    rw [show c + 1 - i = (c + 1 - (i + 1)) + 1 by omega, lowerIndex, ← Nat.and_forall_add_one]
    -- The first entry is kept, dropped after the index has reached zero, or dropped before; in the
    -- last case it is either tracked or missed, and a missed one is never made up for.
    cases h : pass entry with
    | true =>
      simp only [h, droppedBefore_cons_succ, List.getElem?_cons_succ, if_true, Nat.add_zero]
      obtain ⟨hle, hiff⟩ := ih (i + 1) d
      rw [if_neg (by simp), hiff]
      refine ⟨hle, ?_⟩
      simp [h, Nat.add_right_comm _ 1, ← Nat.add_assoc]
    | false =>
      simp only [h, droppedBefore_cons_succ, List.getElem?_cons_succ, true_and, Nat.add_zero,
        Bool.false_eq_true, if_false]
      by_cases hzero : c ≤ d
      · rw [if_neg (by omega), lowerIndex_eq_self _ _ (by omega)]
        exact ⟨by omega, iff_of_true (by omega) ⟨by simp; omega, fun j _ _ _ _ => .inr (by omega)⟩⟩
      by_cases hpast : i + d ≤ c
      · obtain ⟨hle, hiff⟩ := ih (i + 1) (d + 1)
        rw [if_pos (by omega), Nat.sub_sub, ← Nat.add_assoc, Nat.add_right_comm d, hiff]
        refine ⟨hle, ?_⟩
        simp [hpast, Nat.add_right_comm _ 1, ← Nat.add_assoc]
      · rw [if_neg (by omega), lowerIndex_eq_self _ _ (by omega)]
        exact ⟨by omega, iff_of_false (by omega) fun hall => by simp [h] at hall; omega⟩

/-- The loop lowers the index by at most the number of dropped entries up to the current one, and
by that number exactly if it tracks them. -/
lemma lowerIndex_eq_iff (c : ℕ) :
    c - droppedBefore pass entries (c + 1) ≤ lowerIndex pass entries 0 c ∧
    (lowerIndex pass entries 0 c = c - droppedBefore pass entries (c + 1) ↔
      Tracks pass entries c) := by
  simpa [Tracks] using lowerIndex_eq_iff_from pass entries 0 0 c

variable {entries} in
lemma droppedBefore_add_countP {i : ℕ} (hi : i ≤ entries.length) :
    droppedBefore pass entries i + (entries.take i).countP pass = i := by
  have := List.length_eq_countP_add_countP pass (l := entries.take i)
  rw [List.length_take_of_le hi] at this
  rw [droppedBefore, Nat.add_comm]
  simpa using this.symm

/-- The entries that pass the filter, with their indexes. -/
def passing : List (WebBackForwardListItem σ × ℕ) := entries.zipIdx.filter (pass ·.1)

/-- The entry at the index `c` if it passes, else the nearest passing entry before it, else the
first passing entry. -/
def nearest (c : ℕ) : Option (WebBackForwardListItem σ × ℕ) :=
  (passing pass (entries.take (c + 1))).getLast? <|> (passing pass entries).head?

lemma length_passing : (passing pass entries).length = entries.countP pass := by
  conv_rhs => rw [← List.zipIdx_map_fst 0 entries, List.countP_map]
  rw [passing, ← List.countP_eq_length_filter]
  rfl

lemma nodup_passing : (passing pass entries).Nodup := by
  refine List.Nodup.filter _ (List.Nodup.of_map Prod.snd ?_)
  rw [List.zipIdx_map_snd]
  exact List.nodup_range'

lemma nearest_eq (c : ℕ) : nearest pass entries c =
    (passing pass entries)[(passing pass (entries.take (c + 1))).length - 1]? := by
  obtain ⟨after, happ⟩ : passing pass (entries.take (c + 1)) <+: passing pass entries := by
    refine List.IsPrefix.filter _ ?_
    conv_rhs => rw [← List.take_append_drop (c + 1) entries, List.zipIdx_append]
    exact List.prefix_append _ _
  rw [nearest, ← happ]
  rcases (passing pass (entries.take (c + 1))).eq_nil_or_concat with hnil | ⟨init, last, heq⟩
  · simp [hnil, List.head?_eq_getElem?]
  · simp [heq]

lemma getElem?_passing_eq_nearest_iff {k : ℕ} (c : ℕ) (hk : k < entries.countP pass) :
    (passing pass entries)[k]? = nearest pass entries c ↔
      k = (entries.take (c + 1)).countP pass - 1 := by
  rw [nearest_eq, length_passing]
  exact List.getElem?_inj (length_passing pass entries ▸ hk) (nodup_passing pass entries)

lemma backForwardListState_eq {l : WebBackForwardList σ} (hcurrent : l.hasCurrentIndex) :
    l.backForwardListState pass = some ⟨(l.entries.filter pass).map (·.itemState),
      if l.entries.countP pass = 0 then none
      else some (min (lowerIndex pass l.entries 0 l.currentIndex)
        (l.entries.countP pass - 1))⟩ := by
  have hempty : ((l.entries.filter pass).map (·.itemState)).isEmpty ↔
      l.entries.countP pass = 0 := by simp
  rw [backForwardListState, saveEntries_eq]
  simp only [hcurrent, if_true, List.nil_append, Option.map_some, List.length_map,
    ← List.countP_eq_length_filter, hempty]
  split_ifs with hzero hclamp
  · rfl
  · rw [Nat.min_eq_right (by omega)]
  · rw [Nat.min_eq_left (by omega)]

/-- What the saved state should be. -/
structure Saves (l : WebBackForwardList σ) (state : BackForwardListState σ) : Prop where
  items : state.items = (l.entries.filter pass).map (·.itemState)
  none_iff : state.currentIndex = none ↔ l.entries.filter pass = []
  denotes : ∀ k ∈ state.currentIndex,
    (passing pass l.entries)[k]? = nearest pass l.entries l.currentIndex

/-- The saved index denotes the right entry exactly if the loop tracks the dropped entries up to the
current one, or no entry passes after the right one. -/
theorem saves_iff {l : WebBackForwardList σ} (hcurrent : l.hasCurrentIndex)
    (hlt : l.currentIndex < l.entries.length) :
    (∃ state, l.backForwardListState pass = some state ∧ Saves pass l state) ↔
      Tracks pass l.entries l.currentIndex ∨ (passing pass l.entries).length ≤
        max 1 (passing pass (l.entries.take (l.currentIndex + 1))).length := by
  have hdropped := droppedBefore_add_countP pass (i := l.currentIndex + 1) hlt
  obtain ⟨hle, htracks⟩ := lowerIndex_eq_iff pass l.entries l.currentIndex
  have hsub := (List.take_sublist (l.currentIndex + 1) l.entries).countP_le (p := pass)
  rw [backForwardListState_eq pass hcurrent, ← htracks, length_passing, length_passing]
  simp only [Option.some.injEq, exists_eq_left']
  by_cases hzero : l.entries.countP pass = 0
  · rw [if_pos hzero]
    exact iff_of_true ⟨rfl, by simpa using hzero, nofun⟩ (.inr (by omega))
  · rw [if_neg hzero]
    have hsaves := getElem?_passing_eq_nearest_iff pass l.entries l.currentIndex
      (k := min (lowerIndex pass l.entries 0 l.currentIndex) (l.entries.countP pass - 1)) (by omega)
    trans min (lowerIndex pass l.entries 0 l.currentIndex) (l.entries.countP pass - 1) =
      (l.entries.take (l.currentIndex + 1)).countP pass - 1
    · rw [← hsaves]
      exact ⟨fun h => h.denotes _ rfl,
        fun h => ⟨rfl, iff_of_false nofun (by simpa using hzero), by rintro _ ⟨⟩; exact h⟩⟩
    · omega

/-- Five entries, of which the fourth is current. -/
def fiveEntries : WebBackForwardList ℕ := ⟨(List.range 5).map fun n => ⟨n, n⟩, true, 3⟩

/-- If the three entries before the current one are dropped, the saved index is that of the entry
after the current one. -/
theorem saved_index_lost : ¬ ∃ state,
    fiveEntries.backForwardListState (3 ≤ ·.address) = some state ∧
      Saves (3 ≤ ·.address) fiveEntries state := by
  rintro ⟨_, ⟨⟩, hsaves⟩
  exact absurd (hsaves.denotes 1 rfl) (by decide)

/-- If two are dropped, it still is that of the current entry. -/
theorem saves_fiveEntries : ∃ state,
    fiveEntries.backForwardListState (2 ≤ ·.address) = some state ∧
      Saves (2 ≤ ·.address) fiveEntries state := by
  refine (saves_iff _ rfl (by decide)).2 (.inl ?_)
  unfold Tracks
  decide

end

end WebBackForwardList

end WebKit.UIProcess
