import WebKit.ContentExtensions.DFABytecodeInterpreter.Basic

/-!
# The conditions of a content extension

`ContentExtension` keeps what it has computed for the last top URL. At first the URL that it keeps
is the null URL, for which it has computed nothing.
-/

namespace WebKit.ContentExtensions

open WTF DFABytecodeInterpreter

/-- A URL is compared by its string, which is null for the null URL. -/
abbrev URL := Option (List ℕ)

/-- The compiled extension, with the order in which hash sets are iterated, the host in a URL and
the fuel of the interpreter. -/
structure ContentExtension where
  filtersWithConditionsBytecode : List ℕ
  topURLFiltersBytecode : List ℕ
  conditionsApplyOnlyToDomain : Bool
  ord : IterationOrder ℕ := .insertion
  host : URL → List ℕ
  fuel : ℕ

/-- The members that change. -/
structure ConditionCache where
  cachedTopURL : URL := none
  cachedTopURLActions : Actions := HashSet.empty
  cachedUniversalConditionedActions : List ℕ := []

namespace ContentExtension

section

variable (e : ContentExtension) (cache : ConditionCache) (topURL : URL)

/-- `m_universalActionsWithConditions`, as the constructor fills it. -/
def mUniversalActionsWithConditions : List ℕ :=
  (actionsMatchingEverything e.filtersWithConditionsBytecode none).iterate e.ord

/-- What `populateConditionCacheIfNeeded` computes. -/
def evaluate : Option ConditionCache := do
  let string := if e.conditionsApplyOnlyToDomain then e.host topURL else topURL.getD []
  let topURLActions ←
    interpret e.topURLFiltersBytecode none (loadTypeMask ||| resourceTypeMask) string e.fuel
  let cachedTopURLActions := (HashSet.empty.addAll (topURLActions.iterate e.ord)).addAll
    ((actionsMatchingEverything e.topURLFiltersBytecode none).iterate e.ord)
  let conditioned := e.mUniversalActionsWithConditions.filter fun action =>
    decide (action &&& ifConditionFlag ≠ 0) == cachedTopURLActions.contains action
  some ⟨topURL, cachedTopURLActions, conditioned.map (· % 2 ^ 32)⟩

def populateConditionCacheIfNeeded : Option ConditionCache :=
  if cache.cachedTopURL ≠ topURL then e.evaluate topURL else some cache

/-- A member for the top URL, and what is kept. -/
def readCache {α : Type} (member : ConditionCache → α) : Option (α × ConditionCache) :=
  (e.populateConditionCacheIfNeeded cache topURL).map fun cache => (member cache, cache)

def topURLActions : Option (Actions × ConditionCache) :=
  e.readCache cache topURL (·.cachedTopURLActions)

def universalActionsWithConditions : Option (List ℕ × ConditionCache) :=
  e.readCache cache topURL (·.cachedUniversalConditionedActions)

end

/-- What is kept after some calls, each of one of the two methods. -/
inductive Kept (e : ContentExtension) : List URL → ConditionCache → Prop
  | nil : Kept e [] {}
  | topURLActions {topURLs : List URL} {cache cache' : ConditionCache} {topURL : URL}
    {actions : Actions} (h : Kept e topURLs cache)
    (hcall : e.topURLActions cache topURL = some (actions, cache')) :
    Kept e (topURL :: topURLs) cache'
  | universalActionsWithConditions {topURLs : List URL} {cache cache' : ConditionCache}
    {topURL : URL} {actions : List ℕ} (h : Kept e topURLs cache)
    (hcall : e.universalActionsWithConditions cache topURL = some (actions, cache')) :
    Kept e (topURL :: topURLs) cache'

variable {e : ContentExtension} {topURLs : List URL} {cache cache' : ConditionCache} {topURL : URL}

lemma cachedTopURL_of_evaluate (h : e.evaluate topURL = some cache) :
    cache.cachedTopURL = topURL := by
  obtain ⟨actions, -, h⟩ := Option.bind_eq_some_iff.1 h
  cases h
  rfl

/-- What an evaluation holds: the actions of the filters that match the URL, and the universal
actions whose condition holds for it. -/
structure Evaluated (e : ContentExtension) (topURL : URL) (fresh : ConditionCache) : Prop where
  matched : ∃ matched, interpret e.topURLFiltersBytecode none (loadTypeMask ||| resourceTypeMask)
      (if e.conditionsApplyOnlyToDomain then e.host topURL else topURL.getD []) e.fuel =
        some matched ∧
    ∀ a, a ∈ fresh.cachedTopURLActions ↔
      a ∈ matched ∨ a ∈ actionsMatchingEverything e.topURLFiltersBytecode none
  conditioned : ∀ a, a ∈ fresh.cachedUniversalConditionedActions ↔
    ∃ action ∈ actionsMatchingEverything e.filtersWithConditionsBytecode none,
      (action &&& ifConditionFlag ≠ 0 ↔ action ∈ fresh.cachedTopURLActions) ∧ action % 2 ^ 32 = a

lemma evaluated_of_evaluate (h : e.evaluate topURL = some cache) : Evaluated e topURL cache := by
  obtain ⟨matched, hmatched, h⟩ := Option.bind_eq_some_iff.1 h
  cases h
  refine ⟨⟨matched, hmatched, fun a => ?_⟩, fun a => ?_⟩
  · rw [HashSet.mem_addAll, HashSet.mem_addAll, HashSet.mem_iterate, HashSet.mem_iterate]
    simp only [HashSet.not_mem_empty, false_or]
  · rw [List.mem_map]
    refine exists_congr fun action => ?_
    rw [List.mem_filter, mUniversalActionsWithConditions, HashSet.mem_iterate, and_assoc,
      beq_iff_eq, Bool.eq_iff_iff, decide_eq_true_iff, HashSet.contains_eq_true]

/-- What is kept is fresh, unless all calls were about the null URL. -/
def Fresh (e : ContentExtension) (topURLs : List URL) (cache : ConditionCache) : Prop :=
  (cache = {} ∧ ∀ u ∈ topURLs, u = none) ∨
    (e.evaluate cache.cachedTopURL = some cache ∧ ∃ u ∈ topURLs, u ≠ none)

lemma Fresh.step {α : Type} {member : ConditionCache → α} {a : α} (h : Fresh e topURLs cache)
    (hcall : e.readCache cache topURL member = some (a, cache')) :
    Fresh e (topURL :: topURLs) cache' := by
  obtain ⟨_, hpop, heq⟩ := Option.map_eq_some_iff.1 hcall
  cases heq
  unfold populateConditionCacheIfNeeded at hpop
  split_ifs at hpop with hne
  · have hfresh : e.evaluate cache'.cachedTopURL = some cache' := by
      rwa [cachedTopURL_of_evaluate hpop]
    rcases h with ⟨rfl, -⟩ | ⟨-, u, hu, hnull⟩
    · exact Or.inr ⟨hfresh, topURL, List.mem_cons_self, Ne.symm hne⟩
    · exact Or.inr ⟨hfresh, u, List.mem_cons_of_mem _ hu, hnull⟩
  · cases hpop
    rcases h with ⟨rfl, hnull⟩ | ⟨hfresh, u, hu, hnull⟩
    · exact Or.inl ⟨rfl, List.forall_mem_cons.2 ⟨(not_not.1 hne).symm, hnull⟩⟩
    · exact Or.inr ⟨hfresh, u, List.mem_cons_of_mem _ hu, hnull⟩

lemma Kept.fresh (h : Kept e topURLs cache) : Fresh e topURLs cache := by
  induction h with
  | nil => exact Or.inl ⟨rfl, nofun⟩
  | topURLActions _ hcall ih => exact ih.step hcall
  | universalActionsWithConditions _ hcall ih => exact ih.step hcall

lemma Fresh.readCache_iff {α : Type} (member : ConditionCache → α) (h : Fresh e topURLs cache) :
    (e.readCache cache topURL member).map Prod.fst = (e.evaluate topURL).map member ↔
      (∃ u ∈ topURL :: topURLs, u ≠ none) ∨ (e.evaluate topURL).map member = some (member {}) := by
  rw [readCache, populateConditionCacheIfNeeded, Option.map_map]
  split_ifs with hne
  · refine iff_of_true rfl (Or.inl ?_)
    rcases h with ⟨rfl, -⟩ | ⟨-, u, hu, hnull⟩
    · exact ⟨topURL, List.mem_cons_self, Ne.symm hne⟩
    · exact ⟨u, List.mem_cons_of_mem _ hu, hnull⟩
  · obtain rfl := not_not.1 hne
    rcases h with ⟨rfl, hnull⟩ | ⟨hfresh, u, hu, hnull⟩
    · rw [or_iff_right (by simpa using hnull)]
      exact eq_comm
    · rw [hfresh]
      exact iff_of_true rfl (Or.inl ⟨u, List.mem_cons_of_mem _ hu, hnull⟩)

/-- After any calls, both methods return what a fresh evaluation gives just if another URL than the
null URL is or was asked about, or the fresh evaluation gives nothing. A fresh evaluation gives the
actions that match the URL and those whose condition holds. -/
theorem calls_eq_fresh_iff (e : ContentExtension) (topURLs : List URL) (cache : ConditionCache)
    (topURL : URL) (h : Kept e topURLs cache) :
    ((e.topURLActions cache topURL).map Prod.fst =
        (e.evaluate topURL).map (·.cachedTopURLActions) ↔
      (∃ u ∈ topURL :: topURLs, u ≠ none) ∨
        (e.evaluate topURL).map (·.cachedTopURLActions) = some HashSet.empty) ∧
    ((e.universalActionsWithConditions cache topURL).map Prod.fst =
        (e.evaluate topURL).map (·.cachedUniversalConditionedActions) ↔
      (∃ u ∈ topURL :: topURLs, u ≠ none) ∨
        (e.evaluate topURL).map (·.cachedUniversalConditionedActions) = some []) ∧
    ∀ fresh, e.evaluate topURL = some fresh → Evaluated e topURL fresh :=
  ⟨h.fresh.readCache_iff _, h.fresh.readCache_iff _, fun _ => evaluated_of_evaluate⟩

/-- One action, unless the top URL is matched by a filter, and no filter. -/
def unlessExtension : ContentExtension where
  filtersWithConditionsBytecode := [10, 0, 0, 0, 6, 0, 0, 0, 0, 10]
  topURLFiltersBytecode := [5, 0, 0, 0, 10]
  conditionsApplyOnlyToDomain := false
  host _ := []
  fuel := 2

theorem calls_unlessExtension :
    (unlessExtension.universalActionsWithConditions ⟨some [97], .empty, [0]⟩ none).map Prod.fst =
      (unlessExtension.evaluate none).map (·.cachedUniversalConditionedActions) :=
  (calls_eq_fresh_iff unlessExtension [some [97]] ⟨some [97], .empty, [0]⟩ none
    (.topURLActions .nil rfl)).2.1.2 (Or.inl ⟨some [97], by simp, nofun⟩)

/-- Nothing is returned for the null URL if it is the first. -/
theorem null_url_first :
    (unlessExtension.universalActionsWithConditions {} none).map Prod.fst = some [] ∧
      (unlessExtension.evaluate none).map (·.cachedUniversalConditionedActions) = some [0] :=
  ⟨rfl, rfl⟩

end ContentExtension

end WebKit.ContentExtensions
