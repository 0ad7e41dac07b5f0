import WebKit.ContentExtensions.DFABytecodeInterpreter.Correctness

/-!
# The edge at the end of the string

A transition on the character 0 is taken when the URL has been read. The compiler leaves out every
transition to the target of the fallback, and the interpreter does not take the fallback at the end
of the string, so the transition is lost if it has the same target.
-/

namespace WebKit.ContentExtensions

open WTF DFABytecodeCompiler

namespace DFABytecodeInterpreter

variable {dfa : DFA} {top : Option Actions} {flags i : ℕ} {u s : List ℕ}
  {before : Actions}

/-- The actions of the nodes along the string, and of the edge at its end if it is followed. -/
lemma mem_collect {j a : ℕ} (hj : dfa.runFrom i s = some j) :
    a ∈ collect dfa top flags i s before ↔ a ∈ before ∨ Passes top flags a ∧
      ((∃ t k, t <+: s ∧ dfa.runFrom i t = some k ∧ a ∈ entryActions dfa k) ∨
        ∃ d, followed dfa j 0 = some d ∧ a ∈ entryActions dfa d) := by
  induction s generalizing i before with
  | nil =>
    obtain rfl : i = j := Option.some.inj hj
    have hpath : (∃ t k, t <+: [] ∧ dfa.runFrom i t = some k ∧ a ∈ entryActions dfa k) ↔
        a ∈ entryActions dfa i := by
      simp [DFA.runFrom]
    rw [collect, hpath]
    cases hnext : followed dfa i 0 with
    | none =>
      simp only [mem_foldl_record, reduceCtorEq, false_and, exists_false, or_false]
      rw [and_comm]
    | some d =>
      simp only [mem_foldl_record, Option.some.injEq, exists_eq_left', or_assoc, ← or_and_right]
      rw [and_comm]
  | cons c s ih =>
    obtain ⟨d, hd, hj⟩ := Option.bind_eq_some_iff.1 hj
    have hpath : (∃ t k, t <+: c :: s ∧ dfa.runFrom i t = some k ∧ a ∈ entryActions dfa k) ↔
        a ∈ entryActions dfa i ∨
          ∃ t k, t <+: s ∧ dfa.runFrom d t = some k ∧ a ∈ entryActions dfa k := by
      constructor
      · rintro ⟨t, k, ht, hk, ha⟩
        cases t with
        | nil => exact .inl (Option.some.inj hk ▸ ha)
        | cons c' t =>
          obtain ⟨rfl, htail⟩ := List.cons_prefix_cons.1 ht
          rw [DFA.runFrom, hd] at hk
          exact .inr ⟨t, k, htail, hk, ha⟩
      · rintro (ha | ⟨t, k, ht, hk, ha⟩)
        · exact ⟨[], i, List.nil_prefix, rfl, ha⟩
        · refine ⟨c :: t, k, List.cons_prefix_cons.2 ⟨rfl, ht⟩, ?_, ha⟩
          rw [DFA.runFrom, hd, Option.bind_some, hk]
    rw [collect, hd]
    rw [ih hj, hpath, mem_foldl_record, or_assoc, and_comm, ← and_or_left, or_assoc]

/-- The actions that are recorded before the end of the string is read. -/
def collectedAlong (dfa : DFA) (flags : ℕ) (u : List ℕ) : Set ℕ :=
  {a | flagsMatch (actionFlags a) flags ∧
    ((a ∈ (dfa.nodes.get dfa.root).actions ∧ actionFlags a ≠ 0) ∨
      ∃ t j, t <+: u ∧ dfa.run t = some j ∧ a ∈ entryActions dfa j)}

lemma fallbackTransitionTarget_ne_some {node : DFANode} {d : ℕ} :
    (transitions node).fallbackTransitionTarget ≠ some d ↔
      ¬(node.canUseFallbackTransition = true ∧ node.bestFallbackTarget = d) := by
  change (if node.canUseFallbackTransition then some node.bestFallbackTarget else none) ≠ some d ↔ _
  rw [ne_eq, Option.ite_none_right_eq_some, Option.some.injEq]

/-- The actions at the end of the string are recorded, unless they belong to the target of the
fallback and one of them has not been recorded before. The code of the root has no actions: those
with flags are recorded at the beginning, and the others match everything. -/
theorem end_edge_survives_iff (hdfa : Compilable dfa) (hactions : ActionsFit dfa)
    (hsize : (maxNodeStartOffsets dfa).2 < 2 ^ 31) (flags : ℕ) (hu : ∀ c ∈ u, c ≠ 0 ∧ c < 128)
    {i d : ℕ} (hi : dfa.run u = some i) (hd : dfa.target i 0 = some d) :
    ∃ bytecode, compile dfa = some bytecode ∧ ∃ actions fuel₀,
      (∀ fuel ≥ fuel₀, interpret bytecode none flags u fuel = some actions) ∧
      ((∀ a ∈ entryActions dfa d, flagsMatch (actionFlags a) flags → a ∈ actions) ↔
        ¬((dfa.nodes.get i).canUseFallbackTransition = true ∧
            (dfa.nodes.get i).bestFallbackTarget = d) ∨
          ∀ a ∈ entryActions dfa d, flagsMatch (actionFlags a) flags →
            a ∈ collectedAlong dfa flags u) ∧
      (d = dfa.root → ∀ a ∈ (dfa.nodes.get d).actions, flagsMatch (actionFlags a) flags →
        a ∈ actions ∨ a ∈ actionsMatchingEverything bytecode none) := by
  obtain ⟨bytecode, starts, hcompile, -, hcompiled⟩ := exists_compiled hdfa hsize
  obtain ⟨fuel₀, hinterpret⟩ := exists_interpret hdfa hactions hcompiled .nil (by simp) hu
  rw [collectAll, List.foldl_nil] at hinterpret
  refine ⟨bytecode, hcompile, _, fuel₀, hinterpret, ?_, ?_⟩
  -- the terminator follows an edge of its own, but never the fallback
  · have hmem : ∀ a, a ∈ collect dfa none flags dfa.root u
        ((dfa.nodes.get dfa.root).actions.foldl (recordFlagged none flags) HashSet.empty) ↔
        a ∈ collectedAlong dfa flags u ∨ flagsMatch (actionFlags a) flags ∧
          (transitions (dfa.nodes.get i)).fallbackTransitionTarget ≠ some d ∧
            a ∈ entryActions dfa d := by
      intro a
      have hfollowed : (∃ d', followed dfa i 0 = some d' ∧ a ∈ entryActions dfa d') ↔
          (transitions (dfa.nodes.get i)).fallbackTransitionTarget ≠ some d ∧
            a ∈ entryActions dfa d := by
        simp only [followed_zero_eq_some, hd, Option.some.injEq, and_assoc, exists_eq_left']
      have hroot : a ∈ (dfa.nodes.get dfa.root).actions.foldl (recordFlagged none flags)
          HashSet.empty ↔ flagsMatch (actionFlags a) flags ∧
            a ∈ (dfa.nodes.get dfa.root).actions ∧ actionFlags a ≠ 0 := by
        rw [mem_foldl_flagged, passes_none, ← and_assoc, and_comm]
        simp
      rw [mem_collect hi, hfollowed, hroot, passes_none, collectedAlong, Set.mem_ofPred_eq,
        ← and_or_left, ← and_or_left, or_assoc]
      rfl
    rw [← fallbackTransitionTarget_ne_some]
    simp only [hmem]
    by_cases hfallback : (transitions (dfa.nodes.get i)).fallbackTransitionTarget = some d
    · simp [hfallback]
    · simp only [hfallback, ne_eq, not_false_eq_true, true_and, true_or, iff_true]
      exact fun a ha hflags => .inr ⟨hflags, ha⟩
  · rintro rfl a ha hflags
    obtain ⟨-, heverything⟩ :=
      Compiled.rootActions hactions ⟨hdfa.wf.root_lt, hdfa.root⟩ hcompiled none flags
    rw [heverything]
    refine Collects.complete_root (collects_collect dfa none flags dfa.root u _) ?_
      (passes_none.2 hflags)
    exact mem_visitedActions.2 ⟨[], dfa.root, List.nil_prefix, rfl, ha⟩

/-- After `a` only the end of the string leads to an action. -/
def endDFA : DFA :=
  ⟨⟨3, fun i => if i = 0 then DFANode.live [] [⟨97, 97, 1⟩]
    else if i = 1 then DFANode.live [] [⟨0, 0, 2⟩, ⟨1, 127, 0⟩] else DFANode.live [5] []⟩, 0⟩

/-- After `a` any character and the end of the string lead to the same action, as for the rules
`a.` and `a$` with one action. -/
def mergedDFA : DFA :=
  ⟨⟨3, fun i => if i = 0 then DFANode.live [] [⟨97, 97, 1⟩]
    else if i = 1 then DFANode.live [] [⟨0, 127, 2⟩] else DFANode.live [5] []⟩, 0⟩

lemma forall_lt_three {P : ℕ → Prop} (h₀ : P 0) (h₁ : P 1) (h₂ : P 2) : ∀ i < 3, P i := by
  intro i hi
  rcases (show i = 0 ∨ i = 1 ∨ i = 2 by omega) with rfl | rfl | rfl
  exacts [h₀, h₁, h₂]

lemma compilable_endDFA : Compilable endDFA := by
  refine ⟨⟨⟨by decide, ?_, ?_, ?_⟩, ?_⟩, rfl⟩ <;> exact forall_lt_three (by decide) (by decide)
    (by decide)

theorem end_edge_survives_endDFA :
    ∃ bytecode, compile endDFA = some bytecode ∧ ∃ actions fuel₀,
      (∀ fuel ≥ fuel₀, interpret bytecode none 0 [97] fuel = some actions) ∧
      ((∀ a ∈ entryActions endDFA 2, flagsMatch (actionFlags a) 0 → a ∈ actions) ↔
        ¬((endDFA.nodes.get 1).canUseFallbackTransition = true ∧
            (endDFA.nodes.get 1).bestFallbackTarget = 2) ∨
          ∀ a ∈ entryActions endDFA 2, flagsMatch (actionFlags a) 0 →
            a ∈ collectedAlong endDFA 0 [97]) ∧
      (2 = endDFA.root → ∀ a ∈ (endDFA.nodes.get 2).actions, flagsMatch (actionFlags a) 0 →
        a ∈ actions ∨ a ∈ actionsMatchingEverything bytecode none) := by
  refine end_edge_survives_iff compilable_endDFA ?_ (by decide +kernel) 0 (by decide)
    (by decide +kernel) (by decide +kernel)
  exact forall_lt_three (by decide) (by decide) (by decide)

/-- Nothing is recorded for the URL `a`, although the end of the string leads to an action. -/
theorem end_edge_lost :
    mergedDFA.WF ∧ (∀ i < mergedDFA.nodes.size, (mergedDFA.nodes.get i).isKilled = false) ∧
      mergedDFA.run [97] = some 1 ∧ mergedDFA.target 1 0 = some 2 ∧
      5 ∈ entryActions mergedDFA 2 ∧ flagsMatch (actionFlags 5) 0 = true ∧
      ∃ bytecode, compile mergedDFA = some bytecode ∧
        (interpret bytecode none 0 [97] 4).map HashSet.elements = some [] := by
  refine ⟨⟨by decide, ?_, ?_, ?_⟩, ?_, by decide +kernel, by decide +kernel, by decide +kernel,
    by decide, ?_⟩
  · exact forall_lt_three (by decide) (by decide) (by decide)
  · exact forall_lt_three (by decide) (by decide) (by decide)
  · exact forall_lt_three (by decide) (by decide) (by decide)
  · exact forall_lt_three (by decide) (by decide) (by decide)
  · have hcompile : (compile mergedDFA).map (fun bytecode =>
        (interpret bytecode none 0 [97] 4).map HashSet.elements) = some (some []) := by
      decide +kernel
    exact Option.map_eq_some_iff.1 hcompile

end DFABytecodeInterpreter

end WebKit.ContentExtensions
