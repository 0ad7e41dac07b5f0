import WebKit.WTF.HashMap
import WebKit.ContentExtensions.FullGraphPartition

/-!
# `DFAMinimizer`

Two partitions are refined together: nodes are split by the transitions of one set at a time, and
whenever a set of nodes is split, the transitions into the new set are split from the others.
Only the sets of transitions that are new are processed again.
-/

namespace WebKit.ContentExtensions

open RangeMap WTF List HashMap
open Option hiding mem_map

namespace DFAMinimizer

/-- The nodes with the same list of actions. -/
def finalStates (dfa : DFA) : HashMap (List ℕ) (List ℕ) :=
  (List.range dfa.nodes.size).foldl (fun states i =>
      if (dfa.nodes.get i).actions ≠ [] then
        states.modify (dfa.nodes.get i).actions [] fun nodes => nodes ++ [i]
      else states)
    HashMap.empty

/-- Split the nodes by their actions. -/
def splitByActions (slots : List (List ℕ × List ℕ)) (g : FullGraphPartition) : FullGraphPartition :=
  slots.foldl (fun g slot => (slot.2.foldl FullGraphPartition.markNode g).refinePartitions) g

/-- Send the transitions of a node that was not killed to the nodes that replace their targets. -/
def relocate (relocation : ℕ → ℕ) (node : DFANode) : DFANode :=
  if node.isKilled then node
  else DFANode.live node.actions (node.transitions.map (Range.map relocation))

/-- The partition of the nodes at the end. -/
def partition (ord : IterationOrder (List ℕ × List ℕ)) (dfa : DFA) : FullGraphPartition :=
  (splitByActions ((finalStates dfa).iterate ord)
    (FullGraphPartition.ofDFA dfa)).splitByUniqueTransitions

def minimize (ord : IterationOrder (List ℕ × List ℕ)) (dfa : DFA) : DFA :=
  let g := partition ord dfa
  let relocationVector : Vec ℕ := ⟨dfa.nodes.size, g.nodeReplacement⟩
  let nodes : Vec DFANode := ⟨dfa.nodes.size, fun i =>
    if i ≠ g.nodeReplacement i then DFANode.killed else dfa.nodes.get i⟩
  { nodes := nodes.map (relocate relocationVector.get)
    root := relocationVector.get dfa.root }

/-! ### Both partitions together -/

variable {E : ℕ → ℕ → Prop} {i : ℕ}

section

open FullGraphPartition

variable {dfa : DFA} {rs : List (Range ℕ)} {g : FullGraphPartition} {N : ℕ} {symbol target : ℕ → ℕ}

/-- Transitions are in the same set when they have the same symbol and go to the same set of
nodes. -/
def Linked (N : ℕ) (symbol target : ℕ → ℕ) (nodes transitions : Partition) : Prop :=
  ∀ t < N, ∀ t' < N, transitions.setIndex t = transitions.setIndex t' ↔
    symbol t = symbol t' ∧ nodes.setIndex (target t) = nodes.setIndex (target t')

/-- The transition partition `q` comes from `q₀` by giving some transitions new sets. -/
structure Relabeled (N : ℕ) (q₀ q : Partition) : Prop where
  size_le : q₀.sets.size ≤ q.sets.size
  relabel : ∀ t < N, q.setIndex t = q₀.setIndex t ∨ q₀.sets.size ≤ q.setIndex t

lemma Relabeled.refl (N : ℕ) (q : Partition) : Relabeled N q q := ⟨le_rfl, fun _ _ => .inl rfl⟩

lemma Relabeled.trans {q₀ q₁ q₂ : Partition} (h : Relabeled N q₀ q₁) (h' : Relabeled N q₁ q₂) :
    Relabeled N q₀ q₂ := by
  refine ⟨h.size_le.trans h'.size_le, fun t ht => ?_⟩
  rcases h'.relabel t ht with heq | hge
  · rw [heq]
    exact h.relabel t ht
  · exact .inr (h.size_le.trans hge)

/-- A partition in which nothing is marked. -/
def Clean (n : ℕ) (p : Partition) : Prop :=
  Partition.WF n p [] ∧ p.setsMarkedInCurrentGeneration = []

/-- Splitting off the transitions into a new set of nodes. -/
lemma splitTransitions_spec (hflat : FullGraphPartition.FlatGraph dfa rs g N symbol target)
    {p q : Partition} {marked : List ℕ} (hp : Partition.WF dfa.nodes.size p marked) {new : ℕ}
    (hnew : new < p.sets.size) (hq : Clean N q) :
    Clean N (g.splitTransitions p new q) ∧ Relabeled N q (g.splitTransitions p new q) ∧
      ∀ t < N, ∀ t' < N, (g.splitTransitions p new q).setIndex t =
        (g.splitTransitions p new q).setIndex t' ↔ q.setIndex t = q.setIndex t' ∧
          (p.setIndex (target t) = new ↔ p.setIndex (target t') = new) := by
  generalize hinc : (p.iterateSet new).flatMap g.incomingTransitions = incoming
  have hmem : ∀ t, t ∈ incoming ↔ t < N ∧ p.setIndex (target t) = new := by
    intro t
    rw [← hinc, mem_flatMap]
    constructor
    · rintro ⟨k, hk, ht⟩
      obtain ⟨hk, hset⟩ := (hp.mem_iterateSet hnew k).mp hk
      obtain ⟨hlt, rfl⟩ := (hflat.mem_incoming k hk t).mp ht
      exact ⟨hlt, hset⟩
    · rintro ⟨ht, hset⟩
      have hlt := hflat.target_lt t ht
      exact ⟨target t, (hp.mem_iterateSet hnew _).mpr ⟨hlt, hset⟩,
        (hflat.mem_incoming _ hlt t).mpr ⟨ht, rfl⟩⟩
  -- a transition has one target, so it is marked once
  have hnd : incoming.Nodup := by
    rw [← hinc, nodup_flatMap]
    constructor
    · intro k _
      refine List.Nodup.map ?_ nodup_range
      exact fun a b hab => Nat.add_left_cancel hab
    · refine List.Pairwise.imp_of_mem ?_ (hp.nodup_iterateSet hnew)
      intro k k' hk hk' hne t ht ht'
      have hk := ((hp.mem_iterateSet hnew k).mp hk).1
      have hk' := ((hp.mem_iterateSet hnew k').mp hk').1
      have h₁ := ((hflat.mem_incoming k hk t).mp ht).2
      have h₂ := ((hflat.mem_incoming k' hk' t).mp ht').2
      exact hne (h₁.symm.trans h₂)
  have hunfold : g.splitTransitions p new q = (Partition.refineGeneration (fun _ _ u => u)
      (incoming.foldl Partition.markElementInCurrentGeneration q) ()).1 := by
    rw [← hinc, FullGraphPartition.splitTransitions, foldl_flatMap]
  obtain ⟨q', _, hq', hcln, hsize, hrelabel, hsame, -⟩ := Partition.refineGeneration_mark
    (fun _ _ u => u) (fun _ _ => True) (fun _ _ _ _ _ _ => trivial)
    (fun _ _ _ _ _ _ _ _ _ _ => trivial) () hq.1 hq.2 (fun t ht => ((hmem t).mp ht).1) hnd
    trivial
  rw [hunfold, hq']
  refine ⟨hcln, ⟨hsize, hrelabel⟩, fun t ht t' ht' => ?_⟩
  rw [hsame t ht t' ht', hmem, hmem, and_iff_right ht, and_iff_right ht']

/-- What holds between the steps of the minimization. -/
structure Inv (dfa : DFA) (rs : List (Range ℕ)) (N : ℕ) (symbol target : ℕ → ℕ)
    (g : FullGraphPartition) : Prop where
  flat : FullGraphPartition.FlatGraph dfa rs g N symbol target
  nodes : Clean dfa.nodes.size g.nodePartition
  transitions : Clean N g.transitionPartition
  linked : Linked N symbol target g.nodePartition g.transitionPartition

lemma foldl_markNode (nodes : List ℕ) :
    nodes.foldl FullGraphPartition.markNode g =
      { g with
        nodePartition :=
          nodes.foldl Partition.markElementInCurrentGeneration g.nodePartition } := by
  induction nodes generalizing g with
  | nil => rfl
  | cons i nodes ih => rw [foldl_cons, ih]; rfl

/-- Marking some nodes and refining splits the sets by these nodes. -/
lemma mark_refine_spec (h : Inv dfa rs N symbol target g) {nodes : List ℕ}
    (hlt : ∀ i ∈ nodes, i < dfa.nodes.size) (hnd : nodes.Nodup) :
    ∃ g', (nodes.foldl markNode g).refinePartitions = g' ∧ Inv dfa rs N symbol target g' ∧
      (∀ i < dfa.nodes.size, ∀ i' < dfa.nodes.size,
        g'.nodePartition.setIndex i = g'.nodePartition.setIndex i' ↔
          g.nodePartition.setIndex i = g.nodePartition.setIndex i' ∧ (i ∈ nodes ↔ i' ∈ nodes)) ∧
      Relabeled N g.transitionPartition g'.transitionPartition ∧
      g'.flattenedTransitions = g.flattenedTransitions ∧
      g'.nextTransitionSetToProcess = g.nextTransitionSetToProcess := by
  let J : Partition → Partition → Prop := fun nodes transitions =>
    Clean N transitions ∧ Linked N symbol target nodes transitions ∧
      Relabeled N g.transitionPartition transitions
  have hflat : FullGraphPartition.FlatGraph dfa rs (nodes.foldl markNode g) N symbol target := by
    rw [foldl_markNode]
    exact { h.flat with }
  obtain ⟨p, q, hpq, hcln, -, -, hsame, hc, hl, hr⟩ := Partition.refineGeneration_mark
    (splitTransitions (nodes.foldl markNode g)) J
    (by
      rintro nodes nodes' transitions hsame - ⟨hc, hl, hr⟩
      refine ⟨hc, fun t ht t' ht' => ?_, hr⟩
      rw [hsame, hsame]
      exact hl t ht t' ht')
    (by
      rintro nodes nodes' new marked transitions hwf hnew - hsame ⟨hc, hl, hr⟩
      obtain ⟨hc', hr', hs⟩ := splitTransitions_spec hflat hwf hnew hc
      refine ⟨hc', fun t ht t' ht' => ?_, hr.trans hr'⟩
      rw [hs t ht t' ht', hl t ht t' ht', and_assoc, hsame _ (h.flat.target_lt t ht) _
        (h.flat.target_lt t' ht')])
    g.transitionPartition h.nodes.1 h.nodes.2 hlt hnd
    ⟨h.transitions, h.linked, Relabeled.refl N _⟩
  rw [foldl_markNode] at hpq
  rw [foldl_markNode, refinePartitions, hpq]
  exact ⟨_, rfl, ⟨{ h.flat with }, hcln, hc, hl⟩, hsame, hr, rfl, rfl⟩

/-! ### The main loop -/

/-- Nodes of the same set agree on the sets of transitions before `k`: when one of them has a
transition in such a set, the other one has a transition for the same symbol in the same set or in a
set that is still to be processed. -/
def Agree (n N : ℕ) (symbol : ℕ → ℕ) (k : ℕ) (g : FullGraphPartition) : Prop :=
  ∀ t < N, g.transitionPartition.setIndex t < k → ∀ v < n,
    g.nodePartition.setIndex (g.flattenedTransitions.get t) = g.nodePartition.setIndex v →
    ∃ t' < N, g.flattenedTransitions.get t' = v ∧ symbol t' = symbol t ∧
      (g.transitionPartition.setIndex t' = g.transitionPartition.setIndex t ∨
        k ≤ g.transitionPartition.setIndex t')

/-- A relation that respects actions and transitions. -/
def Bisimulation (dfa : DFA) (E : ℕ → ℕ → Prop) : Prop :=
  ∀ u < dfa.nodes.size, ∀ v < dfa.nodes.size, E u v →
    (dfa.nodes.get u).actions = (dfa.nodes.get v).actions ∧
      ∀ c, Option.Rel E (dfa.target u c) (dfa.target v c)

/-- Related nodes are in the same set. -/
def Coarse (n : ℕ) (E : ℕ → ℕ → Prop) (g : FullGraphPartition) : Prop :=
  ∀ u < n, ∀ v < n, E u v → g.nodePartition.setIndex u = g.nodePartition.setIndex v

/-- The sources of a set of transitions. -/
def sources (g : FullGraphPartition) (k : ℕ) : List ℕ :=
  (g.transitionPartition.iterateSet k).map g.flattenedTransitions.get

variable {k : ℕ}

section

variable (h : Inv dfa rs N symbol target g) (hk : k < g.transitionPartition.sets.size)

include h hk

lemma mem_sources (u : ℕ) :
    u ∈ sources g k ↔
      ∃ t < N, g.transitionPartition.setIndex t = k ∧ g.flattenedTransitions.get t = u := by
  simp only [sources, mem_map, h.transitions.1.mem_iterateSet hk, and_assoc]

/-- The transitions of a set have the same symbol, so their sources are different. -/
lemma nodup_sources : (sources g k).Nodup := by
  refine List.Nodup.map_on ?_ (h.transitions.1.nodup_iterateSet hk)
  intro t ht t' ht' hsrc
  obtain ⟨ht, hset⟩ := (h.transitions.1.mem_iterateSet hk t).mp ht
  obtain ⟨ht', hset'⟩ := (h.transitions.1.mem_iterateSet hk t').mp ht'
  have hsym := ((h.linked t ht t' ht').mp (hset.trans hset'.symm)).1
  exact h.flat.eq_of_source_symbol t ht t' ht' hsrc hsym

lemma sources_lt : ∀ u ∈ sources g k, u < dfa.nodes.size := by
  intro u hu
  obtain ⟨t, ht, -, rfl⟩ := (mem_sources h hk u).mp hu
  exact h.flat.source_lt t ht

end

lemma processTransitionSet_eq : g.processTransitionSet =
    { ((sources g g.nextTransitionSetToProcess).foldl markNode g).refinePartitions with
      nextTransitionSetToProcess := g.nextTransitionSetToProcess + 1 } := by
  have hfold : ∀ (ts : List ℕ) g',
      g'.flattenedTransitions = g.flattenedTransitions →
      ts.foldl (fun g t => g.markNode (g.flattenedTransitions.get t)) g' =
        (ts.map g.flattenedTransitions.get).foldl markNode g' := by
    intro ts g' hg'
    induction ts generalizing g' with
    | nil => rfl
    | cons t ts ih =>
      rw [foldl_cons, hg']
      exact ih _ hg'
  rw [processTransitionSet, hfold _ g rfl]
  rfl

/-- Processing the next set of transitions makes the nodes agree on it. -/
lemma Agree.step (h : Inv dfa rs N symbol target g)
    (hk : g.nextTransitionSetToProcess < g.transitionPartition.sets.size)
    (hagr : Agree dfa.nodes.size N symbol g.nextTransitionSetToProcess g) :
    Agree dfa.nodes.size N symbol (g.nextTransitionSetToProcess + 1) g.processTransitionSet := by
  obtain ⟨g', hg', -, hsame, hrel, hsrc, -⟩ :=
    mark_refine_spec h (sources_lt h hk) (nodup_sources h hk)
  have hmem := mem_sources h hk
  rw [processTransitionSet_eq, hg']
  generalize g.nextTransitionSetToProcess = k at *
  -- a set of transitions below the old number of sets has kept its index
  have hkeep : ∀ t < N, g'.transitionPartition.setIndex t < k + 1 →
      g'.transitionPartition.setIndex t = g.transitionPartition.setIndex t := by
    intro t ht hlt
    rcases hrel.relabel t ht with heq | hge
    · exact heq
    · omega
  have hlate : ∀ t < N, k + 1 ≤ g.transitionPartition.setIndex t →
      k + 1 ≤ g'.transitionPartition.setIndex t := by
    intro t ht hge
    rcases hrel.relabel t ht with heq | hge'
    · omega
    · omega
  intro t ht hlt v hv hset
  simp only at hlt ⊢
  rw [hsrc] at hset ⊢
  have hu := h.flat.source_lt t ht
  obtain ⟨hset, hmk⟩ := (hsame _ hu v hv).mp hset
  have heq := hkeep t ht hlt
  have hclose : ∀ t' < N, g.transitionPartition.setIndex t' = g.transitionPartition.setIndex t →
      g'.transitionPartition.setIndex t' = g'.transitionPartition.setIndex t ∨
        k + 1 ≤ g'.transitionPartition.setIndex t' := by
    intro t' ht' heq'
    rcases hrel.relabel t' ht' with hsame' | hge
    · exact .inl (by rw [hsame', heq', heq])
    · exact .inr (by omega)
  rcases Nat.lt_or_ge (g.transitionPartition.setIndex t) k with hbef | hge
  · obtain ⟨t', ht', hv', hsymbol, hset'⟩ := hagr t ht hbef v hv hset
    refine ⟨t', ht', hv', hsymbol, ?_⟩
    rcases hset' with hset' | hge'
    · exact hclose t' ht' hset'
    · -- the other transition is not in the processed set, because then both nodes were marked
      have hne : g.transitionPartition.setIndex t' ≠ k := by
        intro hk'
        obtain ⟨t'', ht'', hset'', hsrc''⟩ :=
          (hmem _).mp (hmk.mpr ((hmem v).mpr ⟨t', ht', hk', hv'⟩))
        have hsym := ((h.linked t'' ht'' t' ht').mp (hset''.trans hk'.symm)).1
        have := h.flat.eq_of_source_symbol t'' ht'' t ht hsrc'' (hsym.trans hsymbol)
        rw [this] at hset''
        omega
      exact .inr (hlate t' ht' (by omega))
  · have hk' : g.transitionPartition.setIndex t = k := by omega
    obtain ⟨t', ht', hset', hv'⟩ := (hmem v).mp (hmk.mp ((hmem _).mpr ⟨t, ht, hk', rfl⟩))
    have heq' := hset'.trans hk'.symm
    exact ⟨t', ht', hv', ((h.linked t' ht' t ht).mp heq').1, hclose t' ht' heq'⟩

lemma Bisimulation.flip (hE : Bisimulation dfa E) : Bisimulation dfa fun u v => E v u := by
  intro u hu v hv huv
  obtain ⟨hact, htgts⟩ := hE v hv u hu huv
  refine ⟨hact.symm, fun c => ?_⟩
  have hrel := htgts c
  generalize dfa.target v c = w at hrel
  generalize dfa.target u c = w' at hrel
  cases hrel with
  | none => exact .none
  | some hrel => exact .some hrel

/-- Related nodes have related targets for the symbol of a set of transitions. -/
lemma Coarse.mem_sources (hE : Bisimulation dfa E) (h : Inv dfa rs N symbol target g)
    (hcrs : Coarse dfa.nodes.size E g) {u v : ℕ} (hk : k < g.transitionPartition.sets.size)
    (hu : u < dfa.nodes.size) (hv : v < dfa.nodes.size) (huv : E u v) (hmem : u ∈ sources g k) :
    v ∈ sources g k := by
  rw [DFAMinimizer.mem_sources h hk] at hmem ⊢
  obtain ⟨t, ht, hset, rfl⟩ := hmem
  obtain ⟨q, hq⟩ : ∃ q, rs[symbol t]? = some q := ⟨_, getElem?_eq_getElem (h.flat.symbol_lt t ht)⟩
  have htgt := (h.flat.target_iff _ hu _ _ hq (target t)).mpr ⟨t, ht, rfl, rfl, rfl⟩
  have hrel := (hE _ hu v hv huv).2 q.first
  rw [htgt] at hrel
  cases hv' : dfa.target v q.first with
  | none => rw [hv'] at hrel; cases hrel
  | some w =>
    rw [hv'] at hrel
    cases hrel with
    | some hrel =>
      obtain ⟨t', ht', hsrc, hsym, rfl⟩ := (h.flat.target_iff v hv _ _ hq w).mp hv'
      refine ⟨t', ht', ((h.linked t' ht' t ht).mpr ⟨hsym, ?_⟩).trans hset, hsrc⟩
      exact (hcrs _ (h.flat.target_lt t ht) _ (h.flat.target_lt t' ht') hrel).symm

/-- Processing a set of transitions does not separate related nodes. -/
lemma Coarse.step (hE : Bisimulation dfa E) (h : Inv dfa rs N symbol target g)
    (hk : g.nextTransitionSetToProcess < g.transitionPartition.sets.size)
    (hcrs : Coarse dfa.nodes.size E g) : Coarse dfa.nodes.size E g.processTransitionSet := by
  obtain ⟨g', hg', -, hsame, -⟩ := mark_refine_spec h (sources_lt h hk) (nodup_sources h hk)
  have hflip : Coarse dfa.nodes.size (fun u v => E v u) g :=
    fun u hu v hv huv => (hcrs v hv u hu huv).symm
  rw [processTransitionSet_eq, hg']
  intro u hu v hv huv
  refine (hsame u hu v hv).mpr ⟨hcrs u hu v hv huv, ?_, ?_⟩
  · exact hcrs.mem_sources hE h hk hu hv huv
  · exact hflip.mem_sources hE.flip h hk hv hu huv

/-- Nodes of the same set have the same actions. -/
def SameActions (dfa : DFA) (g : FullGraphPartition) : Prop :=
  ∀ u < dfa.nodes.size, ∀ v < dfa.nodes.size,
    g.nodePartition.setIndex u = g.nodePartition.setIndex v →
      (dfa.nodes.get u).actions = (dfa.nodes.get v).actions

section

variable (h : Inv dfa rs N symbol target g)
  (hk : g.nextTransitionSetToProcess < g.transitionPartition.sets.size)

include h hk

lemma Inv.step : Inv dfa rs N symbol target g.processTransitionSet := by
  obtain ⟨g', hg', hinv, -⟩ := mark_refine_spec h (sources_lt h hk) (nodup_sources h hk)
  rw [processTransitionSet_eq, hg']
  exact { hinv with flat := { hinv.flat with } }

lemma SameActions.step (hact : SameActions dfa g) : SameActions dfa g.processTransitionSet := by
  obtain ⟨g', hg', -, hsame, -⟩ := mark_refine_spec h (sources_lt h hk) (nodup_sources h hk)
  rw [processTransitionSet_eq, hg']
  exact fun u hu v hv huv => hact u hu v hv ((hsame u hu v hv).mp huv).1

end

/-- What the main loop keeps. -/
structure LoopInv (dfa : DFA) (rs : List (Range ℕ)) (N : ℕ) (symbol target : ℕ → ℕ)
    (E : ℕ → ℕ → Prop) (g : FullGraphPartition) : Prop where
  inv : Inv dfa rs N symbol target g
  agree : Agree dfa.nodes.size N symbol g.nextTransitionSetToProcess g
  actions : SameActions dfa g
  coarse : Coarse dfa.nodes.size E g

lemma LoopInv.step (hE : Bisimulation dfa E) (h : LoopInv dfa rs N symbol target E g)
    (hk : g.nextTransitionSetToProcess < g.transitionPartition.sets.size) :
    LoopInv dfa rs N symbol target E g.processTransitionSet :=
  ⟨h.inv.step hk, Agree.step h.inv hk h.agree, h.actions.step h.inv hk, h.coarse.step hE h.inv hk⟩

/-- The loop ends with all sets processed. -/
lemma splitLoop_spec (hE : Bisimulation dfa E) (fuel : ℕ)
    (h : LoopInv dfa rs N symbol target E g) (hfuel : N ≤ fuel + g.nextTransitionSetToProcess) :
    LoopInv dfa rs N symbol target E (splitLoop fuel g) ∧
      (splitLoop fuel g).transitionPartition.sets.size ≤
        (splitLoop fuel g).nextTransitionSetToProcess := by
  induction fuel generalizing g with
  | zero =>
    have hle := h.inv.transitions.1.size_sets_le
    exact ⟨h, by rw [splitLoop]; omega⟩
  | succ fuel ih =>
    unfold splitLoop
    split_ifs with hk
    · refine ih (h.step hE hk) ?_
      have hnext : g.processTransitionSet.nextTransitionSetToProcess =
          g.nextTransitionSetToProcess + 1 := rfl
      omega
    · exact ⟨h, not_lt.mp hk⟩

/-- When all sets are processed, nodes of the same set have transitions for the same symbols into
the same sets. -/
lemma LoopInv.stable (h : LoopInv dfa rs N symbol target E g)
    (hend : g.transitionPartition.sets.size ≤ g.nextTransitionSetToProcess) {v : ℕ}
    (hv : v < dfa.nodes.size) {t : ℕ} (ht : t < N)
    (hset : g.nodePartition.setIndex (g.flattenedTransitions.get t) = g.nodePartition.setIndex v) :
    ∃ t' < N, g.flattenedTransitions.get t' = v ∧ symbol t' = symbol t ∧
      g.nodePartition.setIndex (target t') = g.nodePartition.setIndex (target t) := by
  have hlt := h.inv.transitions.1.setIndex_lt t ht
  obtain ⟨t', ht', hsrc, hsym, hset'⟩ := h.agree t ht (hlt.trans_le hend) v hv hset
  have hlt' := h.inv.transitions.1.setIndex_lt t' ht'
  have heq := hset'.resolve_right (by omega)
  exact ⟨t', ht', hsrc, hsym, ((h.inv.linked t' ht' t ht).mp heq).2⟩

/-! ### Splitting by actions -/

/-- The nodes among the first `k` with the list of actions `key`. -/
def nodesWithActions (dfa : DFA) (key : List ℕ) (k : ℕ) : List ℕ :=
  (List.range k).filter fun i => (dfa.nodes.get i).actions = key

/-- The states with a key: none for the empty list of actions. -/
lemma get?_finalStates (dfa : DFA) (key : List ℕ) :
    (finalStates dfa).get? key =
      if key = [] ∨ nodesWithActions dfa key dfa.nodes.size = [] then none
      else some (nodesWithActions dfa key dfa.nodes.size) := by
  have hprefix : ∀ k, ((range k).foldl (fun states i =>
        if (dfa.nodes.get i).actions ≠ [] then
          states.modify (dfa.nodes.get i).actions [] fun nodes => nodes ++ [i]
        else states)
      (empty : HashMap (List ℕ) (List ℕ))).get? key =
      if key = [] ∨ nodesWithActions dfa key k = [] then none
      else some (nodesWithActions dfa key k) := by
    intro k
    induction k with
    | zero => simp [nodesWithActions]
    | succ k ih =>
      have hsucc : nodesWithActions dfa key (k + 1) = nodesWithActions dfa key k ++
          if (dfa.nodes.get k).actions = key then [k] else [] := by
        rw [nodesWithActions, range_succ]
        by_cases hk : (dfa.nodes.get k).actions = key <;> simp [nodesWithActions, hk]
      rw [range_succ, foldl_append, foldl_cons, foldl_nil, hsucc]
      by_cases hk : (dfa.nodes.get k).actions = key
      · rw [hk]
        by_cases hkey : key = []
        · rw [if_neg (not_not.mpr hkey), ih, if_pos (.inl hkey), if_pos (.inl hkey)]
        · rw [if_pos hkey, get?_modify, ih]
          by_cases hnil : nodesWithActions dfa key k = [] <;> simp [hnil, hkey]
      · rw [if_neg hk, append_nil, ← ih]
        by_cases hne : (dfa.nodes.get k).actions ≠ []
        · rw [if_pos hne, get?_modify, if_neg (Ne.symm hk)]
        · rw [if_neg hne]
  exact hprefix dfa.nodes.size

lemma mem_nodesWithActions {key : List ℕ} {i : ℕ} :
    i ∈ nodesWithActions dfa key k ↔ i < k ∧ (dfa.nodes.get i).actions = key := by
  simp [nodesWithActions]

/-- The slots of the final states are the sets of nodes with the same actions. -/
lemma mem_finalStates {slot : List ℕ × List ℕ} (h : slot ∈ (finalStates dfa).entries) :
    slot.1 ≠ [] ∧ slot.2 = nodesWithActions dfa slot.1 dfa.nodes.size := by
  have hget : (finalStates dfa).get? slot.1 = some slot.2 := get?_eq_some_iff.mpr h
  rw [get?_finalStates] at hget
  split_ifs at hget with hor
  rw [not_or] at hor
  exact ⟨hor.1, (Option.some.inj hget).symm⟩

lemma exists_finalState (hi : i < dfa.nodes.size) (hne : (dfa.nodes.get i).actions ≠ []) :
    ∃ slot ∈ (finalStates dfa).entries, slot.1 = (dfa.nodes.get i).actions := by
  have hmem : i ∈ nodesWithActions dfa (dfa.nodes.get i).actions dfa.nodes.size :=
    mem_nodesWithActions.mpr ⟨hi, rfl⟩
  have hget := get?_finalStates dfa (dfa.nodes.get i).actions
  rw [if_neg (not_or.mpr ⟨hne, ne_nil_of_mem hmem⟩), get?_eq_some_iff] at hget
  exact ⟨_, hget, rfl⟩

/-- Splitting by some sets of final states. -/
lemma splitByActions_spec (hE : Bisimulation dfa E)
    (slots : List (List ℕ × List ℕ)) (hslots : ∀ slot ∈ slots, slot ∈ (finalStates dfa).entries)
    (h : Inv dfa rs N symbol target g) (hcrs : Coarse dfa.nodes.size E g) :
    Inv dfa rs N symbol target (splitByActions slots g) ∧
      Coarse dfa.nodes.size E (splitByActions slots g) ∧
      (splitByActions slots g).nextTransitionSetToProcess = g.nextTransitionSetToProcess ∧
      (splitByActions slots g).flattenedTransitions = g.flattenedTransitions ∧
      ∀ u < dfa.nodes.size, ∀ v < dfa.nodes.size,
        (splitByActions slots g).nodePartition.setIndex u =
          (splitByActions slots g).nodePartition.setIndex v →
        g.nodePartition.setIndex u = g.nodePartition.setIndex v ∧
          ∀ slot ∈ slots, u ∈ slot.2 ↔ v ∈ slot.2 := by
  induction slots generalizing g with
  | nil => exact ⟨h, hcrs, rfl, rfl, fun u _ v _ huv => ⟨huv, by simp⟩⟩
  | cons slot slots ih =>
    rw [forall_mem_cons] at hslots
    obtain ⟨-, hslot⟩ := mem_finalStates hslots.1
    have hmem : ∀ i, i ∈ slot.2 ↔ i < dfa.nodes.size ∧ (dfa.nodes.get i).actions = slot.1 := by
      intro i
      rw [hslot, mem_nodesWithActions]
    have hnd : slot.2.Nodup := hslot ▸ nodup_range.filter _
    obtain ⟨g', hg', hinv, hsame, -, hsrc, hnext⟩ :=
      mark_refine_spec h (fun i hi => ((hmem i).mp hi).1) hnd
    have hstep : splitByActions (slot :: slots) g = splitByActions slots g' :=
      congrArg (splitByActions slots) hg'
    have hcrs' : Coarse dfa.nodes.size E g' := by
      intro u hu v hv huv
      refine (hsame u hu v hv).mpr ⟨hcrs u hu v hv huv, ?_⟩
      rw [hmem, hmem, and_iff_right hu, and_iff_right hv, (hE u hu v hv huv).1]
    obtain ⟨hinv', hc', hnext', hsrc', hall⟩ := ih hslots.2 hinv hcrs'
    rw [hstep]
    refine ⟨hinv', hc', hnext'.trans hnext, hsrc'.trans hsrc, ?_⟩
    intro u hu v hv huv
    obtain ⟨hset, hrest⟩ := hall u hu v hv huv
    obtain ⟨hset, hslot⟩ := (hsame u hu v hv).mp hset
    exact ⟨hset, forall_mem_cons.mpr ⟨hslot, hrest⟩⟩

/-- Splitting by all sets of final states leaves nodes with the same actions together only. -/
lemma sameActions_splitByActions {slots : List (List ℕ × List ℕ)}
    (hslots : ∀ slot, slot ∈ slots ↔ slot ∈ (finalStates dfa).entries)
    (h : ∀ u < dfa.nodes.size, ∀ v < dfa.nodes.size,
      g.nodePartition.setIndex u = g.nodePartition.setIndex v →
        ∀ slot ∈ slots, u ∈ slot.2 ↔ v ∈ slot.2) : SameActions dfa g := by
  have hhalf : ∀ u < dfa.nodes.size, ∀ v < dfa.nodes.size,
      g.nodePartition.setIndex u = g.nodePartition.setIndex v →
      (dfa.nodes.get u).actions ≠ [] →
      (dfa.nodes.get v).actions = (dfa.nodes.get u).actions := by
    intro u hu v hv huv hne
    obtain ⟨slot, hslot, hkey⟩ := exists_finalState hu hne
    have hmem := (mem_finalStates hslot).2
    have huv' := h u hu v hv huv slot ((hslots slot).mpr hslot)
    rw [hmem, hkey, mem_nodesWithActions, mem_nodesWithActions] at huv'
    exact (huv'.mp ⟨hu, rfl⟩).2
  intro u hu v hv huv
  by_cases hne : (dfa.nodes.get u).actions = []
  · by_cases hne' : (dfa.nodes.get v).actions = []
    · rw [hne, hne']
    · exact hhalf v hv u hu huv.symm hne'
  · exact (hhalf u hu v hv huv hne).symm

end

/-! ### The replacement of nodes -/

section

variable {dfa : DFA} {ord : IterationOrder (List ℕ × List ℕ)}

/-- What replacing nodes by `f` must satisfy: `f` picks one node of each class of a partition whose
nodes have the same actions and targets in the same classes. -/
structure Replacement (dfa : DFA) (f : ℕ → ℕ) : Prop where
  lt : ∀ i < dfa.nodes.size, f i < dfa.nodes.size
  idem : ∀ i < dfa.nodes.size, f (f i) = f i
  actions_eq : ∀ u < dfa.nodes.size, ∀ v < dfa.nodes.size, f u = f v →
    (dfa.nodes.get u).actions = (dfa.nodes.get v).actions
  target_eq : ∀ u < dfa.nodes.size, ∀ v < dfa.nodes.size, f u = f v → ∀ c,
    (dfa.target u c).map f = (dfa.target v c).map f

/-- Before anything is split. -/
lemma ofDFA_inv (hwf : dfa.WF) : ∃ rs N symbol target, Singular dfa dfa.nodes.size rs ∧
    Inv dfa rs N symbol target (FullGraphPartition.ofDFA dfa) ∧
    (FullGraphPartition.ofDFA dfa).flattenedTransitions.size = N := by
  obtain ⟨rs, N, target, hrs, hflat, htrans, hcln, hsize⟩ := FullGraphPartition.ofDFA_spec hwf
  have hpos : 0 < dfa.nodes.size := Nat.zero_lt_of_lt hwf.root_lt
  refine ⟨rs, N, _, target, hrs, ⟨hflat, ⟨?_, rfl⟩, ⟨htrans, hcln⟩, ?_⟩, hsize⟩
  · exact Partition.wf_initialized hpos
  · intro t ht t' ht'
    exact ⟨fun h => ⟨h, rfl⟩, fun h => h.1⟩

variable (ord : IterationOrder (List ℕ × List ℕ)) (f : ℕ → ℕ)

/-- The partition at the end, for every relation that respects actions and transitions. -/
lemma partition_spec (hwf : dfa.WF)
    (hE : Bisimulation dfa E) : ∃ rs N symbol target, Singular dfa dfa.nodes.size rs ∧
      LoopInv dfa rs N symbol target E (partition ord dfa) ∧
      (partition ord dfa).transitionPartition.sets.size ≤
        (partition ord dfa).nextTransitionSetToProcess := by
  obtain ⟨rs, N, symbol, target, hrs, hinv, hsize⟩ := ofDFA_inv hwf
  have hcrs : Coarse dfa.nodes.size E (FullGraphPartition.ofDFA dfa) := fun _ _ _ _ _ => rfl
  obtain ⟨hinv', hcrs', hnext, hflat, hslots⟩ := splitByActions_spec hE
    ((finalStates dfa).iterate ord) (fun slot hslot => mem_iterate.mp hslot) hinv hcrs
  have hact := sameActions_splitByActions (fun _ => mem_iterate)
    fun u hu v hv huv => (hslots u hu v hv huv).2
  rw [partition]
  generalize splitByActions ((finalStates dfa).iterate ord) (FullGraphPartition.ofDFA dfa) = g at *
  have hzero : g.nextTransitionSetToProcess = 0 := hnext
  have hagr : Agree dfa.nodes.size N symbol g.nextTransitionSetToProcess g := by
    rw [hzero]
    exact fun t _ ht => absurd ht (Nat.not_lt_zero _)
  have hfuel : N ≤ g.flattenedTransitions.size + g.nextTransitionSetToProcess := by
    rw [hflat, hsize]
    exact Nat.le_add_right _ _
  obtain ⟨hloop, hend⟩ := splitLoop_spec hE _ ⟨hinv', hagr, hact, hcrs'⟩ hfuel
  exact ⟨rs, N, symbol, target, hrs, hloop, hend⟩

variable {g : FullGraphPartition}

/-- A node is replaced by a node of its set. -/
lemma nodeReplacement_mem (h : Clean dfa.nodes.size g.nodePartition)
    (hi : i < dfa.nodes.size) : g.nodeReplacement i < dfa.nodes.size ∧
      g.nodePartition.setIndex (g.nodeReplacement i) = g.nodePartition.setIndex i :=
  h.1.firstElementInSet_mem (h.1.setIndex_lt i hi)

lemma nodeReplacement_eq_iff (h : Clean dfa.nodes.size g.nodePartition)
    {i j : ℕ} (hi : i < dfa.nodes.size) (hj : j < dfa.nodes.size) :
    g.nodeReplacement i = g.nodeReplacement j ↔
      g.nodePartition.setIndex i = g.nodePartition.setIndex j := by
  constructor
  · intro heq
    rw [← (nodeReplacement_mem h hi).2, heq, (nodeReplacement_mem h hj).2]
  · intro heq
    simp [FullGraphPartition.nodeReplacement, heq]

/-- Every related pair of nodes is replaced by the same node. -/
theorem nodeReplacement_coarse (hwf : dfa.WF) (hE : Bisimulation dfa E) {u v : ℕ}
    (hu : u < dfa.nodes.size) (hv : v < dfa.nodes.size) (huv : E u v) :
    (partition ord dfa).nodeReplacement u = (partition ord dfa).nodeReplacement v := by
  obtain ⟨rs, N, symbol, target, -, h, -⟩ := partition_spec ord hwf hE
  exact (nodeReplacement_eq_iff h.inv.nodes hu hv).mpr (h.coarse u hu v hv huv)

/-- A target of a node is a target for the symbol of a singular range. -/
lemma exists_singular {rs : List (Range ℕ)} (hrs : Singular dfa dfa.nodes.size rs)
    {u c w : ℕ} (hu : u < dfa.nodes.size) (hw : dfa.target u c = some w) :
    ∃ (j : ℕ) (q : Range ℕ), rs[j]? = some q ∧ q.first ≤ c ∧ c ≤ q.last := by
  obtain ⟨r, hr, h₁, h₂, -⟩ := lookup_eq_some hw
  obtain ⟨d, hd⟩ := isSome_iff_exists.mp ((hrs.subdivides u hu r hr).2 c h₁ h₂)
  obtain ⟨q, hq, h₃, h₄, -⟩ := lookup_eq_some hd
  obtain ⟨j, hj⟩ := mem_iff_getElem?.mp hq
  exact ⟨j, q, hj, h₃, h₄⟩

theorem replacement_partition (hwf : dfa.WF) :
    Replacement dfa (partition ord dfa).nodeReplacement := by
  have hE : Bisimulation dfa fun _ _ => False := fun _ _ _ _ h => h.elim
  obtain ⟨rs, N, symbol, target, hrs, h, hend⟩ := partition_spec ord hwf hE
  have hcln := h.inv.nodes
  have hset := fun i j hi hj => nodeReplacement_eq_iff hcln (i := i) (j := j) hi hj
  refine ⟨fun i hi => (nodeReplacement_mem hcln hi).1, fun i hi => ?_, ?_, ?_⟩
  · obtain ⟨hlt, heq⟩ := nodeReplacement_mem hcln hi
    exact (hset _ _ hlt hi).mpr heq
  · intro u hu v hv huv
    exact h.actions u hu v hv ((hset u v hu hv).mp huv)
  · -- a target of one node has a counterpart among the targets of the other
    have hhalf : ∀ u < dfa.nodes.size, ∀ v < dfa.nodes.size,
        (partition ord dfa).nodePartition.setIndex u =
          (partition ord dfa).nodePartition.setIndex v →
        ∀ c w, dfa.target u c = some w → ∃ w', dfa.target v c = some w' ∧
          (partition ord dfa).nodeReplacement w = (partition ord dfa).nodeReplacement w' := by
      intro u hu v hv huv c w hw
      obtain ⟨j, q, hq, h₁, h₂⟩ := exists_singular hrs hu hw
      have hqmem := mem_of_getElem? hq
      rw [hrs.target_eq hwf hu hu hqmem h₁ h₂] at hw
      obtain ⟨t, ht, rfl, rfl, rfl⟩ := (h.inv.flat.target_iff u hu j q hq w).mp hw
      obtain ⟨t', ht', hsrc, hsym, htgt⟩ := h.stable hend hv ht huv
      refine ⟨target t', ?_, ?_⟩
      · rw [hrs.target_eq hwf hv hv hqmem h₁ h₂]
        exact (h.inv.flat.target_iff v hv _ q hq _).mpr ⟨t', ht', hsrc, hsym, rfl⟩
      · exact (hset _ _ (h.inv.flat.target_lt t ht) (h.inv.flat.target_lt t' ht')).mpr htgt.symm
    intro u hu v hv huv c
    rw [hset u v hu hv] at huv
    cases hw : dfa.target u c with
    | some w =>
      obtain ⟨w', hw', heq⟩ := hhalf u hu v hv huv c w hw
      simp [hw', heq]
    | none =>
      cases hw' : dfa.target v c with
      | none => rfl
      | some w' =>
        obtain ⟨w, hw₂, -⟩ := hhalf v hv u hu huv.symm c w' hw'
        rw [hw] at hw₂
        simp at hw₂

/-! ### The minimized automaton -/

/-- The automaton in which `f` says which node stands for a node. -/
def replaceNodes (f : ℕ → ℕ) (dfa : DFA) : DFA where
  nodes := ⟨dfa.nodes.size, fun i =>
    relocate f (if i ≠ f i then DFANode.killed else dfa.nodes.get i)⟩
  root := f dfa.root

lemma minimize_eq (dfa : DFA) :
    minimize ord dfa = replaceNodes (partition ord dfa).nodeReplacement dfa := rfl

/-- Whether the node was killed does not matter: a killed node has neither actions nor
transitions. -/
lemma transitions_relocate (node : DFANode) :
    (relocate f node).transitions = node.transitions.map (Range.map f) := by
  unfold relocate
  split_ifs with hk
  · rw [(node.killed_empty hk).2, map_nil]
  · rfl

lemma actions_relocate (node : DFANode) : (relocate f node).actions = node.actions := by
  unfold relocate
  split_ifs <;> rfl

lemma isKilled_relocate (node : DFANode) : (relocate f node).isKilled = node.isKilled := by
  unfold relocate
  split_ifs with hk
  · rfl
  · simpa using hk

variable {f : ℕ → ℕ}

/-- Every node that replaces itself stays. -/
lemma get_replaceNodes (hi : f i = i) :
    (replaceNodes f dfa).nodes.get i = relocate f (dfa.nodes.get i) := by
  simp [replaceNodes, hi]

lemma get_replaceNodes_of_ne (hi : f i ≠ i) :
    (replaceNodes f dfa).nodes.get i = DFANode.killed := by
  simp [replaceNodes, relocate, hi.symm, DFANode.killed]

lemma target_replaceNodes (hi : f i = i) (c : ℕ) :
    (replaceNodes f dfa).target i c = (dfa.target i c).map f := by
  rw [DFA.target, get_replaceNodes hi, transitions_relocate, lookup_map]
  rfl

/-- No live node behaves like a killed one. -/
def KilledApart (dfa : DFA) : Prop :=
  ∀ i < dfa.nodes.size, ∀ j < dfa.nodes.size,
    (dfa.nodes.get i).isKilled = true → (dfa.nodes.get j).isKilled = false →
      (dfa.nodes.get j).actions ≠ [] ∨ (dfa.nodes.get j).transitions ≠ []

/-- The first range of a node is not empty. -/
lemma target_ne_none (hwf : dfa.WF) (hi : i < dfa.nodes.size)
    (hne : (dfa.nodes.get i).transitions ≠ []) : ∃ c, dfa.target i c ≠ none := by
  obtain ⟨r, rs, hrs⟩ := exists_cons_of_ne_nil hne
  have hmem : r ∈ (dfa.nodes.get i).transitions := hrs ▸ mem_cons_self
  have hle := (hwf.sorted i hi).first_le_last hmem
  refine ⟨r.first, ?_⟩
  rw [DFA.target, lookup_of_mem (hwf.sorted i hi) hmem le_rfl hle]
  exact some_ne_none _

lemma mem_transitions_replaceNodes {r : Range ℕ}
    (hr : r ∈ ((replaceNodes f dfa).nodes.get i).transitions) :
    ∃ r' ∈ (dfa.nodes.get i).transitions, r = r'.map f := by
  by_cases hself : f i = i
  · rw [get_replaceNodes hself, transitions_relocate] at hr
    obtain ⟨r', hr', rfl⟩ := mem_map.mp hr
    exact ⟨r', hr', rfl⟩
  · simp [get_replaceNodes_of_ne hself, DFANode.killed] at hr

lemma actions_replaceNodes_sublist (f : ℕ → ℕ) (dfa : DFA) (i : ℕ) :
    ((replaceNodes f dfa).nodes.get i).actions.Sublist (dfa.nodes.get i).actions := by
  by_cases hself : f i = i
  · rw [get_replaceNodes hself, actions_relocate]
  · rw [get_replaceNodes_of_ne hself]
    exact nil_sublist _

namespace Replacement

variable (h : Replacement dfa f) (hwf : dfa.WF)

include h

include hwf in
lemma wf : (replaceNodes f dfa).WF := by
  refine ⟨h.lt _ hwf.root_lt, ?_, ?_, ?_⟩
  · intro i hi
    by_cases hself : f i = i
    · rw [get_replaceNodes hself, transitions_relocate]
      exact sorted_map _ (hwf.sorted i hi)
    · rw [get_replaceNodes_of_ne hself]
      trivial
  · intro i hi r hr
    obtain ⟨r', hr', rfl⟩ := mem_transitions_replaceNodes hr
    exact hwf.last_le i hi r' hr'
  · intro i hi r hr
    obtain ⟨r', hr', rfl⟩ := mem_transitions_replaceNodes hr
    exact h.lt _ (hwf.target_lt i hi r' hr')

/-- The node that stands for a node behaves like it. -/
lemma node (hi : i < dfa.nodes.size) :
    ((replaceNodes f dfa).nodes.get (f i)).actions = (dfa.nodes.get i).actions ∧
      ∀ c, (replaceNodes f dfa).target (f i) c = (dfa.target i c).map f := by
  have hlt := h.lt i hi
  have hself := h.idem i hi
  constructor
  · rw [get_replaceNodes hself, actions_relocate]
    exact h.actions_eq _ hlt i hi hself
  · intro c
    rw [target_replaceNodes hself]
    exact h.target_eq _ hlt i hi hself c

include hwf

lemma runFrom (s : List ℕ) (hi : i < dfa.nodes.size) :
    (replaceNodes f dfa).runFrom (f i) s = (dfa.runFrom i s).map f := by
  induction s generalizing i with
  | nil => rfl
  | cons c s ih =>
    rw [DFA.runFrom, DFA.runFrom, (h.node hi).2]
    cases hj : dfa.target i c with
    | none => rfl
    | some j => exact ih (hwf.target_lt' hi hj)

lemma actionsAfter (s : List ℕ) : (replaceNodes f dfa).actionsAfter s = dfa.actionsAfter s := by
  have hrun : (replaceNodes f dfa).run s = (dfa.run s).map f := h.runFrom hwf s hwf.root_lt
  rw [DFA.actionsAfter, hrun, DFA.actionsAfter]
  cases hi : dfa.run s with
  | none => rfl
  | some i => exact congrArg some (h.node (hwf.runFrom_lt s hwf.root_lt hi)).1

variable (hkill : KilledApart dfa)

include hkill

/-- A live node is not replaced by a killed one, nor a killed one by a live one. -/
lemma isKilled (hi : i < dfa.nodes.size) :
    ((replaceNodes f dfa).nodes.get (f i)).isKilled = (dfa.nodes.get i).isKilled := by
  have hself := h.idem i hi
  have hapart : ∀ u < dfa.nodes.size, ∀ v < dfa.nodes.size, f u = f v →
      (dfa.nodes.get u).isKilled = true → (dfa.nodes.get v).isKilled = false → False := by
    intro u hu v hv huv hku hkv
    obtain ⟨hact, hts⟩ := (dfa.nodes.get u).killed_empty hku
    rcases hkill u hu v hv hku hkv with hne | hne
    · exact hne (h.actions_eq v hv u hu huv.symm ▸ hact)
    · obtain ⟨c, hc⟩ := target_ne_none hwf hv hne
      have hnone : dfa.target u c = none := by
        rw [DFA.target, hts]
        rfl
      have heq := h.target_eq u hu v hv huv c
      rw [hnone, map_none, eq_comm, map_eq_none_iff] at heq
      exact hc heq
  rw [get_replaceNodes hself, isKilled_relocate]
  cases hk : (dfa.nodes.get i).isKilled <;> cases hk' : (dfa.nodes.get (f i)).isKilled
  · rfl
  · exact (hapart _ (h.lt i hi) i hi hself hk' hk).elim
  · exact (hapart i hi _ (h.lt i hi) hself.symm hk hk').elim
  · rfl

lemma liveRunFrom (s : List ℕ) (hi : i < dfa.nodes.size) :
    (replaceNodes f dfa).liveRunFrom (f i) s = (dfa.liveRunFrom i s).map f := by
  induction s generalizing i with
  | nil => rfl
  | cons c s ih =>
    rw [DFA.liveRunFrom, DFA.liveRunFrom, (h.node hi).2]
    cases hj : dfa.target i c with
    | none => rfl
    | some j =>
      have hlt := hwf.target_lt' hi hj
      rw [map_some, filter_some, filter_some, h.isKilled hwf hkill hlt]
      split_ifs
      · exact ih hlt
      · rfl

lemma liveActionsAfter (s : List ℕ) :
    (replaceNodes f dfa).liveActionsAfter s = dfa.liveActionsAfter s := by
  have hroot : (replaceNodes f dfa).root = f dfa.root := rfl
  rw [DFA.liveActionsAfter, DFA.liveActionsAfter, hroot, h.isKilled hwf hkill hwf.root_lt,
    h.liveRunFrom hwf hkill s hwf.root_lt]
  split_ifs with hk
  · rfl
  · cases hi : dfa.liveRunFrom dfa.root s with
    | none => rfl
    | some i => exact congrArg some (h.node (hwf.liveRunFrom_lt s hwf.root_lt hi)).1

omit hwf hkill in
/-- A relation on the new automaton, read back on the original nodes. -/
lemma bisimulation (hE : Bisimulation (replaceNodes f dfa) E) :
    Bisimulation dfa fun u v => E (f u) (f v) := by
  intro u hu v hv huv
  obtain ⟨hact, htgts⟩ := hE _ (h.lt u hu) _ (h.lt v hv) huv
  obtain ⟨hactionsu, htargetsu⟩ := h.node hu
  obtain ⟨hactionsv, htargetsv⟩ := h.node hv
  constructor
  · rw [← hactionsu, hact, hactionsv]
  · intro c
    have h := htgts c
    rw [htargetsu, htargetsv] at h
    cases hu' : dfa.target u c <;> cases hv' : dfa.target v c <;> rw [hu', hv'] at h
    · exact .none
    · cases h
    · cases h
    · rcases h with ⟨h⟩
      exact .some h

end Replacement

lemma wf_minimize (hwf : dfa.WF) : (minimize ord dfa).WF := (replacement_partition ord hwf).wf hwf

/-- Both automata reach the same actions by the same strings. -/
theorem actionsAfter_minimize (hwf : dfa.WF)
    (s : List ℕ) : (minimize ord dfa).actionsAfter s = dfa.actionsAfter s :=
  (replacement_partition ord hwf).actionsAfter hwf s

/-- When no node was killed before, the root stays and the transitions lead to nodes that stay. -/
lemma live_minimize (hwf : dfa.WF)
    (hlive : ∀ i < dfa.nodes.size, (dfa.nodes.get i).isKilled = false) :
    ((minimize ord dfa).nodes.get (minimize ord dfa).root).isKilled = false ∧
      ∀ i < dfa.nodes.size, ∀ r ∈ ((minimize ord dfa).nodes.get i).transitions,
        ((minimize ord dfa).nodes.get r.data).isKilled = false := by
  have hkill : KilledApart dfa := by
    intro i hi _ _ hk
    rw [hlive i hi] at hk
    cases hk
  have hrep := replacement_partition ord hwf
  refine ⟨(hrep.isKilled hwf hkill hwf.root_lt).trans (hlive _ hwf.root_lt), ?_⟩
  intro i hi r hr
  obtain ⟨r', hr', rfl⟩ := mem_transitions_replaceNodes hr
  have hlt := hwf.target_lt i hi r' hr'
  exact (hrep.isKilled hwf hkill hlt).trans (hlive _ hlt)

/-- `minimize` preserves the behaviour and leaves one node of each class of bisimilar nodes. -/
theorem minimize_bisimulation_minimal (ord : IterationOrder (List ℕ × List ℕ)) (dfa : DFA)
    (hwf : dfa.WF) (hkill : KilledApart dfa) :
    (∀ s, (minimize ord dfa).liveActionsAfter s = dfa.liveActionsAfter s) ∧
    (∀ E, Bisimulation (minimize ord dfa) E → ∀ u < dfa.nodes.size, ∀ v < dfa.nodes.size,
      ((minimize ord dfa).nodes.get u).isKilled = false →
      ((minimize ord dfa).nodes.get v).isKilled = false → E u v → u = v) ∧
    (∀ E, Bisimulation dfa E → ∀ u < dfa.nodes.size, ∀ v < dfa.nodes.size, E u v →
      (partition ord dfa).nodeReplacement u = (partition ord dfa).nodeReplacement v) := by
  have hrep := replacement_partition ord hwf
  refine ⟨hrep.liveActionsAfter hwf hkill, ?_, ?_⟩
  · intro E hE u hu v hv hku hkv huv
    have hself : ∀ i, ((minimize ord dfa).nodes.get i).isKilled = false →
        (partition ord dfa).nodeReplacement i = i := by
      intro i hk
      by_contra hne
      rw [minimize_eq, get_replaceNodes_of_ne hne] at hk
      simp [DFANode.killed] at hk
    have huv' : E ((partition ord dfa).nodeReplacement u)
        ((partition ord dfa).nodeReplacement v) := by
      rwa [hself u hku, hself v hkv]
    rw [← hself u hku, ← hself v hkv]
    exact nodeReplacement_coarse ord hwf (hrep.bisimulation hE) hu hv huv'
  · intro E hE u hu v hv huv
    exact nodeReplacement_coarse ord hwf hE hu hv huv

/-- Two nodes with the same action, reached by different characters. -/
def twins : DFA :=
  ⟨⟨3, fun i =>
    if i = 0 then DFANode.live [] [⟨97, 97, 1⟩, ⟨98, 120, 2⟩] else DFANode.live [7] []⟩, 0⟩

lemma twins_wf : twins.WF := by
  constructor <;> decide

lemma killedApart_twins : KilledApart twins := by
  unfold KilledApart
  decide

theorem minimize_twins :
    (∀ s, (minimize .insertion twins).liveActionsAfter s = twins.liveActionsAfter s) ∧
    (∀ E, Bisimulation (minimize .insertion twins) E → ∀ u < 3, ∀ v < 3,
      ((minimize .insertion twins).nodes.get u).isKilled = false →
      ((minimize .insertion twins).nodes.get v).isKilled = false → E u v → u = v) ∧
    (∀ E, Bisimulation twins E → ∀ u < 3, ∀ v < 3, E u v →
      (partition .insertion twins).nodeReplacement u =
        (partition .insertion twins).nodeReplacement v) :=
  minimize_bisimulation_minimal .insertion twins twins_wf killedApart_twins

/-- A dead end after `a`, next to a killed node. -/
def killedTwin : DFA :=
  ⟨⟨3, fun i =>
    if i = 0 then DFANode.live [] [⟨97, 97, 2⟩]
    else if i = 1 then DFANode.killed else DFANode.live [] []⟩, 0⟩

/-- The dead end is replaced by the killed node, and its string is lost. -/
theorem minimize_killedTwin : killedTwin.WF ∧
    killedTwin.liveActionsAfter [97] = some [] ∧
    (minimize .insertion killedTwin).liveActionsAfter [97] = none := by
  refine ⟨?_, ?_, ?_⟩
  · constructor <;> decide
  · decide
  · decide

end

end DFAMinimizer

end WebKit.ContentExtensions
