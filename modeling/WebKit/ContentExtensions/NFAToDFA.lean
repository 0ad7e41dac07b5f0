import WebKit.WTF.HashSet
import WebKit.ContentExtensions.NFA
import WebKit.ContentExtensions.DFA
import WebKit.ContentExtensions.MutableRangeList

/-!
# `NFAToDFA`

The subset construction. The epsilon closure of every node is computed first. The transitions of
a set of nodes are then the combined range list of its nodes, whose data are closed sets.
-/

namespace WebKit.ContentExtensions

open RangeMap WTF List HashSet

namespace NFAToDFA

/-! ### The conversion -/

/-- The variables of the loop of `epsilonClosureExcludingSelf`. The last unprocessed node is the
head of the list. -/
structure ClosureState where
  closure : HashSet ℕ
  unprocessedNodes : List ℕ
  output : List ℕ

/-- Add the target of an epsilon transition. -/
def ClosureState.visit (st : ClosureState) (targetNodeId : ℕ) : ClosureState :=
  if st.closure.contains targetNodeId then st
  else
    { closure := st.closure.add targetNodeId
      unprocessedNodes := targetNodeId :: st.unprocessedNodes
      output := st.output ++ [targetNodeId] }

/-- A node is unprocessed once, so the nodes bound the number of iterations. -/
def closureLoop (nfa : NFA) : ℕ → ClosureState → ClosureState
  | 0, st => st
  | n + 1, st =>
    match st.unprocessedNodes with
    | [] => st
    | unprocessedNodeId :: rest =>
      closureLoop nfa n <|
        (nfa.nodes.get unprocessedNodeId).epsilonTransitionTargets.foldl ClosureState.visit
          { st with unprocessedNodes := rest }

def epsilonClosureExcludingSelf (nfa : NFA) (nodeId : ℕ) : List ℕ :=
  (closureLoop nfa nfa.nodes.size ⟨HashSet.empty.add nodeId, [nodeId], []⟩).output

/-- `DataConverterWithEpsilonClosure`. Extending skips the closure of a node that is already
there. -/
def dataConverterWithEpsilonClosure (closures : ℕ → List ℕ) : Converter (List ℕ) (HashSet ℕ) where
  convert iterable :=
    iterable.foldl (fun result nodeId => (result.add nodeId).addAll (closures nodeId)) HashSet.empty
  extend destination iterable := iterable.foldl (fun destination nodeId =>
        if destination.contains nodeId then destination
        else (destination.add nodeId).addAll (closures nodeId))
      destination

def createCombinedTransition (nfa : NFA) (closures : ℕ → List ℕ) (buffer : List ℕ) :
    MutableRangeList (HashSet ℕ) :=
  buffer.foldl (fun combinedRangeList nodeId =>
      combinedRangeList.extend (dataConverterWithEpsilonClosure closures)
        (nfa.transitionsForNode nodeId))
    Vec.empty

/-- The actions of a new node. More than 65535 of them fail the release assertion. -/
def translate (ord : IterationOrder ℕ) (nfa : NFA) (nodeIdSet : HashSet ℕ) : Option (List ℕ) :=
  let actions := (nodeIdSet.iterate ord).foldl
    (fun actions nfaNodeId => actions.addAll (nfa.nodes.get nfaNodeId).actions) HashSet.empty
  if (actions.iterate ord).length ≤ 65535 then some (storeActions (actions.iterate ord)) else none

/-- A set in the table is compared by its size and by the members of its buffer. -/
def equal (ord : IterationOrder ℕ) (a b : HashSet ℕ) : Bool :=
  (a.iterate ord).length == b.size && (a.iterate ord).all b.contains

/-- The table of node sets with `getOrCreateDFANode` and the loop of `convert`. -/
def problem (ord : IterationOrder ℕ) (nfa : NFA) : Explore.Problem (HashSet ℕ) (List ℕ) where
  same := equal ord
  make := translate ord nfa
  expand set :=
    (createCombinedTransition nfa (epsilonClosureExcludingSelf nfa) (set.iterate ord)).toList
  store := storeTransitions

def initialSet (nfa : NFA) : HashSet ℕ :=
  (HashSet.empty.add nfa.root).addAll (epsilonClosureExcludingSelf nfa nfa.root)

/-- There are `2 ^ nodes` sets of nodes, which bounds the iterations of the loop. -/
def convert (ord : IterationOrder ℕ) (nfa : NFA) : Option DFA :=
  (Explore.explore (problem ord nfa) (2 ^ nfa.nodes.size) (initialSet nfa)).map DFA.ofGraph

/-! ### Epsilon closures -/

variable {targets : List ℕ}

section

variable {nfa : NFA} {st : ClosureState} {nodeId : ℕ}

/-- The set is reached from `nodeId`, and only the targets in `pending` are missing for the nodes
that are not unprocessed. -/
structure ClosureState.Inv (nfa : NFA) (nodeId : ℕ) (st : ClosureState) (pending : List ℕ) :
    Prop where
  mem_iff : ∀ i, i ∈ st.closure ↔ i = nodeId ∨ i ∈ st.output
  reached : ∀ i ∈ st.closure, i ∈ nfa.toεNFA.εClosure {nodeId}
  pending_reached : ∀ i ∈ pending, i ∈ nfa.toεNFA.εClosure {nodeId}
  unprocessed_sub : ∀ i ∈ st.unprocessedNodes, i ∈ st.closure
  closed : ∀ i ∈ st.closure, i ∉ st.unprocessedNodes →
    ∀ t ∈ (nfa.nodes.get i).epsilonTransitionTargets, t ∈ st.closure ∨ t ∈ pending

lemma ClosureState.Inv.visit {t : ℕ} {pending : List ℕ} (h : st.Inv nfa nodeId (t :: pending)) :
    (st.visit t).Inv nfa nodeId pending := by
  have hpend : ∀ i ∈ pending, i ∈ nfa.toεNFA.εClosure {nodeId} :=
    fun i hi => h.pending_reached i (mem_cons_of_mem _ hi)
  unfold ClosureState.visit
  split_ifs with ht
  · rw [contains_eq_true] at ht
    refine ⟨h.mem_iff, h.reached, hpend, h.unprocessed_sub, ?_⟩
    intro i hi hu t' ht'
    rcases h.closed i hi hu t' ht' with hc | hp
    · exact .inl hc
    · rcases mem_cons.mp hp with rfl | hp
      · exact .inl ht
      · exact .inr hp
  · refine ⟨?_, ?_, hpend, ?_, ?_⟩
    · intro i
      simp only [mem_add, h.mem_iff, mem_append, mem_singleton, or_assoc]
    · intro i hi
      rcases mem_add.mp hi with hi | rfl
      · exact h.reached i hi
      · exact h.pending_reached i mem_cons_self
    · intro i hi
      rcases mem_cons.mp hi with rfl | hi
      · exact mem_add.mpr (.inr rfl)
      · exact mem_add.mpr (.inl (h.unprocessed_sub i hi))
    · intro i hi hu t' ht'
      simp only [mem_cons, not_or] at hu
      rcases mem_add.mp hi with hi | rfl
      · rcases h.closed i hi hu.2 t' ht' with hc | hp
        · exact .inl (mem_add.mpr (.inl hc))
        · rcases mem_cons.mp hp with rfl | hp
          · exact .inl (mem_add.mpr (.inr rfl))
          · exact .inr hp
      · exact absurd rfl hu.1

/-- A visit adds the same number of nodes to the closure and to the unprocessed nodes. -/
lemma ClosureState.visit_size (t : ℕ) :
    (st.visit t).closure.size + st.unprocessedNodes.length =
      st.closure.size + (st.visit t).unprocessedNodes.length := by
  unfold ClosureState.visit
  split_ifs with ht
  · rfl
  · rw [contains_eq_true] at ht
    rw [size_add_of_not_mem ht, length_cons]
    omega

lemma ClosureState.Inv.foldl_visit (h : st.Inv nfa nodeId targets) :
    (targets.foldl ClosureState.visit st).Inv nfa nodeId [] ∧
      (targets.foldl ClosureState.visit st).closure.size + st.unprocessedNodes.length =
        st.closure.size + (targets.foldl ClosureState.visit st).unprocessedNodes.length := by
  induction targets generalizing st with
  | nil => exact ⟨h, rfl⟩
  | cons t targets ih =>
    obtain ⟨hinv, hsize⟩ := ih h.visit
    have hvisit := st.visit_size t
    refine ⟨hinv, ?_⟩
    simp only [foldl_cons]
    omega

lemma ClosureState.Inv.closureLoop (hwf : nfa.WF) (hnode : nodeId < nfa.nodes.size) (n : ℕ)
    (h : st.Inv nfa nodeId [])
    (hn : nfa.nodes.size + st.unprocessedNodes.length ≤ n + st.closure.size) :
    (closureLoop nfa n st).Inv nfa nodeId [] ∧ (closureLoop nfa n st).unprocessedNodes = [] := by
  induction n generalizing st with
  | zero =>
    have hsize : st.closure.size ≤ nfa.nodes.size :=
      size_le fun i hi => hwf.εClosure_lt (by simpa using hnode) i (h.reached i hi)
    have hnil : st.unprocessedNodes = [] := length_eq_zero_iff.mp (by omega)
    exact ⟨h, hnil⟩
  | succ n ih =>
    unfold NFAToDFA.closureLoop
    cases hu : st.unprocessedNodes with
    | nil => exact ⟨h, hu⟩
    | cons u rest =>
      have hmem : u ∈ st.closure := h.unprocessed_sub u (by simp [hu])
      have hst : ClosureState.Inv nfa nodeId { st with unprocessedNodes := rest }
          (nfa.nodes.get u).epsilonTransitionTargets := by
        refine ⟨h.mem_iff, h.reached, ?_, ?_, ?_⟩
        · exact fun t ht => εNFA.εClosure.step u t ht (h.reached u hmem)
        · exact fun i hi => h.unprocessed_sub i (by simp [hu, hi])
        · intro i hi hrest t ht
          by_cases hiu : i = u
          · exact .inr (hiu ▸ ht)
          · refine .inl ((h.closed i hi ?_ t ht).resolve_right not_mem_nil)
            simpa [hu, hiu] using hrest
      obtain ⟨hinv, hsize⟩ := hst.foldl_visit
      refine ih hinv ?_
      rw [hu, length_cons] at hn
      simp only at hsize
      omega

/-- A node with its computed closure is its epsilon closure. -/
theorem mem_epsilonClosure (hwf : nfa.WF) (hnode : nodeId < nfa.nodes.size) (i : ℕ) :
    i = nodeId ∨ i ∈ epsilonClosureExcludingSelf nfa nodeId ↔ i ∈ nfa.toεNFA.εClosure {nodeId} := by
  have hst : ClosureState.Inv nfa nodeId ⟨empty.add nodeId, [nodeId], []⟩ [] := by
    refine ⟨by simp, ?_, by simp, by simp, by simp⟩
    intro i hi
    obtain rfl : i = nodeId := by simpa using hi
    exact εNFA.εClosure.base i rfl
  obtain ⟨hinv, hnil⟩ := hst.closureLoop hwf hnode nfa.nodes.size (by
    rw [size_add_of_not_mem (not_mem_empty _)]
    simp)
  rw [epsilonClosureExcludingSelf, ← hinv.mem_iff]
  refine ⟨hinv.reached i, fun hi => ?_⟩
  induction hi with
  | base i hi => exact (hinv.mem_iff i).mpr (.inl hi)
  | step i t ht _ ih =>
    exact (hinv.closed i ih (by simp [hnil]) t ht).resolve_right not_mem_nil

end

/-! ### Combined transitions -/

section

variable {nfa : NFA}

/-- The set of nodes that a hash set holds. -/
def nodeSet (s : HashSet ℕ) : Set ℕ := {i | i ∈ s}

@[simp] lemma mem_nodeSet {s : HashSet ℕ} {i : ℕ} : i ∈ nodeSet s ↔ i ∈ s := Iff.rfl

open Classical in
/-- The empty set of nodes has no node in the deterministic automaton. -/
noncomputable def ofSet (S : Set ℕ) : Option (Set ℕ) := if S = ∅ then none else some S

lemma ofSet_empty : ofSet ∅ = none := if_pos rfl

variable {S : Set ℕ}

lemma ofSet_of_nonempty (h : S.Nonempty) : ofSet S = some S := if_neg h.ne_empty

lemma ofSet_eq_none : ofSet S = none ↔ S = ∅ := by
  unfold ofSet
  split_ifs with h <;> simp [h]

lemma ofSet_eq_some {S T : Set ℕ} : ofSet S = some T ↔ S = T ∧ S.Nonempty := by
  unfold ofSet
  split_ifs with h
  · simp [h]
  · simp [Set.nonempty_iff_ne_empty, h]

lemma eq_of_map_eq_ofSet {o : Option ℕ} {f : ℕ → Set ℕ} (h : o.map f = ofSet S) {i : ℕ}
    (hi : o = some i) : f i = S := by
  rw [hi, Option.map_some, eq_comm, ofSet_eq_some] at h
  exact h.1.symm

lemma mem_convert (hwf : nfa.WF) (ht : ∀ t ∈ targets, t < nfa.nodes.size) (i : ℕ) :
    i ∈ (dataConverterWithEpsilonClosure (epsilonClosureExcludingSelf nfa)).convert targets ↔
      i ∈ nfa.toεNFA.εClosure {t | t ∈ targets} := by
  rw [εNFA.mem_εClosure_iff_exists]
  refine (foldl_iff (P := (i ∈ ·)) (fun result t h => ?_) empty).trans
    (or_iff_right (not_mem_empty i))
  simp [or_assoc, mem_epsilonClosure hwf (ht t h)]

/-- Skipping the closure of a node that is there loses nothing when the set is closed. -/
lemma mem_extend (hwf : nfa.WF) (ht : ∀ t ∈ targets, t < nfa.nodes.size) {destination : HashSet ℕ}
    (hcls : ∀ i ∈ destination, ∀ j ∈ nfa.toεNFA.εClosure {i}, j ∈ destination) (i : ℕ) :
    i ∈ (dataConverterWithEpsilonClosure (epsilonClosureExcludingSelf nfa)).extend destination
        targets ↔
      i ∈ destination ∨ i ∈ nfa.toεNFA.εClosure {t | t ∈ targets} := by
  rw [εNFA.mem_εClosure_iff_exists]
  unfold dataConverterWithEpsilonClosure
  induction targets generalizing destination with
  | nil => simp
  | cons t targets ih =>
    rw [forall_mem_cons] at ht
    simp only [foldl_cons]
    split_ifs with hmem
    · rw [contains_eq_true] at hmem
      refine (ih ht.2 hcls).trans ⟨?_, ?_⟩
      · rintro (hi | ⟨t', ht', hi⟩)
        · exact .inl hi
        · exact .inr ⟨t', mem_cons_of_mem _ ht', hi⟩
      · rintro (hi | ⟨t', ht', hi⟩)
        · exact .inl hi
        · rcases mem_cons.mp ht' with rfl | ht'
          · exact .inl (hcls t' hmem i hi)
          · exact .inr ⟨t', ht', hi⟩
    · have hadd : ∀ j, j ∈ (destination.add t).addAll (epsilonClosureExcludingSelf nfa t) ↔
          j ∈ destination ∨ j ∈ nfa.toεNFA.εClosure {t} := by
        simp [or_assoc, mem_epsilonClosure hwf ht.1]
      have hcls' : ∀ j ∈ (destination.add t).addAll (epsilonClosureExcludingSelf nfa t),
          ∀ k ∈ nfa.toεNFA.εClosure {j},
            k ∈ (destination.add t).addAll (epsilonClosureExcludingSelf nfa t) := by
        intro j hj k hk
        rw [hadd] at hj ⊢
        exact hj.imp (fun hj => hcls j hj k hk) fun hj => NFA.εClosure_trans hj hk
      rw [ih ht.2 hcls', hadd, or_assoc]
      simp

lemma mem_stepSet_of_εClosure {c i j : ℕ} (hi : i ∈ nfa.toεNFA.stepSet S c)
    (hj : j ∈ nfa.toεNFA.εClosure {i}) : j ∈ nfa.toεNFA.stepSet S c := by
  rw [εNFA.mem_stepSet_iff] at hi ⊢
  obtain ⟨k, hk, hi⟩ := hi
  exact ⟨k, hk, NFA.εClosure_trans hi hj⟩

/-- Extending the combined data of a character by the targets of one more node. -/
lemma combine_targets (hwf : nfa.WF) {c i : ℕ} (hi : i < nfa.nodes.size)
    {d : Option (HashSet ℕ)} (hd : d.map nodeSet = ofSet (nfa.toεNFA.stepSet S c)) :
    ((dataConverterWithEpsilonClosure (epsilonClosureExcludingSelf nfa)).combine d
        (lookup (nfa.transitionsForNode i) c)).map nodeSet =
      ofSet (nfa.toεNFA.stepSet S c ∪ nfa.toεNFA.εClosure (nfa.toεNFA.step i (some c))) := by
  cases hlook : lookup (nfa.transitionsForNode i) c with
  | none =>
    have hemp : nfa.toεNFA.step i (some c) = ∅ := by
      ext t
      simp [hlook]
    simp [hd, hemp]
  | some targets =>
    have hstep : nfa.toεNFA.step i (some c) = {t | t ∈ targets} := by
      ext t
      simp [hlook]
    obtain ⟨r, hr, -, -, rfl⟩ := lookup_eq_some hlook
    have hlt := hwf.target_lt i hi r hr
    have hne : (nfa.toεNFA.εClosure {t | t ∈ r.data}).Nonempty := by
      obtain ⟨t, ht⟩ := exists_mem_of_ne_nil _ (hwf.data_ne_nil i hi r hr)
      exact ⟨t, εNFA.εClosure.base t ht⟩
    rw [hstep, ofSet_of_nonempty (hne.inr)]
    cases d with
    | none =>
      have hS : nfa.toεNFA.stepSet S c = ∅ := ofSet_eq_none.mp hd.symm
      simp only [Converter.none_combine, Option.map_some, hS, Set.empty_union, Option.some.injEq]
      exact Set.ext fun j => mem_convert hwf hlt j
    | some destination =>
      have hS : nfa.toεNFA.stepSet S c = nodeSet destination := (ofSet_eq_some.mp hd.symm).1
      have hcls : ∀ j ∈ destination, ∀ k ∈ nfa.toεNFA.εClosure {j}, k ∈ destination := by
        intro j hj k hk
        rw [← mem_nodeSet, ← hS] at hj ⊢
        exact mem_stepSet_of_εClosure hj hk
      simp only [Converter.some_combine_some, Option.map_some, hS, Option.some.injEq]
      exact Set.ext fun j => mem_extend hwf hlt hcls j

/-- The combined range list of a set of nodes stands for its subset transitions. -/
theorem createCombinedTransition_holds (hwf : nfa.WF) (buffer : List ℕ)
    (hbuf : ∀ i ∈ buffer, i < nfa.nodes.size) :
    ∃ f, MutableRangeList.Holds 127
        (createCombinedTransition nfa (epsilonClosureExcludingSelf nfa) buffer) f ∧
      ∀ c, (f c).map nodeSet = ofSet (nfa.toεNFA.stepSet {i | i ∈ buffer} c) := by
  induction buffer using reverseRecOn with
  | nil =>
    refine ⟨_, MutableRangeList.holds_empty 127, fun c => ?_⟩
    simp [ofSet_eq_none.mpr]
  | append_singleton buffer i ih =>
    simp only [mem_append, mem_singleton, or_imp, forall_and, forall_eq] at hbuf
    obtain ⟨f, hf, hstep⟩ := ih hbuf.1
    refine ⟨fun c => (dataConverterWithEpsilonClosure (epsilonClosureExcludingSelf nfa)).combine
      (f c) (lookup (nfa.transitionsForNode i) c), ?_, fun c => ?_⟩
    · rw [createCombinedTransition, foldl_append]
      exact hf.extend _ (hwf.sorted i hbuf.2) (hwf.last_le i hbuf.2)
    · rw [combine_targets hwf hbuf.2 (hstep c)]
      congr 1
      ext j
      simp only [Set.mem_union, εNFA.mem_stepSet_iff, mem_append, mem_singleton]
      constructor
      · rintro (⟨k, hk, hj⟩ | hj)
        · exact ⟨k, .inl hk, hj⟩
        · exact ⟨i, .inr rfl, hj⟩
      · rintro ⟨k, hk | rfl, hj⟩
        · exact .inl ⟨k, hk, hj⟩
        · exact .inr hj

end

/-! ### The subset automaton -/

section

variable {nfa : NFA} {ord : IterationOrder ℕ}

/-- The transition function on sets of nodes. -/
noncomputable def subsetStep (nfa : NFA) (S : Set ℕ) (c : ℕ) : Option (Set ℕ) :=
  ofSet (nfa.toεNFA.stepSet S c)

/-- The sets that the conversion meets. -/
def Reached (nfa : NFA) (set : HashSet ℕ) : Prop := ∃ s, nodeSet set = nfa.eval s

variable {set : HashSet ℕ}

lemma Reached.lt (hwf : nfa.WF) (h : Reached nfa set) : ∀ i ∈ set, i < nfa.nodes.size := by
  obtain ⟨s, hs⟩ := h
  intro i hi
  refine hwf.eval_lt s i ?_
  rw [← hs]
  exact hi

lemma equal_iff (a b : HashSet ℕ) : equal ord a b = true ↔ nodeSet a = nodeSet b := by
  have hall : (a.iterate ord).all b.contains = true ↔ a.elements ⊆ b.elements := by
    simp [subset_def, HashSet.mem_def]
  rw [equal, Bool.and_eq_true, hall, HashSet.length_iterate, beq_iff_eq]
  constructor
  · rintro ⟨hsize, hsub⟩
    have hperm : a.elements.Perm b.elements := (a.nodup.subperm hsub).perm_of_length_le hsize.ge
    exact Set.ext fun i => hperm.mem_iff
  · intro h
    have hmem : ∀ i, i ∈ a.elements ↔ i ∈ b.elements := fun i => Set.ext_iff.mp h i
    refine ⟨?_, fun i hi => (hmem i).mp hi⟩
    exact ((perm_ext_iff_of_nodup a.nodup b.nodup).mpr hmem).length_eq

lemma mem_foldl_actions (ids : List ℕ) (actions : HashSet ℕ) (a : ℕ) :
    a ∈ ids.foldl (fun actions id => actions.addAll (nfa.nodes.get id).actions) actions ↔
      a ∈ actions ∨ ∃ id ∈ ids, a ∈ (nfa.nodes.get id).actions :=
  foldl_iff (P := (a ∈ ·)) (Q := fun id => a ∈ (nfa.nodes.get id).actions)
    (fun _ _ _ => mem_addAll) actions

/-- With at most 65535 actions a set gets exactly the actions of its nodes. -/
lemma translate_eq_some (h : (nfa.actionsOf (nodeSet set)).encard ≤ 65535) :
    ∃ actions, translate ord nfa set = some actions ∧
      ∀ a, a ∈ actions ↔ a ∈ nfa.actionsOf (nodeSet set) := by
  have hmem : ∀ a, a ∈ ((set.iterate ord).foldl
      (fun actions id => actions.addAll (nfa.nodes.get id).actions) HashSet.empty).iterate ord ↔
      a ∈ nfa.actionsOf (nodeSet set) := by
    intro a
    rw [HashSet.mem_iterate, mem_foldl_actions]
    simp [NFA.actionsOf]
  unfold translate
  generalize hact : (set.iterate ord).foldl
    (fun actions id => actions.addAll (nfa.nodes.get id).actions) HashSet.empty = actions at hmem
  have hlen : (actions.iterate ord).length ≤ 65535 := by
    have hset : nfa.actionsOf (nodeSet set) = ((actions.iterate ord).toFinset : Set ℕ) := by
      ext a
      rw [coe_toFinset]
      exact (hmem a).symm
    rw [hset, Set.encard_coe_eq_coe_finsetCard,
      toFinset_card_of_nodup (actions.nodup_iterate ord)] at h
    exact_mod_cast h
  refine ⟨actions.iterate ord, ?_, hmem⟩
  rw [if_pos hlen, storeActions_eq hlen]

lemma nodeSet_iterate : {i | i ∈ set.iterate ord} = nodeSet set := Set.ext fun _ => mem_iterate

/-- The combined range list of a reached set stands for its subset transitions. -/
lemma Reached.holds (ord : IterationOrder ℕ) (hwf : nfa.WF) (hset : Reached nfa set) :
    ∃ f, MutableRangeList.Holds 127
        (createCombinedTransition nfa (epsilonClosureExcludingSelf nfa) (set.iterate ord)) f ∧
      ∀ c, (f c).map nodeSet = subsetStep nfa (nodeSet set) c := by
  have hlt : ∀ i ∈ set.iterate ord, i < nfa.nodes.size :=
    fun i hi => hset.lt hwf i (mem_iterate.mp hi)
  obtain ⟨f, hf, hstep⟩ := createCombinedTransition_holds hwf (set.iterate ord) hlt
  exact ⟨f, hf, fun c => by rw [hstep, nodeSet_iterate, subsetStep]⟩

lemma last_le_of_mem_expand (hwf : nfa.WF) (hset : Reached nfa set) :
    ∀ r ∈ (problem ord nfa).expand set, r.last ≤ 127 := by
  obtain ⟨f, hf, -⟩ := hset.holds ord hwf
  exact hf.last_le

/-- Node sets stand for the sets of nodes they hold. -/
lemma problem_denotes (ord : IterationOrder ℕ) (hwf : nfa.WF)
    (hact : ∀ s, (nfa.actionsOf (nfa.eval s)).encard ≤ 65535) :
    Explore.Denotes (problem ord nfa) (Reached nfa) nodeSet (subsetStep nfa) := by
  have hlookup : ∀ set, Reached nfa set → ∀ c,
      (lookup ((problem ord nfa).expand set) c).map nodeSet = subsetStep nfa (nodeSet set) c := by
    intro set hset c
    obtain ⟨f, hf, hstep⟩ := hset.holds ord hwf
    rw [problem, hf.lookup_eq, hstep]
  have hsort : ∀ set, Reached nfa set → Sorted ((problem ord nfa).expand set) := by
    intro set hset
    obtain ⟨f, hf, -⟩ := hset.holds ord hwf
    exact hf.sorted
  refine ⟨fun a b _ _ => equal_iff a b, ?_, hsort, ?_, hlookup, ?_⟩
  · rintro set ⟨s, hs⟩
    obtain ⟨actions, hsome, -⟩ := translate_eq_some (hs ▸ hact s)
    exact Option.isSome_iff_exists.mpr ⟨actions, hsome⟩
  · intro set hset r hr
    have hlook := hlookup set hset r.first
    rw [lookup_of_mem (hsort set hset) hr le_rfl ((hsort set hset).first_le_last hr)] at hlook
    obtain ⟨s, hs⟩ := hset
    have hdata := (ofSet_eq_some.mp hlook.symm).1
    exact ⟨s ++ [r.first], by rw [NFA.eval_append_singleton, ← hs, hdata]⟩
  · intro set hset ts hts
    refine storeTransitions_eq ?_
    rw [hts]
    exact (hsort set hset).length_le (fun _ _ => Nat.zero_le _) (last_le_of_mem_expand hwf hset)

lemma eval_append_of_empty {s : List ℕ} (hs : nfa.eval s = ∅) (t : List ℕ) :
    nfa.eval (s ++ t) = ∅ := by
  induction t using reverseRecOn with
  | nil => simpa using hs
  | append_singleton t c ih =>
    rw [← append_assoc, NFA.eval_append_singleton, ih, εNFA.stepSet_empty]

/-- A run on sets of nodes gives the nodes reached by the string. -/
lemma runStep_eval (s t : List ℕ) (hs : (nfa.eval s).Nonempty) :
    Explore.runStep (subsetStep nfa) (nfa.eval s) t = ofSet (nfa.eval (s ++ t)) := by
  induction t generalizing s with
  | nil => simp [ofSet_of_nonempty hs, Explore.runStep]
  | cons c t ih =>
    have happ : s ++ c :: t = s ++ [c] ++ t := by simp
    rw [Explore.runStep, subsetStep, ← NFA.eval_append_singleton, happ]
    rcases Set.eq_empty_or_nonempty (nfa.eval (s ++ [c])) with hemp | hne
    · rw [eval_append_of_empty hemp, hemp, ofSet_empty, Option.bind_none]
    · simp [ofSet_of_nonempty hne, ih _ hne]

lemma nodeSet_initialSet (hwf : nfa.WF) : nodeSet (initialSet nfa) = nfa.eval [] := by
  ext i
  rw [NFA.eval_nil, ← mem_epsilonClosure hwf hwf.root_lt]
  simp [initialSet]

lemma eval_nil_nonempty : (nfa.eval []).Nonempty := ⟨nfa.root, εNFA.εClosure.base _ rfl⟩

/-- The sets reached are among the `2 ^ nodes` sets of nodes. -/
lemma exists_finset_reached (hwf : nfa.WF) :
    ∃ S : Finset (Set ℕ), S.card ≤ 2 ^ nfa.nodes.size ∧ ∀ s, nfa.eval s ∈ S := by
  classical
  refine ⟨(Finset.range nfa.nodes.size).powerset.image fun F : Finset ℕ => F, ?_, fun s => ?_⟩
  · refine Finset.card_image_le.trans ?_
    simp
  · refine Finset.mem_image.mpr ⟨(Finset.range nfa.nodes.size).filter (· ∈ nfa.eval s), ?_, ?_⟩
    · exact Finset.mem_powerset.mpr (Finset.filter_subset _ _)
    · ext i
      simpa using hwf.eval_lt s i

/-- The automaton whose nodes stand for the sets of nodes that the strings reach. -/
structure IsSubsetAutomaton (nfa : NFA) (dfa : DFA) (subset : ℕ → Set ℕ) : Prop where
  wf : dfa.WF
  live : ∀ i, (dfa.nodes.get i).isKilled = false
  map_run : ∀ s, (dfa.run s).map subset = ofSet (nfa.eval s)
  mem_actions : ∀ s i, dfa.run s = some i →
    ∀ a, a ∈ (dfa.nodes.get i).actions ↔ a ∈ nfa.actionsOf (nfa.eval s)
  injOn : Set.InjOn subset {i | i < dfa.nodes.size}
  reached : ∀ i < dfa.nodes.size, ∃ s, dfa.run s = some i

lemma exists_convert (ord : IterationOrder ℕ) (hwf : nfa.WF)
    (hactions : ∀ s, (nfa.actionsOf (nfa.eval s)).encard ≤ 65535) :
    ∃ dfa subset, convert ord nfa = some dfa ∧ IsSubsetAutomaton nfa dfa subset := by
  have hP := problem_denotes ord hwf hactions
  have hroot : nodeSet (initialSet nfa) = nfa.eval [] := nodeSet_initialSet hwf
  have hrun : ∀ s, Explore.runStep (subsetStep nfa) (nodeSet (initialSet nfa)) s =
      ofSet (nfa.eval s) := by
    intro s
    rw [hroot, runStep_eval [] s eval_nil_nonempty, nil_append]
  obtain ⟨S, hcard, hS⟩ := exists_finset_reached hwf
  obtain ⟨nodes, key, hexplore, hreal⟩ := Explore.explore_realizes hP ⟨[], hroot⟩ S
    (fun s d hd => by
      rw [hrun, ofSet_eq_some] at hd
      exact hd.1 ▸ hS s) hcard
  have hmap : ∀ s, ((DFA.ofGraph nodes).run s).map (nodeSet ∘ key) = ofSet (nfa.eval s) :=
    fun s => (DFA.map_run_ofGraph hreal s).trans (hrun s)
  have hdfa : (DFA.ofGraph nodes).WF :=
    DFA.wf_ofGraph hreal hP fun set hset => last_le_of_mem_expand hwf hset
  refine ⟨DFA.ofGraph nodes, nodeSet ∘ key, by rw [convert, hexplore, Option.map_some],
    hdfa, fun _ => rfl, hmap, ?_, ?_, ?_⟩
  · intro s i hi a
    have hlt : i < nodes.size := hdfa.runFrom_lt s hdfa.root_lt hi
    have hset : nodeSet (key i) = nfa.eval s := eq_of_map_eq_ofSet (hmap s) hi
    obtain ⟨actions, hsome, hmem⟩ := translate_eq_some (hset ▸ hactions s)
    have hlabel : translate ord nfa (key i) = some (nodes.get i).label := hreal.make_eq i hlt
    rw [hsome, Option.some.injEq] at hlabel
    rw [← hset, ← hmem, hlabel]
    rfl
  · exact fun i hi j hj hij => hreal.injective i hi j hj hij
  · exact fun i hi => DFA.exists_run_ofGraph hreal hi

lemma IsSubsetAutomaton.isSome_run {dfa : DFA} {subset : ℕ → Set ℕ}
    (h : IsSubsetAutomaton nfa dfa subset) (s : List ℕ) :
    (dfa.run s).isSome ↔ (nfa.eval s).Nonempty := by
  rw [← Option.isSome_map, h.map_run, Set.nonempty_iff_ne_empty, ne_eq, ← ofSet_eq_none,
    Option.isSome_iff_ne_none]

/-- The conversion ends, and its result is the subset automaton: a string can be consumed when
some node of the nondeterministic automaton is reached by it, the node reached has the actions of
the nodes reached, the transitions are sorted and disjoint, and different nodes stand for
different sets of nodes. -/
theorem convert_subset_automaton (ord : IterationOrder ℕ) (nfa : NFA) (hwf : nfa.WF)
    (hactions : ∀ s, (nfa.actionsOf (nfa.eval s)).encard ≤ 65535) :
    ∃ dfa, convert ord nfa = some dfa ∧ dfa.WF ∧
      (∀ s, (dfa.run s).isSome ↔ (nfa.eval s).Nonempty) ∧
      (∀ s i, dfa.run s = some i →
        ∀ a, a ∈ (dfa.nodes.get i).actions ↔ a ∈ nfa.actionsOf (nfa.eval s)) ∧
      (∀ i < dfa.nodes.size, Sorted (dfa.nodes.get i).transitions) ∧
      ∃ subset : ℕ → Set ℕ, (∀ s i, dfa.run s = some i → subset i = nfa.eval s) ∧
        Set.InjOn subset {i | i < dfa.nodes.size} ∧
        ∀ i < dfa.nodes.size, ∃ s, dfa.run s = some i := by
  obtain ⟨dfa, subset, hconvert, h⟩ := exists_convert ord hwf hactions
  exact ⟨dfa, hconvert, h.wf, h.isSome_run, h.mem_actions, h.wf.sorted, subset,
    fun s _ hi => eq_of_map_eq_ofSet (h.map_run s) hi, h.injOn, h.reached⟩

/-- Two nodes with epsilon transitions to each other, one of them with an action. -/
def cyclicNFA : NFA :=
  ⟨⟨2, fun i => if i = 0 then ⟨[⟨97, 99, [0, 1]⟩], [1], []⟩ else ⟨[⟨98, 122, [1]⟩], [0], [7]⟩⟩⟩

lemma cyclicNFA_wf : cyclicNFA.WF := by
  constructor <;> decide

lemma encard_actionsOf_cyclicNFA (S : Set ℕ) : (cyclicNFA.actionsOf S).encard ≤ 65535 := by
  have hsub : cyclicNFA.actionsOf S ⊆ {7} := by
    rintro a ⟨i, -, ha⟩
    by_cases hi : i = 0 <;> simp_all [cyclicNFA]
  exact (Set.encard_le_encard hsub).trans (by simp)

theorem convert_cyclicNFA :
    ∃ dfa, convert .insertion cyclicNFA = some dfa ∧ dfa.WF ∧
      (∀ s, (dfa.run s).isSome ↔ (cyclicNFA.eval s).Nonempty) ∧
      (∀ s i, dfa.run s = some i →
        ∀ a, a ∈ (dfa.nodes.get i).actions ↔ a ∈ cyclicNFA.actionsOf (cyclicNFA.eval s)) ∧
      (∀ i < dfa.nodes.size, Sorted (dfa.nodes.get i).transitions) ∧
      ∃ subset : ℕ → Set ℕ, (∀ s i, dfa.run s = some i → subset i = cyclicNFA.eval s) ∧
        Set.InjOn subset {i | i < dfa.nodes.size} ∧
        ∀ i < dfa.nodes.size, ∃ s, dfa.run s = some i :=
  convert_subset_automaton .insertion cyclicNFA cyclicNFA_wf fun _ =>
    encard_actionsOf_cyclicNFA _

end

end NFAToDFA

end WebKit.ContentExtensions
