import WebKit.ContentExtensions.DFAMinimizer

/-!
# `DFACombiner`

Two automata are merged by exploring the pairs of nodes that they reach together. A pair is packed
into 64 bits, and a half with all bits set stands for an automaton that cannot follow any more.
`combineDFAs` merges small automata until they are large enough for the handler.
-/

namespace WebKit.ContentExtensions

open RangeMap WTF List Option WebKit.ContentExtensions.DFA
open BitVec hiding append_assoc

/-! ### Merging two automata -/

variable {dfa : DFA}

namespace DFAMerger

inductive WhichDFA where
  | A
  | B
  deriving DecidableEq

def invalidNodeIndex : BitVec 32 := 0xffffffff#32

def signatureForIndices (aIndex bIndex : BitVec 32) : BitVec 64 :=
  aIndex.setWidth 64 <<< 32 ||| bIndex.setWidth 64

def extractIndexA (signature : BitVec 64) : BitVec 32 := (signature >>> 32).setWidth 32

def extractIndexB (signature : BitVec 64) : BitVec 32 := signature.setWidth 32

def setHalfSignature (whichDFA : WhichDFA) (signature : BitVec 64) (value : BitVec 32) :
    BitVec 64 :=
  let shiftAmount := if whichDFA = .A then 32 else 0
  let mask := 0xffffffff#64 <<< (32 - shiftAmount)
  signature &&& mask ||| value.setWidth 64 <<< shiftAmount

def targetConverter (whichDFA : WhichDFA) : Converter ℕ (BitVec 64) where
  convert target := setHalfSignature whichDFA 0xffffffffffffffff#64 (BitVec.ofNat 32 target)
  extend destination target := setHalfSignature whichDFA destination (BitVec.ofNat 32 target)

/-- The transitions of a pair of nodes. -/
def combinedTransitions (a b : DFA) (unprocessedNode : BitVec 64) : MutableRangeList (BitVec 64) :=
  let indexA := extractIndexA unprocessedNode
  let combined : MutableRangeList (BitVec 64) :=
    if indexA ≠ invalidNodeIndex then
      MutableRangeList.extend (targetConverter .A) Vec.empty (a.nodes.get indexA.toNat).transitions
    else Vec.empty
  let indexB := extractIndexB unprocessedNode
  if indexB ≠ invalidNodeIndex then
    combined.extend (targetConverter .B) (b.nodes.get indexB.toNat).transitions
  else combined

/-- The actions of a new pair of nodes. -/
def combinedActions (ord : IterationOrder ℕ) (a b : DFA) (newNodeSignature : BitVec 64) : List ℕ :=
  let indexA := extractIndexA newNodeSignature
  let indexB := extractIndexB newNodeSignature
  let actions : HashSet ℕ :=
    if indexA ≠ invalidNodeIndex then
      HashSet.empty.addAll (a.nodes.get indexA.toNat).actions
    else HashSet.empty
  let actions :=
    if indexB ≠ invalidNodeIndex then actions.addAll (b.nodes.get indexB.toNat).actions
    else actions
  storeActions (actions.iterate ord)

/-- The table of pairs with `getOrCreateCombinedNode` and the loop of `merge`. -/
def problem (ord : IterationOrder ℕ) (a b : DFA) : Explore.Problem (BitVec 64) (List ℕ) where
  same x y := x == y
  make signature := some (combinedActions ord a b signature)
  expand unprocessedNode := (combinedTransitions a b unprocessedNode).toList
  store := storeTransitions

/-- A pair is processed once, so the number of pairs bounds the iterations. -/
def merge (ord : IterationOrder ℕ) (a b : DFA) : Option DFA :=
  (Explore.explore (problem ord a b) ((a.nodes.size + 1) * (b.nodes.size + 1))
    (signatureForIndices (BitVec.ofNat 32 a.root) (BitVec.ofNat 32 b.root))).map DFA.ofGraph

/-! ### Signatures -/

section

@[simp] lemma extractIndexA_signature (x y : BitVec 32) :
    extractIndexA (signatureForIndices x y) = x := by
  apply eq_of_getLsbD_eq
  intro i hi
  have h : 32 + i < 64 := by omega
  simp [extractIndexA, signatureForIndices, hi, h]

@[simp] lemma extractIndexB_signature (x y : BitVec 32) :
    extractIndexB (signatureForIndices x y) = y := by
  apply eq_of_getLsbD_eq
  intro i hi
  simp [extractIndexB, signatureForIndices, hi]

variable (s : BitVec 64)

lemma signature_extract : signatureForIndices (extractIndexA s) (extractIndexB s) = s := by
  apply eq_of_getLsbD_eq
  intro i hi
  by_cases h : i < 32
  · simp [extractIndexB, signatureForIndices, h, hi]
  · have h₁ : 32 + (i - 32) = i := by omega
    have h₂ : i - 32 < 32 := by omega
    simp [extractIndexA, extractIndexB, signatureForIndices, h, h₁, h₂, hi]

/-- The low half of the bits. -/
lemma getLsbD_mask (i : ℕ) : (0xffffffff#64).getLsbD i = decide (i < 32) := by
  have hmask : 0xffffffff#64 = (BitVec.allOnes 32).setWidth 64 := by decide
  rw [hmask, getLsbD_setWidth, getLsbD_allOnes]
  by_cases h : i < 32
  · simp [h.trans]
  · simp [h]

lemma setHalfSignature_A (v : BitVec 32) :
    setHalfSignature .A s v = signatureForIndices v (extractIndexB s) := by
  apply eq_of_getLsbD_eq
  intro i hi
  have hmask := getLsbD_mask i
  rw [setHalfSignature]
  by_cases h : i < 32 <;>
    simp [signatureForIndices, extractIndexB, h, hi, hmask, -getLsbD_eq_getElem]

lemma setHalfSignature_B (v : BitVec 32) :
    setHalfSignature .B s v = signatureForIndices (extractIndexA s) v := by
  apply eq_of_getLsbD_eq
  intro i hi
  have hmask := getLsbD_mask (i - 32)
  rw [setHalfSignature]
  generalize 0xffffffff#64 = mask at hmask
  by_cases h : i < 32
  · simp [signatureForIndices, h]
  · have h₁ : 32 + (i - 32) = i := by omega
    have h₂ : i - 32 < 32 := by omega
    have h₃ : i - 32 < 64 := by omega
    simp [signatureForIndices, extractIndexA, h, hi, h₁, h₂, h₃, hmask, -getLsbD_eq_getElem]

/-- The node that an index stands for. -/
def indexOf (index : BitVec 32) : Option ℕ :=
  if index = invalidNodeIndex then none else some index.toNat

/-- The pair of nodes that a signature stands for. -/
def pairOf (signature : BitVec 64) : Option ℕ × Option ℕ :=
  (indexOf (extractIndexA signature), indexOf (extractIndexB signature))

lemma indexOf_ofNat {i : ℕ} (hi : i < 2 ^ 32 - 1) : indexOf (BitVec.ofNat 32 i) = some i := by
  have hne : BitVec.ofNat 32 i ≠ invalidNodeIndex := by
    intro heq
    have := congrArg BitVec.toNat heq
    simp [invalidNodeIndex] at this
    omega
  rw [indexOf, if_neg hne, toNat_ofNat, Nat.mod_eq_of_lt (by omega)]

lemma indexOf_injective : Function.Injective indexOf := by
  intro x y hxy
  unfold indexOf at hxy
  split_ifs at hxy with hx hy hy
  · rw [hx, hy]
  · exact eq_of_toNat_eq (some.inj hxy)

/-- Different signatures stand for different pairs. -/
lemma pairOf_injective : Function.Injective pairOf := by
  intro x y hxy
  obtain ⟨hA, hB⟩ := Prod.mk.inj hxy
  rw [← signature_extract x, ← signature_extract y, indexOf_injective hA, indexOf_injective hB]

/-- A pair that can follow the string in one of the automata. -/
def livePair (p : Option ℕ × Option ℕ) : Option (Option ℕ × Option ℕ) :=
  if p = (none, none) then none else some p

/-- Combining the targets in both automata packs them into one signature. -/
lemma map_pairOf_combine {x y : Option ℕ} (hx : ∀ i, x = some i → i < 2 ^ 32 - 1)
    (hy : ∀ i, y = some i → i < 2 ^ 32 - 1) :
    ((targetConverter .B).combine ((targetConverter .A).combine none x) y).map pairOf =
      livePair (x, y) := by
  have hA : indexOf (extractIndexA 0xffffffffffffffff#64) = none := by decide
  have hB : indexOf (extractIndexB 0xffffffffffffffff#64) = none := by decide
  cases x with
  | none =>
    cases y with
    | none => rfl
    | some j =>
      simp [targetConverter, setHalfSignature_B, pairOf, livePair, hA, indexOf_ofNat (hy j rfl)]
  | some i =>
    cases y with
    | none =>
      simp [targetConverter, setHalfSignature_A, pairOf, livePair, hB, indexOf_ofNat (hx i rfl)]
    | some j =>
      simp [targetConverter, setHalfSignature_A, setHalfSignature_B, pairOf, livePair,
        indexOf_ofNat (hx i rfl), indexOf_ofNat (hy j rfl)]

end

/-! ### The merged automaton -/

section

variable {a b : DFA} {ord : IterationOrder ℕ}

/-- A vector of nodes of sixteen bytes each does not grow further. -/
def maxNodes : ℕ := (2 ^ 32 - 1) / 16

def pairAfter (a b : DFA) (s : List ℕ) : Option ℕ × Option ℕ := (a.run s, b.run s)

def pairStep (a b : DFA) (p : Option ℕ × Option ℕ) (c : ℕ) : Option (Option ℕ × Option ℕ) :=
  livePair (p.1.bind fun i => a.target i c, p.2.bind fun i => b.target i c)

lemma pairStep_pairAfter (s : List ℕ) (c : ℕ) :
    pairStep a b (pairAfter a b s) c = livePair (pairAfter a b (s ++ [c])) := by
  rw [pairStep, pairAfter, pairAfter, run_append_singleton, run_append_singleton]

variable {s : List ℕ}

lemma pairAfter_append_of_dead (hs : pairAfter a b s = (none, none)) (t : List ℕ) :
    pairAfter a b (s ++ t) = (none, none) := by
  induction t using reverseRecOn with
  | nil => rwa [append_nil]
  | append_singleton t c ih =>
    obtain ⟨ha, hb⟩ := Prod.mk.inj ih
    rw [← append_assoc, pairAfter, run_append_singleton, run_append_singleton, ha, hb]
    rfl

/-- Pairs are followed until both automata are stuck. -/
lemma runStep_pairAfter (s t : List ℕ) (hs : pairAfter a b s ≠ (none, none)) :
    Explore.runStep (pairStep a b) (pairAfter a b s) t = livePair (pairAfter a b (s ++ t)) := by
  induction t generalizing s with
  | nil => rw [append_nil, Explore.runStep, livePair, if_neg hs]
  | cons c t ih =>
    have happ : s ++ c :: t = s ++ [c] ++ t := by simp
    rw [Explore.runStep, pairStep_pairAfter, happ]
    by_cases hdead : pairAfter a b (s ++ [c]) = (none, none)
    · rw [pairAfter_append_of_dead hdead, hdead]
      rfl
    · rw [livePair, if_neg hdead, bind_some, ih _ hdead]

/-- The signatures that the merger meets. -/
def Reached (a b : DFA) (signature : BitVec 64) : Prop :=
  ∃ s, pairOf signature = pairAfter a b s

variable {index : BitVec 32}

lemma indexOf_lt (hwf : dfa.WF) (h : indexOf index = dfa.run s)
    (hne : index ≠ invalidNodeIndex) : index.toNat < dfa.nodes.size := by
  rw [indexOf, if_neg hne] at h
  exact hwf.runFrom_lt s hwf.root_lt h.symm

/-- The transitions of one of the two nodes are added to the list. -/
lemma holds_half (hwf : dfa.WF) (whichDFA : WhichDFA)
    (hs : indexOf index = dfa.run s) {ranges : MutableRangeList (BitVec 64)}
    {f : ℕ → Option (BitVec 64)} (h : MutableRangeList.Holds 127 ranges f) :
    MutableRangeList.Holds 127
      (if index ≠ invalidNodeIndex then
        ranges.extend (targetConverter whichDFA) (dfa.nodes.get index.toNat).transitions
      else ranges)
      fun c => (targetConverter whichDFA).combine (f c)
        ((indexOf index).bind fun i => dfa.target i c) := by
  by_cases hne : index = invalidNodeIndex
  · rw [if_neg (not_not.mpr hne), indexOf, if_pos hne]
    exact h.congr fun c => ((targetConverter whichDFA).combine_none (f c)).symm
  · have hlt := indexOf_lt hwf hs hne
    rw [if_pos hne, indexOf, if_neg hne]
    exact h.extend _ (hwf.sorted _ hlt) (hwf.last_le _ hlt)

lemma Reached.holds (ha : a.WF) (hb : b.WF) {sig : BitVec 64} (h : Reached a b sig) :
    MutableRangeList.Holds 127 (combinedTransitions a b sig) fun c =>
      (targetConverter .B).combine
        ((targetConverter .A).combine none ((pairOf sig).1.bind fun i => a.target i c))
        ((pairOf sig).2.bind fun i => b.target i c) := by
  obtain ⟨s, hs⟩ := h
  obtain ⟨hA, hB⟩ := Prod.mk.inj hs
  exact holds_half hb .B hB (holds_half ha .A hA (MutableRangeList.holds_empty 127))

/-- The actions of the node that an automaton reaches, none if it is stuck. -/
def actionsAt (dfa : DFA) : Option ℕ → List ℕ
  | none => []
  | some i => (dfa.nodes.get i).actions

lemma mem_addAll_actionsAt (dfa : DFA) (index : BitVec 32) (actions : HashSet ℕ) (x : ℕ) :
    x ∈ (if index ≠ invalidNodeIndex then actions.addAll (dfa.nodes.get index.toNat).actions
      else actions) ↔ x ∈ actions ∨ x ∈ actionsAt dfa (indexOf index) := by
  by_cases hne : index = invalidNodeIndex
  · simp [hne, indexOf, actionsAt]
  · simp [hne, indexOf, actionsAt]

variable (ord : IterationOrder ℕ)

/-- With at most 65535 actions, a pair gets the actions of both nodes. -/
lemma mem_combinedActions (a b : DFA) (sig : BitVec 64)
    (h : (actionsAt a (pairOf sig).1 ++ actionsAt b (pairOf sig).2).dedup.length ≤ 65535) (x : ℕ) :
    x ∈ combinedActions ord a b sig ↔
        x ∈ actionsAt a (pairOf sig).1 ∨ x ∈ actionsAt b (pairOf sig).2 := by
  unfold combinedActions
  extract_lets indexA indexB actionsA actions
  have hmem : ∀ x, x ∈ actions ↔
      x ∈ actionsAt a (pairOf sig).1 ∨ x ∈ actionsAt b (pairOf sig).2 := by
    intro x
    refine (mem_addAll_actionsAt b indexB actionsA x).trans (or_congr_left ?_)
    exact (mem_addAll_actionsAt a indexA HashSet.empty x).trans (or_iff_right (by simp))
  have hperm : (actions.iterate ord).Perm
      (actionsAt a (pairOf sig).1 ++ actionsAt b (pairOf sig).2).dedup := by
    refine (perm_ext_iff_of_nodup (actions.nodup_iterate ord) (nodup_dedup _)).mpr ?_
    simp [hmem]
  simp [storeActions_eq (hperm.length_eq ▸ h), hmem]

/-- No pair of nodes has too many actions, and the pairs fit into a vector of nodes. -/
structure Fits (a b : DFA) : Prop where
  actions_le : ∀ s, (actionsAt a (a.run s) ++ actionsAt b (b.run s)).dedup.length ≤ 65535
  pairs_le : {p | ∃ s, pairAfter a b s = p}.encard ≤ maxNodes

/-- An automaton whose nodes have indices different from the invalid one. -/
structure Valid (dfa : DFA) : Prop where
  wf : dfa.WF
  size_le : dfa.nodes.size ≤ maxNodes

lemma Valid.index_lt (h : Valid dfa) {i : ℕ} (hi : i < dfa.nodes.size) : i < 2 ^ 32 - 1 := by
  have hsize := h.size_le
  unfold maxNodes at hsize
  omega

lemma Valid.target_bound (h : Valid dfa) {o : Option ℕ} (ho : o = dfa.run s) {c i : ℕ}
    (hi : (o.bind fun i => dfa.target i c) = some i) : i < 2 ^ 32 - 1 := by
  rw [ho, ← run_append_singleton] at hi
  exact h.index_lt (h.wf.runFrom_lt _ h.wf.root_lt hi)

/-- Signatures stand for pairs of nodes. -/
lemma problem_denotes (ha : Valid a) (hb : Valid b) :
    Explore.Denotes (problem ord a b) (Reached a b) pairOf (pairStep a b) := by
  have hlookup : ∀ x, Reached a b x → ∀ c,
      (lookup ((problem ord a b).expand x) c).map pairOf = pairStep a b (pairOf x) c := by
    intro x hx c
    rw [problem, (hx.holds ha.wf hb.wf).lookup_eq]
    obtain ⟨s, hs⟩ := hx
    obtain ⟨hA, hB⟩ := Prod.mk.inj hs
    exact map_pairOf_combine (fun i hi => ha.target_bound hA hi) fun i hi => hb.target_bound hB hi
  have hsort : ∀ x, Reached a b x → Sorted ((problem ord a b).expand x) :=
    fun x hx => (hx.holds ha.wf hb.wf).sorted
  refine ⟨?_, fun _ _ => rfl, hsort, ?_, hlookup, ?_⟩
  · simp [problem, pairOf_injective.eq_iff]
  · intro x hx r hr
    have hlook := hlookup x hx r.first
    rw [lookup_of_mem (hsort x hx) hr le_rfl ((hsort x hx).first_le_last hr)] at hlook
    obtain ⟨s, hs⟩ := hx
    refine ⟨s ++ [r.first], ?_⟩
    rw [hs, pairStep_pairAfter, livePair, map_some] at hlook
    split_ifs at hlook
    exact some.inj hlook
  · intro x hx ts hts
    refine storeTransitions_eq ?_
    rw [hts]
    exact (hsort x hx).length_le (fun _ _ => Nat.zero_le _) (hx.holds ha.wf hb.wf).last_le

lemma pairOf_root (ha : Valid a) (hb : Valid b) :
    pairOf (signatureForIndices (BitVec.ofNat 32 a.root) (BitVec.ofNat 32 b.root)) =
      pairAfter a b [] := by
  rw [pairOf, extractIndexA_signature, extractIndexB_signature,
    indexOf_ofNat (ha.index_lt ha.wf.root_lt), indexOf_ofNat (hb.index_lt hb.wf.root_lt)]
  rfl

lemma livePair_eq_some {p q : Option ℕ × Option ℕ} :
    livePair p = some q ↔ p = q ∧ p ≠ (none, none) := by
  unfold livePair
  split_ifs with h
  · simp [h]
  · simp [h]

/-- The pairs that the runs reach are pairs of nodes. -/
lemma pairAfter_mem (ha : a.WF) (hb : b.WF) (s : List ℕ) : pairAfter a b s ∈
    (Finset.range a.nodes.size).insertNone ×ˢ (Finset.range b.nodes.size).insertNone := by
  rw [Finset.mem_product, Finset.mem_insertNone, Finset.mem_insertNone]
  refine ⟨fun i hi => ?_, fun i hi => ?_⟩
  · exact Finset.mem_range.mpr (ha.runFrom_lt s ha.root_lt hi)
  · exact Finset.mem_range.mpr (hb.runFrom_lt s hb.root_lt hi)

/-- The merged automaton follows both automata and has the actions of both. -/
structure IsMerge (a b c : DFA) : Prop extends Valid c where
  live : ∀ i, (c.nodes.get i).isKilled = false
  reached : ∀ i < c.nodes.size, ∃ s, c.run s = some i
  run_eq_none_iff : ∀ s, c.run s = none ↔ a.run s = none ∧ b.run s = none
  mem_actionsAt : ∀ s x,
    x ∈ actionsAt c (c.run s) ↔ x ∈ actionsAt a (a.run s) ∨ x ∈ actionsAt b (b.run s)

theorem merge_spec (ha : Valid a) (hb : Valid b) (hfits : Fits a b) :
    ∃ c, merge ord a b = some c ∧ IsMerge a b c := by
  have hP := problem_denotes ord ha hb
  have hroot := pairOf_root ha hb
  -- the pair of nodes after `s`, until both automata are stuck
  have hrun : ∀ s, Explore.runStep (pairStep a b) (pairOf (signatureForIndices
      (BitVec.ofNat 32 a.root) (BitVec.ofNat 32 b.root))) s = livePair (pairAfter a b s) := by
    intro s
    simp [hroot, runStep_pairAfter [] s (by simp [pairAfter, run, runFrom])]
  obtain ⟨nodes, key, hexpl, hreal⟩ := Explore.explore_realizes hP ⟨[], hroot⟩ _ (fun s d hd => by
      rw [hrun, livePair_eq_some] at hd
      exact hd.1 ▸ pairAfter_mem ha.wf hb.wf s)
    (show _ ≤ (a.nodes.size + 1) * (b.nodes.size + 1) by simp)
  have hwf : (ofGraph nodes).WF := wf_ofGraph hreal hP fun x hx => (hx.holds ha.wf hb.wf).last_le
  have hfin := Set.finite_of_encard_le_coe hfits.pairs_le
  have hsize : nodes.size ≤ maxNodes := by
    have hle := hfits.pairs_le
    rw [hfin.encard_eq_coe_toFinset_card, Nat.cast_le] at hle
    refine (hreal.size_le_card hfin.toFinset fun s d hd => ?_).trans hle
    rw [hrun, livePair_eq_some] at hd
    exact hfin.mem_toFinset.mpr ⟨s, hd.1⟩
  -- the graph is built; what is left is what a node of it stands for
  suffices hrun : ∀ s, ((ofGraph nodes).run s = none ↔ a.run s = none ∧ b.run s = none) ∧
      ∀ x, x ∈ actionsAt (ofGraph nodes) ((ofGraph nodes).run s) ↔
        x ∈ actionsAt a (a.run s) ∨ x ∈ actionsAt b (b.run s) from
    ⟨ofGraph nodes, by rw [merge, hexpl, map_some], ⟨hwf, hsize⟩, fun _ => rfl,
      fun i hi => exists_run_ofGraph hreal hi, fun s => (hrun s).1, fun s => (hrun s).2⟩
  intro s
  have hmap : ((ofGraph nodes).run s).map (pairOf ∘ key) = livePair (pairAfter a b s) :=
    (map_run_ofGraph hreal s).trans (hrun s)
  cases hi : (ofGraph nodes).run s with
  | none =>
    have hdead : a.run s = none ∧ b.run s = none := by
      rw [hi, map_none, livePair] at hmap
      split_ifs at hmap with h
      exact Prod.mk.inj h
    exact ⟨by simp [hdead], by simp [hdead, actionsAt]⟩
  | some i =>
    rw [hi, map_some, eq_comm, livePair_eq_some] at hmap
    obtain ⟨hpair, hlive⟩ := hmap
    have hlt : i < nodes.size := hwf.runFrom_lt s hwf.root_lt hi
    have hlabel : some (combinedActions ord a b (key i)) = some (nodes.get i).label :=
      hreal.make_eq i hlt
    have hact := mem_combinedActions ord a b (key i)
    rw [← show pairAfter a b s = pairOf (key i) from hpair, some.inj hlabel] at hact
    refine ⟨?_, fun x => hact (hfits.actions_le s) x⟩
    simpa [pairAfter] using hlive

lemma mem_visitedActions {x : ℕ} :
    x ∈ dfa.visitedActions s ↔ ∃ t, t <+: s ∧ x ∈ actionsAt dfa (dfa.run t) := by
  refine exists_congr fun t => and_congr_right fun _ => ?_
  rw [actionsAfter]
  cases dfa.run t <;> simp [actionsAt]

lemma IsMerge.visitedActions {c : DFA} (h : IsMerge a b c) (s : List ℕ) :
    c.visitedActions s = a.visitedActions s ∪ b.visitedActions s := by
  ext x
  simp only [Set.mem_union, mem_visitedActions, h.mem_actionsAt, and_or_left, exists_or]

end

end DFAMerger

/-! ### Combining all automata -/

namespace DFACombiner

variable (ord : IterationOrder ℕ) (ord' : IterationOrder (List ℕ × List ℕ)) (minimumSize : ℕ)

/-- The automaton that is added to the vector. -/
def addDFA (dfa : DFA) : DFA := DFAMinimizer.minimize ord' dfa

/-- One iteration of the loop of `combineDFAs`: the automata that stay in the vector, the last one
first, and those given to the handler. -/
def iteration : List DFA → Option (List DFA × List DFA)
  | [] => some ([], [])
  | [dfa] => some ([], [dfa])
  | a :: b :: dfas =>
    (DFAMerger.merge ord a b).map fun c =>
      let c :=
        if c.graphSize > minimumSize ∨ dfas.isEmpty then DFAMinimizer.minimize ord' c else c
      if c.graphSize > minimumSize then (dfas, [c]) else (c :: dfas, [])

/-- Every iteration leaves fewer automata. -/
def loop : ℕ → List DFA → Option (List DFA)
  | 0, dfas => if dfas.isEmpty then some [] else none
  | n + 1, dfas =>
    if dfas.isEmpty then some []
    else
      (iteration ord ord' minimumSize dfas).bind fun (dfas, handled) =>
        (loop n dfas).map fun rest => handled ++ rest

/-- The automata that are not large enough at the beginning, the last one first. -/
def smallDFAs (dfas : List DFA) : List DFA :=
  dfas.reverse.filter fun dfa => ¬dfa.graphSize > minimumSize

/-- The automata given to the handler. -/
def combineDFAs (dfas : List DFA) : Option (List DFA) :=
  let large := dfas.reverse.filter fun dfa => dfa.graphSize > minimumSize
  let small := smallDFAs minimumSize dfas
  (loop ord ord' minimumSize small.length small).map fun rest => large ++ rest

/-- The automata `a` and `b` are merged in the course of the loop. -/
inductive Merged : List DFA → DFA → DFA → Prop
  | head (a b : DFA) (dfas : List DFA) : Merged (a :: b :: dfas) a b
  | tail {a b : DFA} {dfas dfas' handled : List DFA}
      (hstep : iteration ord ord' minimumSize dfas = some (dfas', handled))
      (h : Merged dfas' a b) : Merged dfas a b

section

open DFAMerger

variable {ord ord' minimumSize}

/-- The actions visited in one of the automata. -/
def visitedActions (dfas : List DFA) (s : List ℕ) : Set ℕ :=
  {x | ∃ dfa ∈ dfas, x ∈ dfa.visitedActions s}

lemma visitedActions_cons (dfa : DFA) (dfas : List DFA) (s : List ℕ) :
    visitedActions (dfa :: dfas) s = dfa.visitedActions s ∪ visitedActions dfas s := by
  ext x
  simp [visitedActions]

lemma visitedActions_append (dfas dfas' : List DFA) (s : List ℕ) :
    visitedActions (dfas ++ dfas') s = visitedActions dfas s ∪ visitedActions dfas' s := by
  ext x
  simp [visitedActions, or_and_right, exists_or]

lemma visitedActions_reverse (dfas : List DFA) (s : List ℕ) :
    visitedActions dfas.reverse s = visitedActions dfas s := by
  simp [visitedActions]

lemma visitedActions_filter (p : DFA → Prop) [DecidablePred p] (dfas : List DFA) (s : List ℕ) :
    visitedActions (dfas.filter p) s ∪ visitedActions (dfas.filter fun dfa => ¬p dfa) s =
      visitedActions dfas s := by
  ext x
  simp only [visitedActions, mem_filter, decide_eq_true_eq]
  constructor
  · rintro (⟨dfa, ⟨h, -⟩, hx⟩ | ⟨dfa, ⟨h, -⟩, hx⟩) <;> exact ⟨dfa, h, hx⟩
  · rintro ⟨dfa, h, hx⟩
    by_cases hp : p dfa
    · exact .inl ⟨dfa, ⟨h, hp⟩, hx⟩
    · exact .inr ⟨dfa, ⟨h, hp⟩, hx⟩

lemma visitedActions_minimize (h : Valid dfa) (s : List ℕ) :
    (DFAMinimizer.minimize ord' dfa).visitedActions s = dfa.visitedActions s := by
  unfold DFA.visitedActions
  simp only [DFAMinimizer.actionsAfter_minimize ord' h.wf]

lemma valid_minimize (h : Valid dfa) : Valid (DFAMinimizer.minimize ord' dfa) :=
  ⟨DFAMinimizer.wf_minimize ord' h.wf, h.size_le⟩

lemma length_iteration {dfas dfas' handled : List DFA}
    (h : iteration ord ord' minimumSize dfas = some (dfas', handled)) :
    dfas'.length ≤ dfas.length - 1 := by
  match dfas with
  | [] | [dfa] =>
    obtain ⟨rfl, -⟩ := Prod.mk.inj (some.inj h)
    simp
  | a :: b :: dfas =>
    obtain ⟨c, -, hc⟩ := map_eq_some_iff.mp h
    dsimp only at hc
    split_ifs at hc <;> obtain ⟨rfl, -⟩ := Prod.mk.inj hc <;> simp

variable {dfas : List DFA} {P : DFA → Prop}

section

variable (hP : ∀ a b c, IsMerge a b c → P a → P b → P c ∧ P (DFAMinimizer.minimize ord' c))

include hP

/-- An iteration leaves fewer automata and loses no actions. What merging and minimizing preserve
stays true of all automata. -/
lemma iteration_spec (hne : dfas ≠ []) (hvld : ∀ dfa ∈ dfas, Valid dfa ∧ P dfa)
    (hfits : ∀ a b, Merged ord ord' minimumSize dfas a b → Fits a b) :
    ∃ dfas' handled, iteration ord ord' minimumSize dfas = some (dfas', handled) ∧
      (∀ dfa ∈ handled ++ dfas', Valid dfa ∧ P dfa) ∧
      ∀ s, visitedActions (handled ++ dfas') s = visitedActions dfas s := by
  match dfas, hne with
  | [dfa], _ => exact ⟨[], [dfa], rfl, hvld, fun s => rfl⟩
  | a :: b :: dfas, _ =>
    obtain ⟨ha, hPa⟩ := hvld a (by simp)
    obtain ⟨hb, hPb⟩ := hvld b (by simp)
    obtain ⟨c, hc, hmerge⟩ := merge_spec ord ha hb (hfits a b (.head a b dfas))
    obtain ⟨hPc, hPmin⟩ := hP a b c hmerge hPa hPb
    -- minimizing does not change what the merged automaton does
    obtain ⟨c', hc', hvld', hact'⟩ : ∃ c', c' = (if c.graphSize > minimumSize ∨ dfas.isEmpty
        then DFAMinimizer.minimize ord' c else c) ∧ (Valid c' ∧ P c') ∧
        ∀ s, c'.visitedActions s = c.visitedActions s := by
      refine ⟨_, rfl, ?_⟩
      split_ifs
      · exact ⟨⟨valid_minimize hmerge.toValid, hPmin⟩, visitedActions_minimize hmerge.toValid⟩
      · exact ⟨⟨hmerge.toValid, hPc⟩, fun s => rfl⟩
    have hall : ∀ dfa ∈ c' :: dfas, Valid dfa ∧ P dfa := by
      rw [forall_mem_cons]
      exact ⟨hvld', fun dfa h => hvld dfa (by simp [h])⟩
    have hunion : ∀ s, visitedActions (c' :: dfas) s = visitedActions (a :: b :: dfas) s := by
      intro s
      rw [visitedActions_cons, visitedActions_cons, visitedActions_cons, hact',
        hmerge.visitedActions, Set.union_assoc]
    rw [iteration, hc, map_some]
    dsimp only
    rw [← hc']
    split_ifs
    · exact ⟨dfas, [c'], rfl, hall, hunion⟩
    · exact ⟨c' :: dfas, [], rfl, hall, hunion⟩

lemma loop_spec (n : ℕ) (hn : dfas.length ≤ n) (hvld : ∀ dfa ∈ dfas, Valid dfa ∧ P dfa)
    (hfits : ∀ a b, Merged ord ord' minimumSize dfas a b → Fits a b) :
    ∃ out, loop ord ord' minimumSize n dfas = some out ∧ (∀ dfa ∈ out, P dfa) ∧
      ∀ s, visitedActions out s = visitedActions dfas s := by
  induction n generalizing dfas with
  | zero =>
    obtain rfl : dfas = [] := length_eq_zero_iff.mp (Nat.le_zero.mp hn)
    exact ⟨[], rfl, by simp, fun s => rfl⟩
  | succ n ih =>
    by_cases hne : dfas = []
    · subst hne
      exact ⟨[], rfl, by simp, fun s => rfl⟩
    · obtain ⟨dfas', handled, hstep, hvld', hact⟩ := iteration_spec hP hne hvld hfits
      have hlen := length_iteration hstep
      rw [forall_mem_append] at hvld'
      obtain ⟨out, hout, hPout, hact'⟩ :=
        ih (by omega) hvld'.2 fun a b h => hfits a b (.tail hstep h)
      refine ⟨handled ++ out, ?_, ?_, fun s => ?_⟩
      · simp [loop, hne, hstep, hout]
      · rw [forall_mem_append]
        exact ⟨fun dfa h => (hvld'.1 dfa h).2, hPout⟩
      · rw [visitedActions_append, hact', ← visitedActions_append, hact]

/-- The automata given to the handler visit the actions that the automata in the vector visit. -/
lemma exists_combineDFAs (hvld : ∀ dfa ∈ dfas, Valid dfa ∧ P dfa)
    (hfits : ∀ a b, Merged ord ord' minimumSize (smallDFAs minimumSize dfas) a b → Fits a b) :
    ∃ out, combineDFAs ord ord' minimumSize dfas = some out ∧ (∀ dfa ∈ out, P dfa) ∧
      ∀ s, visitedActions out s = visitedActions dfas s := by
  have hmem : ∀ {p : DFA → Bool}, ∀ dfa ∈ dfas.reverse.filter p, Valid dfa ∧ P dfa :=
    fun dfa h => hvld dfa (mem_reverse.mp (mem_filter.mp h).1)
  obtain ⟨out, hout, hPout, hactions⟩ :=
    loop_spec hP _ (le_refl (smallDFAs minimumSize dfas).length) hmem hfits
  refine ⟨_, by rw [combineDFAs, hout, map_some], ?_, fun s => ?_⟩
  · rw [forall_mem_append]
    exact ⟨fun dfa h => (hmem dfa h).2, hPout⟩
  · rw [visitedActions_append, hactions, smallDFAs, visitedActions_filter, visitedActions_reverse]

end

lemma valid_addDFA (h : ∀ dfa ∈ dfas, Valid dfa) : ∀ dfa ∈ dfas.map (addDFA ord'), Valid dfa := by
  rw [List.forall_mem_map]
  exact fun dfa hdfa => valid_minimize (h dfa hdfa)

lemma visitedActions_addDFA (h : ∀ dfa ∈ dfas, Valid dfa) (s : List ℕ) :
    visitedActions (dfas.map (addDFA ord')) s = visitedActions dfas s := by
  ext x
  have hact : ∀ dfa ∈ dfas, x ∈ (addDFA ord' dfa).visitedActions s ↔ x ∈ dfa.visitedActions s := by
    intro dfa hdfa
    rw [addDFA, visitedActions_minimize (h dfa hdfa)]
  simp only [visitedActions, List.mem_map, exists_exists_and_eq_and]
  exact exists_congr fun dfa => and_congr_right (hact dfa)

/-- The automata given to the handler visit the actions that the added automata visit. -/
theorem combineDFAs_visitedActions (ord : IterationOrder ℕ)
    (ord' : IterationOrder (List ℕ × List ℕ)) (minimumSize : ℕ) (dfas : List DFA)
    (hvalid : ∀ dfa ∈ dfas, Valid dfa)
    (hfits : ∀ a b, Merged ord ord' minimumSize
      (smallDFAs minimumSize (dfas.map (addDFA ord'))) a b → Fits a b) :
    ∃ out, combineDFAs ord ord' minimumSize (dfas.map (addDFA ord')) = some out ∧
      ∀ s, visitedActions out s = visitedActions dfas s := by
  obtain ⟨out, hout, -, hactions⟩ := exists_combineDFAs (P := fun _ => True)
    (fun _ _ _ _ _ _ => ⟨trivial, trivial⟩)
    (fun dfa h => ⟨valid_addDFA hvalid dfa h, trivial⟩) hfits
  refine ⟨out, hout, fun s => ?_⟩
  rw [hactions, visitedActions_addDFA hvalid]

lemma Merged.two_le_length {a b : DFA}
    (h : Merged ord ord' minimumSize dfas a b) : 2 ≤ dfas.length := by
  induction h with
  | head => simp
  | tail hstep _ ih => exact ih.trans ((length_iteration hstep).trans (Nat.sub_le _ _))

/-- Of two automata nothing else is merged. -/
lemma Merged.mem_of_length_le {a b : DFA} (h : Merged ord ord' minimumSize dfas a b)
    (hlength : dfas.length ≤ 2) : a ∈ dfas ∧ b ∈ dfas := by
  cases h with
  | head => simp
  | tail hstep h =>
    have hle := h.two_le_length.trans (length_iteration hstep)
    omega

/-- Minimizing adds no actions. -/
lemma length_actionsAt_addDFA (ord' : IterationOrder (List ℕ × List ℕ)) (h : dfa.WF) {n : ℕ}
    (hn : ∀ i < dfa.nodes.size, (dfa.nodes.get i).actions.length ≤ n) (s : List ℕ) :
    (actionsAt (addDFA ord' dfa) ((addDFA ord' dfa).run s)).length ≤ n := by
  have hwf : (addDFA ord' dfa).WF := DFAMinimizer.wf_minimize ord' h
  cases hi : (addDFA ord' dfa).run s with
  | none => exact Nat.zero_le n
  | some i =>
    refine (DFAMinimizer.actions_replaceNodes_sublist _ dfa i).length_le.trans (hn i ?_)
    exact hwf.runFrom_lt s hwf.root_lt hi

/-- Two small automata can be merged. -/
lemma Merged.fits_of_length_le {a b : DFA} (h : Merged ord ord' minimumSize
      (smallDFAs minimumSize (dfas.map (addDFA ord'))) a b)
    (hvalid : ∀ dfa ∈ dfas, Valid dfa) (hlength : dfas.length ≤ 2)
    (hdfas : ∀ dfa ∈ dfas, dfa.nodes.size < 100 ∧
      ∀ i < dfa.nodes.size, (dfa.nodes.get i).actions.length ≤ 100) : Fits a b := by
  have hmem : ∀ dfa ∈ smallDFAs minimumSize (dfas.map (addDFA ord')),
      ∃ dfa' ∈ dfas, addDFA ord' dfa' = dfa :=
    fun dfa hdfa => List.mem_map.mp (mem_reverse.mp (mem_filter.mp hdfa).1)
  obtain ⟨ha, hb⟩ := h.mem_of_length_le ((length_filter_le _ _).trans (by simpa))
  obtain ⟨a, hdfa, rfl⟩ := hmem a ha
  obtain ⟨b, hdfb, rfl⟩ := hmem b hb
  obtain ⟨hsizea, hacta⟩ := hdfas a hdfa
  obtain ⟨hsizeb, hactb⟩ := hdfas b hdfb
  have hwfa := (hvalid a hdfa).wf
  have hwfb := (hvalid b hdfb).wf
  constructor
  · intro s
    have hlena := length_actionsAt_addDFA ord' hwfa hacta s
    have hlenb := length_actionsAt_addDFA ord' hwfb hactb s
    refine (dedup_sublist _).length_le.trans ?_
    rw [length_append]
    omega
  · refine (Set.encard_le_encard (t := ((Finset.range a.nodes.size).insertNone ×ˢ
      (Finset.range b.nodes.size).insertNone : Finset (Option ℕ × Option ℕ))) ?_).trans ?_
    · rintro _ ⟨s, rfl⟩
      exact pairAfter_mem (DFAMinimizer.wf_minimize ord' hwfa)
        (DFAMinimizer.wf_minimize ord' hwfb) s
    · rw [Set.encard_coe_eq_coe_finsetCard, Nat.cast_le, Finset.card_product,
        Finset.card_insertNone, Finset.card_insertNone, Finset.card_range, Finset.card_range]
      exact (Nat.mul_le_mul hsizea hsizeb).trans (by decide)

/-- An automaton that has one action after the characters up to `last`. -/
def letters (last action : ℕ) : DFA :=
  ⟨⟨2, fun i => if i = 0 then DFANode.live [] [⟨97, last, 1⟩] else DFANode.live [action] []⟩, 0⟩

lemma valid_letters {last action : ℕ} (h : 97 ≤ last) (h' : last ≤ 127) :
    Valid (letters last action) := by
  have hnode : ∀ i < (letters last action).nodes.size, i = 0 ∨ i = 1 := by
    intro i hi
    have : i < 2 := hi
    omega
  have hsize : 2 ≤ maxNodes := by decide
  refine ⟨⟨Nat.zero_lt_two, ?_, ?_, ?_⟩, hsize⟩ <;> intro i hi <;>
    rcases hnode i hi with rfl | rfl <;> simp [letters, h, h']

theorem combineDFAs_letters :
    ∃ out, combineDFAs .insertion .insertion 3
        ([letters 98 6, letters 97 5].map (addDFA .insertion)) = some out ∧
      ∀ s, visitedActions out s = visitedActions [letters 98 6, letters 97 5] s := by
  have hvalid : ∀ dfa ∈ [letters 98 6, letters 97 5], Valid dfa := by
    simp only [mem_cons, not_mem_nil, or_false, forall_eq_or_imp, forall_eq]
    exact ⟨valid_letters (by omega) (by omega), valid_letters (by omega) (by omega)⟩
  refine combineDFAs_visitedActions .insertion .insertion 3 _ hvalid fun a b h => ?_
  refine h.fits_of_length_le hvalid (by decide) ?_
  decide

end

end DFACombiner

end WebKit.ContentExtensions
