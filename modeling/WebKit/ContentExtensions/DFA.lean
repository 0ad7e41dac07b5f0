import WebKit.Core.Explore

/-!
# Deterministic automata

`DFA` with the parts of its vectors that belong to a node kept at the node: its actions and its
transitions. A character without transition ends the run.
-/

namespace WebKit.ContentExtensions

open RangeMap

structure DFANode where
  actions : List ℕ
  transitions : List (Range ℕ)
  isKilled : Bool
  /-- `kill` clears both lists. -/
  killed_empty : isKilled = true → actions = [] ∧ transitions = []

namespace DFANode

/-- A node with the given actions and transitions. -/
def live (actions : List ℕ) (transitions : List (Range ℕ)) : DFANode :=
  ⟨actions, transitions, false, by simp⟩

def killed : DFANode := ⟨[], [], true, by simp⟩

instance : Inhabited DFANode := ⟨live [] []⟩

section

variable (actions : List ℕ) (transitions : List (Range ℕ))

include actions transitions

@[simp] lemma actions_live : (live actions transitions).actions = actions := rfl

@[simp] lemma transitions_live : (live actions transitions).transitions = transitions := rfl

@[simp] lemma isKilled_live : (live actions transitions).isKilled = false := rfl

end

end DFANode

/-- A node stores the number of its actions in sixteen bits. -/
def storeActions (actions : List ℕ) : List ℕ := actions.take (actions.length % 2 ^ 16)

/-- A node stores the number of its transitions in eight bits. -/
def storeTransitions (transitions : List (Range ℕ)) : List (Range ℕ) :=
  transitions.take (transitions.length % 2 ^ 8)

lemma storeActions_eq {actions : List ℕ} (h : actions.length ≤ 65535) :
    storeActions actions = actions := by
  rw [storeActions, Nat.mod_eq_of_lt (by omega), List.take_length]

lemma storeTransitions_eq {transitions : List (Range ℕ)} (h : transitions.length ≤ 128) :
    storeTransitions transitions = transitions := by
  rw [storeTransitions, Nat.mod_eq_of_lt (by omega), List.take_length]

structure DFA where
  nodes : Vec DFANode
  root : ℕ

namespace DFA

/-- The ranges of every node are sorted and disjoint ranges of characters `0..127`, and all
targets are nodes. -/
structure WF (dfa : DFA) : Prop where
  root_lt : dfa.root < dfa.nodes.size
  sorted : ∀ i < dfa.nodes.size, Sorted (dfa.nodes.get i).transitions
  last_le : ∀ i < dfa.nodes.size, ∀ r ∈ (dfa.nodes.get i).transitions, r.last ≤ 127
  target_lt : ∀ i < dfa.nodes.size, ∀ r ∈ (dfa.nodes.get i).transitions, r.data < dfa.nodes.size

def graphSize (dfa : DFA) : ℕ :=
  ((List.range dfa.nodes.size).filter fun i => !(dfa.nodes.get i).isKilled).length

/-- The target of a node for a character. -/
def target (dfa : DFA) (i c : ℕ) : Option ℕ := lookup (dfa.nodes.get i).transitions c

/-- The node reached from `i` by a string. -/
def runFrom (dfa : DFA) : ℕ → List ℕ → Option ℕ
  | i, [] => some i
  | i, c :: cs => (dfa.target i c).bind fun j => dfa.runFrom j cs

def run (dfa : DFA) (s : List ℕ) : Option ℕ := dfa.runFrom dfa.root s

/-- The actions of the node reached by a string. -/
def actionsAfter (dfa : DFA) (s : List ℕ) : Option (List ℕ) :=
  (dfa.run s).map fun i => (dfa.nodes.get i).actions

/-- The actions of the nodes visited by a string. A killed node has neither actions nor
transitions, so it makes no difference whether killed nodes are entered. -/
def visitedActions (dfa : DFA) (s : List ℕ) : Set ℕ :=
  {a | ∃ t, t <+: s ∧ ∃ actions, dfa.actionsAfter t = some actions ∧ a ∈ actions}

/-- The node reached from `i` by a string, when no killed node is entered. -/
def liveRunFrom (dfa : DFA) : ℕ → List ℕ → Option ℕ
  | i, [] => some i
  | i, c :: cs =>
    ((dfa.target i c).filter fun j => !(dfa.nodes.get j).isKilled).bind fun j =>
      dfa.liveRunFrom j cs

/-- The actions of the node reached from the root, following only nodes that are not killed. -/
def liveActionsAfter (dfa : DFA) (s : List ℕ) : Option (List ℕ) :=
  if (dfa.nodes.get dfa.root).isKilled then none
  else (dfa.liveRunFrom dfa.root s).map fun i => (dfa.nodes.get i).actions

variable {dfa : DFA} {i : ℕ} {j : ℕ}

lemma WF.target_lt' (h : dfa.WF) {c : ℕ} (hi : i < dfa.nodes.size)
    (hj : dfa.target i c = some j) : j < dfa.nodes.size := by
  obtain ⟨r, hr, -, -, rfl⟩ := lookup_eq_some hj
  exact h.target_lt i hi r hr

lemma runFrom_append (dfa : DFA) (i : ℕ) (s t : List ℕ) :
    dfa.runFrom i (s ++ t) = (dfa.runFrom i s).bind fun j => dfa.runFrom j t := by
  induction s generalizing i with
  | nil => rfl
  | cons c s ih =>
    simp only [List.cons_append, runFrom]
    cases dfa.target i c with
    | none => rfl
    | some j => exact ih j

lemma run_append_singleton (dfa : DFA) (s : List ℕ) (c : ℕ) :
    dfa.run (s ++ [c]) = (dfa.run s).bind fun i => dfa.target i c := by
  rw [run, runFrom_append]
  simp [runFrom, run]

lemma WF.runFrom_lt (h : dfa.WF) (s : List ℕ) (hi : i < dfa.nodes.size)
    (hj : dfa.runFrom i s = some j) : j < dfa.nodes.size := by
  induction s generalizing i with
  | nil =>
    obtain rfl : i = j := by simpa [runFrom] using hj
    exact hi
  | cons c s ih =>
    simp only [runFrom, Option.bind_eq_some_iff] at hj
    obtain ⟨k, hk, hj⟩ := hj
    exact ih (h.target_lt' hi hk) hj

lemma WF.liveRunFrom_lt (h : dfa.WF) (s : List ℕ) (hi : i < dfa.nodes.size)
    (hj : dfa.liveRunFrom i s = some j) : j < dfa.nodes.size := by
  induction s generalizing i with
  | nil =>
    obtain rfl : i = j := by simpa [liveRunFrom] using hj
    exact hi
  | cons c s ih =>
    simp only [liveRunFrom, Option.bind_eq_some_iff, Option.filter_eq_some_iff] at hj
    obtain ⟨k, ⟨hk, -⟩, hj⟩ := hj
    exact ih (h.target_lt' hi hk) hj

/-! ### Automata built by exploration -/

/-- The automaton whose nodes are those of an explored graph, with their actions as labels. -/
def ofGraph (nodes : Vec (Explore.Node (List ℕ))) : DFA :=
  ⟨nodes.map fun node => DFANode.live node.label node.transitions, 0⟩

lemma runFrom_ofGraph (nodes : Vec (Explore.Node (List ℕ))) (i : ℕ) (s : List ℕ) :
    (ofGraph nodes).runFrom i s = Explore.run nodes i s := by
  induction s generalizing i with
  | nil => rfl
  | cons c s ih => simp [runFrom, Explore.run, target, ofGraph, ← ih]

section

variable {κ D : Type*} {P : Explore.Problem κ (List ℕ)} {V : κ → Prop} {den : κ → D}
  {step : D → ℕ → Option D} {d₀ : D} {nodes : Vec (Explore.Node (List ℕ))} {key : ℕ → κ}

section

variable (h : Explore.Realizes P V den step d₀ nodes key)

include h

/-- A run of the automaton is a run of the transition function it realizes. -/
lemma map_run_ofGraph (s : List ℕ) :
    ((ofGraph nodes).run s).map (den ∘ key) = Explore.runStep step d₀ s := by
  rw [run, runFrom_ofGraph]
  exact h.map_run_zero s

lemma exists_run_ofGraph (hi : i < nodes.size) : ∃ s, (ofGraph nodes).run s = some i := by
  obtain ⟨s, hs⟩ := h.exists_run hi
  exact ⟨s, (runFrom_ofGraph nodes 0 s).trans hs⟩

lemma wf_ofGraph (hP : Explore.Denotes P V den step)
    (hlast : ∀ k, V k → ∀ r ∈ P.expand k, r.last ≤ 127) : (ofGraph nodes).WF where
  root_lt := h.size_pos
  sorted := h.sorted
  last_le i hi := h.last_le hP hi (hlast _ (h.valid i hi))
  target_lt := h.target_lt

end

end

end DFA

end WebKit.ContentExtensions
