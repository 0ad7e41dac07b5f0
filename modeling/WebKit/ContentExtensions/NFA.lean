import WebKit.Core.RangeMap
import WebKit.Core.Vec

/-!
# Nondeterministic automata

`ImmutableNFA` with the parts of its vectors that belong to a node kept at the node: its
transitions with the targets of each range, its epsilon targets and its actions.
-/

namespace WebKit.ContentExtensions

open RangeMap

structure ImmutableNFANode where
  transitions : List (Range (List ℕ))
  epsilonTransitionTargets : List ℕ
  actions : List ℕ
deriving Repr, DecidableEq

instance : Inhabited ImmutableNFANode := ⟨⟨[], [], []⟩⟩

structure NFA where
  nodes : Vec ImmutableNFANode

namespace NFA

def root (_ : NFA) : ℕ := 0

def transitionsForNode (nfa : NFA) (nodeId : ℕ) : List (Range (List ℕ)) :=
  (nfa.nodes.get nodeId).transitions

/-- The ranges of every node are sorted and disjoint ranges of characters `0..127`, each of them
has a target, and all targets are nodes. -/
structure WF (nfa : NFA) : Prop where
  root_lt : nfa.root < nfa.nodes.size
  sorted : ∀ i < nfa.nodes.size, Sorted (nfa.transitionsForNode i)
  last_le : ∀ i < nfa.nodes.size, ∀ r ∈ nfa.transitionsForNode i, r.last ≤ 127
  data_ne_nil : ∀ i < nfa.nodes.size, ∀ r ∈ nfa.transitionsForNode i, r.data ≠ []
  target_lt : ∀ i < nfa.nodes.size, ∀ r ∈ nfa.transitionsForNode i, ∀ t ∈ r.data, t < nfa.nodes.size
  epsilon_lt : ∀ i < nfa.nodes.size, ∀ t ∈ (nfa.nodes.get i).epsilonTransitionTargets,
    t < nfa.nodes.size

/-- The automaton over sets of nodes. A node accepts when it has an action. -/
def toεNFA (nfa : NFA) : εNFA ℕ ℕ where
  step i
    | none => {t | t ∈ (nfa.nodes.get i).epsilonTransitionTargets}
    | some c => {t | ∃ targets, lookup (nfa.transitionsForNode i) c = some targets ∧ t ∈ targets}
  start := {nfa.root}
  accept := {i | (nfa.nodes.get i).actions ≠ []}

/-- The nodes in which the automaton can be after a string. -/
def eval (nfa : NFA) (s : List ℕ) : Set ℕ := nfa.toεNFA.eval s

/-- The actions of a set of nodes. -/
def actionsOf (nfa : NFA) (S : Set ℕ) : Set ℕ := {a | ∃ i ∈ S, a ∈ (nfa.nodes.get i).actions}

variable {nfa : NFA} {S : Set ℕ}

@[simp] lemma mem_step_some {i c t : ℕ} : t ∈ nfa.toεNFA.step i (some c) ↔
    ∃ targets, lookup (nfa.transitionsForNode i) c = some targets ∧ t ∈ targets := Iff.rfl

@[simp] lemma eval_nil : nfa.eval [] = nfa.toεNFA.εClosure {nfa.root} := rfl

lemma eval_append_singleton (s : List ℕ) (c : ℕ) :
    nfa.eval (s ++ [c]) = nfa.toεNFA.stepSet (nfa.eval s) c :=
  εNFA.eval_append_singleton _ _ _

lemma εClosure_trans {i j : ℕ} (hi : i ∈ nfa.toεNFA.εClosure S)
    (hj : j ∈ nfa.toεNFA.εClosure {i}) : j ∈ nfa.toεNFA.εClosure S := by
  induction hj with
  | base j hj => exact (Set.mem_singleton_iff.mp hj) ▸ hi
  | step j t ht _ ih => exact εNFA.εClosure.step j t ht ih

namespace WF

lemma εClosure_lt (h : nfa.WF) (hS : ∀ i ∈ S, i < nfa.nodes.size) :
    ∀ i ∈ nfa.toεNFA.εClosure S, i < nfa.nodes.size := by
  intro i hi
  induction hi with
  | base i hi => exact hS i hi
  | step i t ht _ ih => exact h.epsilon_lt i ih t ht

lemma step_lt (h : nfa.WF) {i c : ℕ} (hi : i < nfa.nodes.size) :
    ∀ t ∈ nfa.toεNFA.step i (some c), t < nfa.nodes.size := by
  rintro t ⟨targets, hlook, ht⟩
  obtain ⟨r, hr, -, -, rfl⟩ := lookup_eq_some hlook
  exact h.target_lt i hi r hr t ht

lemma eval_lt (h : nfa.WF) (s : List ℕ) : ∀ i ∈ nfa.eval s, i < nfa.nodes.size := by
  induction s using List.reverseRecOn with
  | nil =>
    rw [eval_nil]
    exact h.εClosure_lt (by simpa using h.root_lt)
  | append_singleton s c ih =>
    rw [eval_append_singleton]
    intro j hj
    obtain ⟨i, hi, hj⟩ := εNFA.mem_stepSet_iff.mp hj
    exact h.εClosure_lt (h.step_lt (ih i hi)) j hj

end WF

end NFA

end WebKit.ContentExtensions
