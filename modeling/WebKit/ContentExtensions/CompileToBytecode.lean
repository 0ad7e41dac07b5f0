import WebKit.ContentExtensions.NFAToDFA
import WebKit.ContentExtensions.DFACombiner
import WebKit.ContentExtensions.DFABytecodeInterpreter.Correctness

/-!
# From the automata of the filters to their bytecode

`compileToBytecode` converts the automata, minimizes them, combines the small ones and compiles the
result. The programs are written one after the other, and the interpreter runs through all of
them.
-/

namespace WebKit.ContentExtensions

open WTF List NFAToDFA DFAMerger DFACombiner DFABytecodeInterpreter
open DFABytecodeCompiler hiding Valid

/-! ### The compiler -/

section

variable (ord : IterationOrder ℕ) (ord' : IterationOrder (List ℕ × List ℕ))

def smallDFASize : ℕ := 100

/-- The automata in the combiner. -/
def addedDFAs (dfas : List DFA) : List DFA :=
  (dfas.filter fun dfa => dfa.graphSize < smallDFASize).map (addDFA ord')

/-- The automata that are not combined. -/
def largeDFAs (dfas : List DFA) : List DFA :=
  (dfas.filter fun dfa => ¬dfa.graphSize < smallDFASize).map (DFAMinimizer.minimize ord')

/-- The automata given to `lowerDFAToBytecode`: those that are not small at once, in the order of
the filters, and those of the combiner at the end. -/
def minimizedDFAs (nfas : List NFA) : Option (List DFA) :=
  (nfas.mapM (convert ord)).bind fun dfas =>
    (combineDFAs ord ord' smallDFASize (addedDFAs ord' dfas)).map fun combined =>
      largeDFAs ord' dfas ++ combined

/-- The root gets the actions. It is not killed. -/
def setRootActions (dfa : DFA) (actions : List ℕ) : DFA :=
  { dfa with
    nodes := dfa.nodes.set dfa.root (DFANode.live actions (dfa.nodes.get dfa.root).transitions) }

/-- More than 65534 actions fail the release assertion. -/
def addUniversalActionsToDFA (dfa : DFA) (universalActions : HashSet ℕ) : Option DFA :=
  if universalActions.size = 0 then some dfa
  else if universalActions.size < 65535 then
    some (setRootActions dfa (universalActions.iterate ord))
  else none

/-- `DFA::empty`. -/
def dummyDFA : DFA := ⟨⟨1, fun _ => DFANode.live [] []⟩, 0⟩

/-- The universal actions are put on the first automaton. There is at least one: the interpreter
expects it. -/
def putUniversalActions (universalActions : HashSet ℕ) : List DFA → Option (List DFA)
  | [] => (addUniversalActionsToDFA ord dummyDFA universalActions).map fun dfa => [dfa]
  | dfa :: dfas => (addUniversalActionsToDFA ord dfa universalActions).map fun dfa => dfa :: dfas

/-- The automata that are compiled. -/
def loweredDFAs (nfas : List NFA) (universalActions : HashSet ℕ) : Option (List DFA) :=
  (minimizedDFAs ord ord' nfas).bind (putUniversalActions ord universalActions)

/-- The programs written to the client. -/
def compileToBytecode (nfas : List NFA) (universalActions : HashSet ℕ) : Option (List (List ℕ)) :=
  (loweredDFAs ord ord' nfas universalActions).bind fun dfas => dfas.mapM compile

end

lemma exists_mapM {α β : Type*} {f : α → Option β} {R : α → β → Prop} {l : List α}
    (h : ∀ a ∈ l, ∃ b, f a = some b ∧ R a b) : ∃ l', l.mapM f = some l' ∧ Forall₂ R l l' := by
  induction l with
  | nil => exact ⟨[], rfl, .nil⟩
  | cons a l ih =>
    rw [forall_mem_cons] at h
    obtain ⟨b, hb, hR⟩ := h.1
    obtain ⟨l', hl', hrest⟩ := ih h.2
    exact ⟨b :: l', by simp [hb, hl'], .cons hR hrest⟩

/-! ### Automata that can be lowered -/

section

variable {dfa : DFA} {ord : IterationOrder ℕ} {ord' : IterationOrder (List ℕ × List ℕ)}

/-- An automaton without killed nodes can be lowered, before and after it is minimized. -/
lemma lowerable_of_live (hwf : dfa.WF) (hlive : ∀ i, (dfa.nodes.get i).isKilled = false)
    (hfit : ActionsFit dfa) (hroot : (dfa.nodes.get dfa.root).actions = []) :
    Lowerable dfa ∧ Lowerable (DFAMinimizer.minimize ord' dfa) := by
  obtain ⟨hroot', hlive'⟩ := DFAMinimizer.live_minimize ord' hwf fun i _ => hlive i
  have hactions := DFAMinimizer.actionsAfter_minimize ord' hwf []
  refine ⟨⟨⟨⟨hwf, fun _ _ _ _ => hlive _⟩, hlive _⟩, hfit, hroot⟩,
    ⟨⟨⟨DFAMinimizer.wf_minimize ord' hwf, hlive'⟩, hroot'⟩, ?_, ?_⟩⟩
  · exact fun i hi a ha =>
      hfit i hi a ((DFAMinimizer.actions_replaceNodes_sublist _ dfa i).subset ha)
  · exact (Option.some.inj hactions).trans hroot

/-- What is merged of automata that can be lowered can be lowered. -/
lemma lowerable_merge {a b c : DFA} (h : IsMerge a b c) (ha : Lowerable a) (hb : Lowerable b) :
    Lowerable c ∧ Lowerable (DFAMinimizer.minimize ord' c) := by
  have hfit : ∀ {dfa : DFA}, Lowerable dfa → ∀ s, ∀ x ∈ actionsAt dfa (dfa.run s), x < 2 ^ 49 := by
    intro dfa hdfa s x hx
    cases hi : dfa.run s with
    | none =>
      rw [hi] at hx
      cases hx
    | some i =>
      rw [hi] at hx
      exact hdfa.actionsFit i (hdfa.wf.runFrom_lt s hdfa.wf.root_lt hi) x hx
  refine lowerable_of_live h.wf h.live (fun i hi x hx => ?_) ?_
  · obtain ⟨s, hs⟩ := h.reached i hi
    have hmem := (h.mem_actionsAt s x).1 (by rwa [hs])
    exact hmem.elim (hfit ha s x) (hfit hb s x)
  · refine eq_nil_iff_forall_not_mem.2 fun x hx => ?_
    have hroots : x ∈ (a.nodes.get a.root).actions ∨ x ∈ (b.nodes.get b.root).actions :=
      (h.mem_actionsAt [] x).1 hx
    simp [ha.root_actions, hb.root_actions] at hroots

/-- What `compileToBytecode` needs of the automaton of filters. No filter matches everything: their
actions are the universal ones. -/
structure Convertible (nfa : NFA) : Prop where
  wf : nfa.WF
  actions_le : ∀ s, (nfa.actionsOf (nfa.eval s)).encard ≤ 65535
  actions_lt : ∀ i < nfa.nodes.size, ∀ a ∈ (nfa.nodes.get i).actions, a < 2 ^ 49
  root_actions : nfa.actionsOf (nfa.eval []) = ∅
  sets_le : {S | ∃ s, nfa.eval s = S}.encard ≤ maxNodes

/-- The actions of the nodes visited by a string. -/
def NFA.visitedActions (nfa : NFA) (s : List ℕ) : Set ℕ :=
  {a | ∃ t, t <+: s ∧ a ∈ nfa.actionsOf (nfa.eval t)}

/-- What a converted automaton is for the stages that follow. -/
structure IsConverted (ord' : IterationOrder (List ℕ × List ℕ)) (nfa : NFA) (dfa : DFA) :
    Prop extends DFAMerger.Valid dfa where
  lowerable : Lowerable dfa ∧ Lowerable (DFAMinimizer.minimize ord' dfa)
  visitedActions : ∀ s, dfa.visitedActions s = nfa.visitedActions s

variable {nfa : NFA}

lemma exists_isConverted (ord : IterationOrder ℕ) (ord' : IterationOrder (List ℕ × List ℕ))
    (h : Convertible nfa) : ∃ dfa, convert ord nfa = some dfa ∧ IsConverted ord' nfa dfa := by
  obtain ⟨dfa, subset, hconvert, hdfa⟩ := exists_convert ord h.wf h.actions_le
  refine ⟨dfa, hconvert, ⟨hdfa.wf, ?_⟩, ?_, fun s => ?_⟩
  · -- different nodes stand for different sets of nodes
    have himage : subset '' {i | i < dfa.nodes.size} ⊆ {S | ∃ s, nfa.eval s = S} := by
      rintro _ ⟨i, hi, rfl⟩
      obtain ⟨s, hs⟩ := hdfa.reached i hi
      exact ⟨s, (eq_of_map_eq_ofSet (hdfa.map_run s) hs).symm⟩
    have hcard := (Set.encard_le_encard himage).trans h.sets_le
    have hrange : {i | i < dfa.nodes.size} = (Finset.range dfa.nodes.size : Set ℕ) := by
      ext i
      simp
    rwa [hdfa.injOn.encard_image, hrange, Set.encard_coe_eq_coe_finsetCard, Finset.card_range,
      Nat.cast_le] at hcard
  · refine lowerable_of_live hdfa.wf hdfa.live (fun i hi a ha => ?_) ?_
    · obtain ⟨s, hs⟩ := hdfa.reached i hi
      obtain ⟨j, hj, ha⟩ := (hdfa.mem_actions s i hs a).1 ha
      exact h.actions_lt j (h.wf.eval_lt s j hj) a ha
    · refine eq_nil_iff_forall_not_mem.2 fun a ha => ?_
      have := (hdfa.mem_actions [] dfa.root rfl a).1 ha
      rwa [h.root_actions] at this
  · ext a
    refine exists_congr fun t => and_congr_right fun _ => ?_
    rw [DFA.actionsAfter]
    cases hi : dfa.run t with
    | none =>
      have hempty := hdfa.map_run t
      rw [hi, Option.map_none, eq_comm, ofSet_eq_none] at hempty
      simp [hempty, NFA.actionsOf]
    | some i => simp [hdfa.mem_actions t i hi]

lemma visitedActions_converted {nfas : List NFA} {dfas : List DFA}
    (h : Forall₂ (IsConverted ord') nfas dfas) (s : List ℕ) :
    DFACombiner.visitedActions dfas s = {a | ∃ nfa ∈ nfas, a ∈ nfa.visitedActions s} := by
  ext a
  induction h with
  | nil => simp [DFACombiner.visitedActions]
  | cons hdfa _ ih =>
    rw [visitedActions_cons, Set.mem_union, ih, hdfa.visitedActions]
    simp

lemma valid_of_converted {nfas : List NFA} {dfas : List DFA}
    (h : Forall₂ (IsConverted ord') nfas dfas) :
    ∀ dfa ∈ dfas, DFAMerger.Valid dfa ∧ Lowerable (DFAMinimizer.minimize ord' dfa) := by
  have hflip := h.flip.imp fun dfa nfa h => And.intro (And.intro h.toValid h.lowerable.2) trivial
  exact ((forall₂_and_left _ _).1 hflip).1

/-- Converting, minimizing and combining keep the actions that the strings visit. -/
lemma exists_minimizedDFAs {nfas : List NFA} (hnfas : ∀ nfa ∈ nfas, Convertible nfa)
    (hfits : ∀ dfas, nfas.mapM (convert ord) = some dfas → ∀ a b, Merged ord ord' smallDFASize
      (DFACombiner.smallDFAs smallDFASize (addedDFAs ord' dfas)) a b → Fits a b) :
    ∃ dfas, minimizedDFAs ord ord' nfas = some dfas ∧ (∀ dfa ∈ dfas, Lowerable dfa) ∧
      ∀ s, DFACombiner.visitedActions dfas s = {a | ∃ nfa ∈ nfas, a ∈ nfa.visitedActions s} := by
  obtain ⟨dfas, hconvert, hdfas⟩ :=
    exists_mapM fun nfa h => exists_isConverted ord ord' (hnfas nfa h)
  have hmem := valid_of_converted hdfas
  have hvalid : ∀ {p : DFA → Bool}, ∀ dfa ∈ dfas.filter p, DFAMerger.Valid dfa :=
    fun dfa h => (hmem dfa (mem_filter.1 h).1).1
  have hlower : ∀ {p : DFA → Bool}, ∀ dfa ∈ (dfas.filter p).map (addDFA ord'), Lowerable dfa := by
    intro p
    rw [List.forall_mem_map]
    exact fun dfa h => (hmem dfa (mem_filter.1 h).1).2
  obtain ⟨combined, hcombined, hlowerable, hactions⟩ : ∃ combined,
      combineDFAs ord ord' smallDFASize (addedDFAs ord' dfas) = some combined ∧
      (∀ dfa ∈ combined, Lowerable dfa) ∧ ∀ s, DFACombiner.visitedActions combined s =
        DFACombiner.visitedActions (addedDFAs ord' dfas) s :=
    exists_combineDFAs (fun _ _ _ => lowerable_merge)
      (fun dfa h => ⟨valid_addDFA hvalid dfa h, hlower dfa h⟩) (hfits dfas hconvert)
  refine ⟨largeDFAs ord' dfas ++ combined, ?_, ?_, fun s => ?_⟩
  · rw [minimizedDFAs, hconvert, Option.bind_some, hcombined, Option.map_some]
  · rw [forall_mem_append]
    exact ⟨hlower, hlowerable⟩
  · have hlarge : DFACombiner.visitedActions (largeDFAs ord' dfas) s = _ :=
      visitedActions_addDFA hvalid s
    rw [visitedActions_append, hactions, hlarge, addedDFAs, visitedActions_addDFA hvalid,
      Set.union_comm, visitedActions_filter, visitedActions_converted hdfas]

/-! ### Universal actions -/

section

variable {actions : List ℕ}

lemma get_setRootActions (dfa : DFA) (actions : List ℕ) (i : ℕ) :
    (setRootActions dfa actions).nodes.get i = if i = dfa.root then
      DFANode.live actions (dfa.nodes.get dfa.root).transitions else dfa.nodes.get i :=
  Vec.get_set _ _ _ _

lemma transitions_setRootActions (dfa : DFA) (actions : List ℕ) (i : ℕ) :
    ((setRootActions dfa actions).nodes.get i).transitions = (dfa.nodes.get i).transitions := by
  rw [get_setRootActions]
  split_ifs with hi
  · rw [hi, DFANode.transitions_live]
  · rfl

/-- The strings lead to the same nodes as before. -/
lemma runFrom_setRootActions (i : ℕ) (s : List ℕ) :
    (setRootActions dfa actions).runFrom i s = dfa.runFrom i s := by
  induction s generalizing i with
  | nil => rfl
  | cons c s ih => simp only [DFA.runFrom, DFA.target, transitions_setRootActions, ih]

variable (hdfa : Lowerable dfa)

include hdfa

lemma isKilled_setRootActions (i : ℕ) :
    ((setRootActions dfa actions).nodes.get i).isKilled = (dfa.nodes.get i).isKilled := by
  rw [get_setRootActions]
  split_ifs with hi
  · rw [hi, hdfa.root, DFANode.isKilled_live]
  · rfl

lemma compilable_setRootActions : Compilable (setRootActions dfa actions) := by
  refine ⟨⟨⟨hdfa.wf.root_lt, ?_, ?_, ?_⟩, ?_⟩, ?_⟩
  · intro i hi
    rw [transitions_setRootActions]
    exact hdfa.wf.sorted i hi
  · intro i hi
    rw [transitions_setRootActions]
    exact hdfa.wf.last_le i hi
  · intro i hi
    rw [transitions_setRootActions]
    exact hdfa.wf.target_lt i hi
  · intro i hi r hr
    rw [transitions_setRootActions] at hr
    rw [isKilled_setRootActions hdfa]
    exact hdfa.live i hi r hr
  · rw [isKilled_setRootActions hdfa]
    exact hdfa.root

lemma actionsFit_setRootActions (h : ∀ a ∈ actions, a < 2 ^ 49) :
    ActionsFit (setRootActions dfa actions) := by
  intro i hi a ha
  rw [get_setRootActions] at ha
  split_ifs at ha
  · exact h a ha
  · exact hdfa.actionsFit i hi a ha

lemma visitedActions_setRootActions (s : List ℕ) :
    (setRootActions dfa actions).visitedActions s = {a | a ∈ actions} ∪ dfa.visitedActions s := by
  ext a
  rw [Set.mem_union, DFABytecodeInterpreter.mem_visitedActions,
    DFABytecodeInterpreter.mem_visitedActions]
  simp only [runFrom_setRootActions, get_setRootActions]
  constructor
  · rintro ⟨t, j, ht, hj, ha⟩
    split_ifs at ha
    · exact .inl ha
    · exact .inr ⟨t, j, ht, hj, ha⟩
  · rintro (ha | ⟨t, j, ht, hj, ha⟩)
    · exact ⟨[], dfa.root, nil_prefix, rfl, by rwa [if_pos rfl]⟩
    · refine ⟨t, j, ht, hj, ?_⟩
      rwa [if_neg]
      rintro rfl
      rw [hdfa.root_actions] at ha
      cases ha

end

lemma exists_addUniversalActionsToDFA (ord : IterationOrder ℕ) (hdfa : Lowerable dfa)
    {universalActions : HashSet ℕ} (hsize : universalActions.size < 65535)
    (hlt : ∀ a ∈ universalActions, a < 2 ^ 49) :
    ∃ dfa', addUniversalActionsToDFA ord dfa universalActions = some dfa' ∧ Compilable dfa' ∧
      ActionsFit dfa' ∧
      ∀ s, dfa'.visitedActions s = {a | a ∈ universalActions} ∪ dfa.visitedActions s := by
  rw [addUniversalActionsToDFA]
  split_ifs with hempty
  · refine ⟨dfa, rfl, hdfa.toCompilable, hdfa.actionsFit, fun s => ?_⟩
    have hnone : ∀ a, a ∉ universalActions := fun a => by
      rw [HashSet.mem_def, length_eq_zero_iff.1 hempty]
      exact not_mem_nil
    simp [hnone]
  · refine ⟨_, rfl, compilable_setRootActions hdfa, actionsFit_setRootActions hdfa (by simpa), ?_⟩
    intro s
    rw [visitedActions_setRootActions hdfa]
    simp

lemma lowerable_dummyDFA : Lowerable dummyDFA := by
  refine ⟨⟨⟨⟨Nat.one_pos, ?_, ?_, ?_⟩, ?_⟩, rfl⟩, ?_, rfl⟩ <;> intro i _ <;> simp [dummyDFA]

/-- There is at least one automaton, and only the first one has actions at its root. -/
lemma exists_putUniversalActions (ord : IterationOrder ℕ) {dfas : List DFA}
    (hdfas : ∀ dfa ∈ dfas, Lowerable dfa) {universalActions : HashSet ℕ}
    (hsize : universalActions.size < 65535) (hlt : ∀ a ∈ universalActions, a < 2 ^ 49) :
    ∃ dfa dfas', putUniversalActions ord universalActions dfas = some (dfa :: dfas') ∧
      Compilable dfa ∧ ActionsFit dfa ∧ (∀ dfa ∈ dfas', Lowerable dfa) ∧
      ∀ s, DFACombiner.visitedActions (dfa :: dfas') s =
        {a | a ∈ universalActions} ∪ DFACombiner.visitedActions dfas s := by
  cases dfas with
  | nil =>
    obtain ⟨dfa, hdfa, hcompilable, hfit, hactions⟩ :=
      exists_addUniversalActionsToDFA ord lowerable_dummyDFA hsize hlt
    refine ⟨dfa, [], by rw [putUniversalActions, hdfa, Option.map_some], hcompilable, hfit, by simp,
      fun s => ?_⟩
    have hdummy : dummyDFA.visitedActions s = ∅ := by
      ext a
      rw [DFABytecodeInterpreter.mem_visitedActions]
      simp [dummyDFA]
    rw [visitedActions_cons, hactions, hdummy, Set.union_empty]
  | cons dfa dfas =>
    rw [forall_mem_cons] at hdfas
    obtain ⟨dfa', hdfa', hcompilable, hfit, hactions⟩ :=
      exists_addUniversalActionsToDFA ord hdfas.1 hsize hlt
    refine ⟨dfa', dfas, by rw [putUniversalActions, hdfa', Option.map_some], hcompilable, hfit,
      hdfas.2, fun s => ?_⟩
    rw [visitedActions_cons, visitedActions_cons, hactions, Set.union_assoc]

/-! ### The programs -/

/-- The offsets bound the whole bytecode. -/
lemma exists_programs {dfas : List DFA} (hdfas : ∀ dfa ∈ dfas, Compilable dfa)
    (hsize : (dfas.map fun dfa => (maxNodeStartOffsets dfa).2).sum < 2 ^ 31) :
    ∃ programs, dfas.mapM compile = some programs ∧ CompiledFrom programs.flatten 0 dfas := by
  have hprogram : ∀ dfa ∈ dfas, ∃ program, compile dfa = some program ∧
      program.length ≤ (maxNodeStartOffsets dfa).2 ∧
      DFABytecodeCompiler.Valid dfa dfa.root ∧
      ∃ starts, Compiled dfa program 0 program.length starts := by
    intro dfa h
    have hdfa := hdfas dfa h
    have hle : (maxNodeStartOffsets dfa).2 ≤ _ :=
      single_le_sum (by simp) _ (mem_map_of_mem (f := fun dfa => (maxNodeStartOffsets dfa).2) h)
    obtain ⟨program, starts, hcompile, hlength, hcompiled⟩ :=
      exists_compiled hdfa (hle.trans_lt hsize)
    exact ⟨program, hcompile, hlength, ⟨hdfa.wf.root_lt, hdfa.root⟩, starts, hcompiled⟩
  obtain ⟨programs, hcompile, hprograms⟩ := exists_mapM hprogram
  have hlength :
      programs.flatten.length ≤ (dfas.map fun dfa => (maxNodeStartOffsets dfa).2).sum := by
    rw [length_flatten]
    refine Forall₂.sum_le_sum ?_
    rw [forall₂_map_left_iff, forall₂_map_right_iff]
    exact (hprograms.imp fun _ _ h => h.1).flip
  have hflatten := compiledFrom_flatten [] (hprograms.imp fun _ _ h => h.2)
    (hlength.trans_lt hsize)
  exact ⟨programs, hcompile, hflatten⟩

/-- The actions of the filters whose automata visit them along the string, and the universal
ones. -/
def matchedActions (nfas : List NFA) (universalActions : HashSet ℕ) (s : List ℕ) : Set ℕ :=
  {a | a ∈ universalActions} ∪ {a | ∃ nfa ∈ nfas, a ∈ nfa.visitedActions s}

/-- What the interpreter collects on the bytecode of filters, together with the actions that match
everything, are the actions of the filters along the URL whose flags match. The edges at the end of
the string may add actions. -/
theorem interpret_compileToBytecode (ord : IterationOrder ℕ)
    (ord' : IterationOrder (List ℕ × List ℕ)) (nfas : List NFA) (universalActions : HashSet ℕ)
    (hnfas : ∀ nfa ∈ nfas, Convertible nfa) (hcount : universalActions.size < 65535)
    (hactions : ∀ a ∈ universalActions, a < 2 ^ 49)
    (hfits : ∀ dfas, nfas.mapM (convert ord) = some dfas → ∀ a b, Merged ord ord' smallDFASize
      (DFACombiner.smallDFAs smallDFASize (addedDFAs ord' dfas)) a b → Fits a b)
    (hsize : ∀ dfas, loweredDFAs ord ord' nfas universalActions = some dfas →
      (dfas.map fun dfa => (maxNodeStartOffsets dfa).2).sum < 2 ^ 31)
    (flags : ℕ) (u : List ℕ) (hu : ∀ c ∈ u, c ≠ 0 ∧ c < 128) :
    ∃ programs, compileToBytecode ord ord' nfas universalActions = some programs ∧
      ∃ actions fuel₀,
        (∀ fuel ≥ fuel₀, interpret programs.flatten none flags u fuel = some actions) ∧
        (∀ a ∈ matchedActions nfas universalActions u, flagsMatch (actionFlags a) flags →
          a ∈ actions ∨ a ∈ actionsMatchingEverything programs.flatten none) ∧
        ∀ a, a ∈ actions ∨ a ∈ actionsMatchingEverything programs.flatten none →
          flagsMatch (actionFlags a) flags ∧
            a ∈ matchedActions nfas universalActions (u ++ [0]) := by
  obtain ⟨minimized, hminimized, hlowerable, hvisited⟩ := exists_minimizedDFAs hnfas hfits
  obtain ⟨dfa, dfas, hput, hdfa, hfit, hdfas, hvisited'⟩ :=
    exists_putUniversalActions ord hlowerable hcount hactions
  have hlowered : loweredDFAs ord ord' nfas universalActions = some (dfa :: dfas) := by
    rw [loweredDFAs, hminimized, Option.bind_some, hput]
  have hmatched : ∀ s, DFACombiner.visitedActions (dfa :: dfas) s =
      matchedActions nfas universalActions s := by
    intro s
    rw [hvisited', hvisited, matchedActions]
  have hcompilable : ∀ dfa' ∈ dfa :: dfas, Compilable dfa' := by
    rw [forall_mem_cons]
    exact ⟨hdfa, fun dfa' h => (hdfas dfa' h).toCompilable⟩
  obtain ⟨programs, hcompile, hprograms⟩ := exists_programs hcompilable (hsize _ hlowered)
  refine ⟨programs, by rw [compileToBytecode, hlowered, Option.bind_some, hcompile], ?_⟩
  obtain ⟨span, starts, hcompiled, hrest⟩ := hprograms.exists_head
  rw [Nat.zero_add] at hrest
  obtain ⟨fuel₀, hinterpret⟩ := exists_interpret hdfa hfit hcompiled hrest hdfas hu
  obtain ⟨-, heverything⟩ :=
    Compiled.rootActions hfit ⟨hdfa.wf.root_lt, hdfa.root⟩ hcompiled none flags
  have hcollects := collects_collect dfa none flags dfa.root u
    ((dfa.nodes.get dfa.root).actions.foldl (recordFlagged none flags) HashSet.empty)
  refine ⟨_, fuel₀, hinterpret, fun a ha hflags => ?_, fun a ha => ?_⟩
  · rw [← hmatched, visitedActions_cons] at ha
    rw [heverything]
    rcases ha with ha | ⟨dfa', hdfa', ha⟩
    · exact (hcollects.complete_root ha (passes_none.2 hflags)).imp_left mem_collectAll_of_mem
    · exact .inl (mem_collectAll_of_visited hdfa' (hdfas dfa' hdfa').root_actions ha
        (passes_none.2 hflags))
  · rw [← hmatched, visitedActions_cons]
    rw [heverything] at ha
    -- an action of the first automaton, or of one that comes after it
    rcases ha with ha | ha
    · rcases collectAll_sound ha with ha | ⟨hpass, ha⟩
      · exact (hcollects.sound_root (.inl ha)).imp passes_none.1 .inl
      · exact ⟨passes_none.1 hpass, .inr ha⟩
    · exact (hcollects.sound_root (.inr ha)).imp passes_none.1 .inl

/-- The automaton of a filter for one character up to `last`. -/
def letterNFA (last action : ℕ) : NFA :=
  ⟨⟨2, fun i => if i = 0 then ⟨[⟨97, last, [1]⟩], [], []⟩ else ⟨[], [], [action]⟩⟩⟩

lemma convertible_letterNFA {last action : ℕ} (hlast : 97 ≤ last ∧ last ≤ 127)
    (haction : action < 2 ^ 49) : Convertible (letterNFA last action) := by
  have hnode : ∀ i < (letterNFA last action).nodes.size, i = 0 ∨ i = 1 := by
    intro i hi
    have : i < 2 := hi
    omega
  have hwf : (letterNFA last action).WF := by
    refine ⟨Nat.zero_lt_two, ?_, ?_, ?_, ?_, ?_⟩ <;> intro i hi <;>
      rcases hnode i hi with rfl | rfl <;> simp [letterNFA, NFA.transitionsForNode, hlast]
  refine ⟨hwf, fun s => ?_, fun i hi a ha => ?_, ?_, ?_⟩
  · have hsub : (letterNFA last action).actionsOf ((letterNFA last action).eval s) ⊆ {action} := by
      rintro a ⟨i, -, ha⟩
      by_cases hi : i = 0 <;> simp_all [letterNFA]
    exact (Set.encard_le_encard hsub).trans (by simp)
  · rcases hnode i hi with rfl | rfl
    · cases ha
    · rwa [mem_singleton.1 ha]
  · refine Set.eq_empty_of_forall_notMem ?_
    rintro a ⟨i, hi, ha⟩
    -- no epsilon transition leaves the root
    have hroot : i = 0 := by
      induction hi with
      | base i hi => exact hi
      | step i t ht _ _ =>
        by_cases hi : i = 0 <;> simp [letterNFA, NFA.toεNFA, hi] at ht
    simp [letterNFA, hroot] at ha
  · obtain ⟨S, hcard, hS⟩ := exists_finset_reached hwf
    have hsub : {T | ∃ s, (letterNFA last action).eval s = T} ⊆ (S : Set (Set ℕ)) := by
      rintro _ ⟨s, rfl⟩
      exact hS s
    refine (Set.encard_le_encard hsub).trans ?_
    rw [Set.encard_coe_eq_coe_finsetCard, Nat.cast_le]
    exact hcard.trans (show 2 ^ 2 ≤ maxNodes by decide)

theorem interpret_compileToBytecode_letters :
    ∃ programs, compileToBytecode .insertion .insertion [letterNFA 98 6, letterNFA 97 5]
        (HashSet.empty.add 9) = some programs ∧
      ∃ actions fuel₀,
        (∀ fuel ≥ fuel₀, interpret programs.flatten none 0 [97] fuel = some actions) ∧
        (∀ a ∈ matchedActions [letterNFA 98 6, letterNFA 97 5] (HashSet.empty.add 9) [97],
          flagsMatch (actionFlags a) 0 →
            a ∈ actions ∨ a ∈ actionsMatchingEverything programs.flatten none) ∧
        ∀ a, a ∈ actions ∨ a ∈ actionsMatchingEverything programs.flatten none →
          flagsMatch (actionFlags a) 0 ∧
            a ∈ matchedActions [letterNFA 98 6, letterNFA 97 5] (HashSet.empty.add 9)
              ([97] ++ [0]) := by
  have hnfas : ∀ nfa ∈ [letterNFA 98 6, letterNFA 97 5], Convertible nfa := by
    simp only [mem_cons, not_mem_nil, or_false, forall_eq_or_imp, forall_eq]
    exact ⟨convertible_letterNFA (by omega) (by decide),
      convertible_letterNFA (by omega) (by decide)⟩
  have hsmall : ([letterNFA 98 6, letterNFA 97 5].mapM (convert .insertion)).all (fun dfas =>
      decide (dfas.length ≤ 2 ∧ ∀ dfa ∈ dfas, dfa.nodes.size < 100 ∧
        ∀ i < dfa.nodes.size, (dfa.nodes.get i).actions.length ≤ 100)) = true := by
    decide +kernel
  have hshort : (loweredDFAs .insertion .insertion [letterNFA 98 6, letterNFA 97 5]
      (HashSet.empty.add 9)).all (fun dfas =>
        decide ((dfas.map fun dfa => (maxNodeStartOffsets dfa).2).sum < 2 ^ 31)) = true := by
    decide +kernel
  refine interpret_compileToBytecode .insertion .insertion _ _ hnfas (by decide) (by decide) ?_ ?_
    0 [97] (by decide)
  · intro dfas hconvert a b hmerged
    obtain ⟨dfas', hconvert', hdfas⟩ :=
      exists_mapM fun nfa h => exists_isConverted .insertion .insertion (hnfas nfa h)
    obtain rfl : dfas' = dfas := Option.some.inj (hconvert'.symm.trans hconvert)
    rw [hconvert, Option.all_some, decide_eq_true_eq] at hsmall
    refine hmerged.fits_of_length_le (fun dfa h => ?_) ((length_filter_le _ _).trans hsmall.1)
      fun dfa h => hsmall.2 dfa (mem_filter.1 h).1
    exact (valid_of_converted hdfas dfa (mem_filter.1 h).1).1
  · intro dfas hdfas
    rw [hdfas] at hshort
    simpa using hshort

end

end WebKit.ContentExtensions
