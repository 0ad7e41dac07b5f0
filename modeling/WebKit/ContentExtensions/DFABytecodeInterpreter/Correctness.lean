import WebKit.ContentExtensions.DFABytecodeInterpreter.Basic

/-!
# Runs of the interpreter on compiled automata

A run of the interpreter follows the run of the automaton: it records the actions of a node when it
enters it, and goes to the target for the current character.
-/

namespace WebKit.ContentExtensions

open Bytes Linking WTF DFABytecodeCompiler List HashSet
open Option hiding mem_map

namespace DFABytecodeInterpreter

/-! ### Runs -/

variable {s : List ℕ} {a : ℕ}

section

variable (bytecode : List ℕ) (top : Option Actions) (flags : ℕ) (url : List ℕ)

/-- The run from `m` comes to `m'`. -/
def Leads (m m' : Machine) : Prop :=
  ∃ k, ∀ n, interpretInstructions bytecode top flags url (n + k) m =
    interpretInstructions bytecode top flags url n m'

/-- The run from `m` ends with the actions. -/
def Ends (m : Machine) (actions : Actions) : Prop :=
  ∃ k, ∀ n, interpretInstructions bytecode top flags url (n + k) m = some actions

variable {bytecode top flags url} {m m' m'' : Machine} {actions : Actions}

lemma Leads.refl (m : Machine) : Leads bytecode top flags url m m := ⟨0, fun _ => rfl⟩

lemma Leads.trans (h : Leads bytecode top flags url m m')
    (h' : Leads bytecode top flags url m' m'') : Leads bytecode top flags url m m'' := by
  obtain ⟨k, hk⟩ := h
  obtain ⟨k', hk'⟩ := h'
  refine ⟨k' + k, fun n => ?_⟩
  rw [← Nat.add_assoc, hk, hk']

lemma Leads.ends (h : Leads bytecode top flags url m m')
    (h' : Ends bytecode top flags url m' actions) : Ends bytecode top flags url m actions := by
  obtain ⟨k, hk⟩ := h
  obtain ⟨k', hk'⟩ := h'
  refine ⟨k' + k, fun n => ?_⟩
  rw [← Nat.add_assoc, hk, hk']

lemma leads_of_next (h : interpretInstruction bytecode top flags url m = some (.next m')) :
    Leads bytecode top flags url m m' := by
  refine ⟨1, fun n => ?_⟩
  rw [interpretInstructions, h]

lemma ends_of_nextDFA
    (h : interpretInstruction bytecode top flags url m = some (.nextDFA actions)) :
    Ends bytecode top flags url m actions := by
  refine ⟨1, fun n => ?_⟩
  rw [interpretInstructions, h]

variable {starts : ℕ → ℕ} {size : ℕ → Item → DFABytecodeJumpSize}

variable {as : List ℕ}

/-- The actions of a node are recorded one after the other. -/
lemma leads_actions (has : ∀ a ∈ as, a < 2 ^ 49) (items : List Item)
    (h : CodeAt jumpSizeInBytes starts bytecode m.programCounter
      (pieces size m.programCounter (as.map Item.action ++ items))) :
    let pc := m.programCounter + (as.map appendActionBytecodeSize).sum
    Leads bytecode top flags url m
      { m with programCounter := pc, actions := as.foldl (record top flags) m.actions } ∧
    CodeAt jumpSizeInBytes starts bytecode pc (pieces size pc items) := by
  induction as generalizing m with
  | nil => exact ⟨.refl m, h⟩
  | cons a as ih =>
    have hlen : ((Item.action a).piece (size m.programCounter (Item.action a))).length
        jumpSizeInBytes = appendActionBytecodeSize a := by
      simp [Item.piece, Item.head, Item.targets, Piece.length, length_actionBytes]
    have hstep := interpretInstruction_action top flags url (has a mem_cons_self) h
    have htail := h.tail
    rw [hlen] at htail
    obtain ⟨hleads, hcode⟩ := ih (m := { m with
        programCounter := m.programCounter + appendActionBytecodeSize a
        actions := record top flags m.actions a })
      (fun b hb => has b (mem_cons_of_mem _ hb)) htail
    rw [map_cons, sum_cons, ← Nat.add_assoc]
    exact ⟨(leads_of_next hstep).trans hleads, hcode⟩

/-- The target that a table or a range has for a character. -/
def itemTarget? (c : ℕ) : Item → Option ℕ
  | .jumpTable table => table.target? c
  | .checkRange range => range.target? c
  | _ => none

/-- A table or a range that leads to what `f` gives. -/
def IsCheck (f : ℕ → Option ℕ) : Item → Prop
  | .jumpTable table => table.Sound f
  | .checkRange range => DFABytecodeCompiler.Sound f range
  | _ => False

variable {item : Item} {f : ℕ → Option ℕ}

lemma IsCheck.target (h : IsCheck f item) {c d : ℕ}
    (hc : c < 128) (hd : itemTarget? c item = some d) : f c = some d := by
  cases item with
  | jumpTable table => exact JumpTable.Sound.target h c hc d hd
  | checkRange range => exact DFABytecodeCompiler.Sound.target h c hc d hd
  | action a | jump d | terminate => cases h

variable {code : List (Piece DFABytecodeJumpSize)} {jumpSize : DFABytecodeJumpSize}

lemma leads_check (top : Option Actions) (flags : ℕ) (url : List ℕ) (hitem : IsCheck f item)
    (hst : ∀ d ∈ item.targets, starts d < 2 ^ 32) (haft : m.urlIndexIsAfterEndOfString = false)
    (h : CodeAt jumpSizeInBytes starts bytecode m.programCounter (item.piece jumpSize :: code)) :
    Leads bytecode top flags url m
      (match itemTarget? (characterAt url m.urlIndex) item with
        | some d => m.enter starts url d
        | none => m.advance ((item.piece jumpSize).length jumpSizeInBytes)) := by
  apply leads_of_next
  cases item with
  | jumpTable table =>
    rw [interpret_jumpTable hitem hst haft h, itemTarget?]
    cases table.target? (characterAt url m.urlIndex) <;> rfl
  | checkRange range =>
    rw [interpret_checkRange (hst _ mem_cons_self) haft h, itemTarget?]
    cases range.target? (characterAt url m.urlIndex) <;> rfl
  | action a | jump d | terminate => cases hitem

/-- The last item of a node. -/
def fallbackItem (fallback : Option ℕ) : Item :=
  match fallback with
  | some target => Item.jump target
  | none => Item.terminate

variable {g : ℕ → Option ℕ} {checks : List Item} {items : List Item}

/-- The first check that has a target for the current character decides, and checks without one are
passed. -/
lemma leads_checks (hchk : ∀ item ∈ checks, IsCheck g item)
    (hst : ∀ item ∈ checks, ∀ d ∈ item.targets, starts d < 2 ^ 32)
    (hc : characterAt url m.urlIndex < 128) (haft : m.urlIndexIsAfterEndOfString = false)
    (h : CodeAt jumpSizeInBytes starts bytecode m.programCounter
      (pieces size m.programCounter (checks ++ items))) :
    (∃ d, g (characterAt url m.urlIndex) = some d ∧
      Leads bytecode top flags url m (m.enter starts url d)) ∨
    (∀ item ∈ checks, itemTarget? (characterAt url m.urlIndex) item = none) ∧
      ∃ pc, Leads bytecode top flags url m { m with programCounter := pc } ∧
        CodeAt jumpSizeInBytes starts bytecode pc (pieces size pc items) := by
  induction checks generalizing m with
  | nil => exact .inr ⟨by simp, m.programCounter, .refl m, h⟩
  | cons item checks ih =>
    have hleads := leads_check top flags url (hchk item mem_cons_self) (hst item (by simp)) haft h
    cases htgt : itemTarget? (characterAt url m.urlIndex) item with
    | some d =>
      rw [htgt] at hleads
      exact .inl ⟨d, (hchk item mem_cons_self).target hc htgt, hleads⟩
    | none =>
      rw [htgt] at hleads
      rcases ih (m := m.advance ((item.piece (size m.programCounter item)).length jumpSizeInBytes))
        (fun i hi => hchk i (mem_cons_of_mem _ hi)) (fun i hi => hst i (mem_cons_of_mem _ hi)) hc
        haft h.tail with ⟨d, hd, hleads'⟩ | ⟨hnone, pc, hleads', hcode⟩
      · exact .inl ⟨d, hd, hleads.trans hleads'⟩
      · exact .inr ⟨forall_mem_cons.2 ⟨htgt, hnone⟩, pc, hleads.trans hleads', hcode⟩

/-- The run goes to the node, or ends if there is none. -/
def Follows (bytecode : List ℕ) (topURLActions : Option Actions) (flags : ℕ) (url : List ℕ)
    (starts : ℕ → ℕ) (m : Machine) (next : Option ℕ) : Prop :=
  match next with
  | some d => Leads bytecode topURLActions flags url m (m.enter starts url d)
  | none => Ends bytecode topURLActions flags url m m.actions

/-- From the transitions of a node, the run goes to what the checks have for the current character,
or else to the fallback, which is not taken at the end of the string. -/
lemma run_checks {fallback : Option ℕ}
    (hchk : ∀ item ∈ checks, IsCheck g item)
    (hst : ∀ item ∈ checks ++ [fallbackItem fallback], ∀ d ∈ item.targets, starts d < 2 ^ 32)
    (hc : characterAt url m.urlIndex < 128)
    (hcov : g (characterAt url m.urlIndex) ≠ none →
      ∃ item ∈ checks, (itemTarget? (characterAt url m.urlIndex) item).isSome)
    (haft : m.urlIndexIsAfterEndOfString = false)
    (h : CodeAt jumpSizeInBytes starts bytecode m.programCounter
      (pieces size m.programCounter (checks ++ [fallbackItem fallback]))) :
    Follows bytecode top flags url starts m
      ((g (characterAt url m.urlIndex)).or
        (if characterAt url m.urlIndex = 0 then none else fallback)) := by
  rcases leads_checks hchk (fun item hitem => hst item (mem_append_left _ hitem)) hc haft h with
    ⟨d, hd, hleads⟩ | ⟨hnone, pc, hleads, hcode⟩
  · rw [hd]
    exact hleads
  · have hg : g (characterAt url m.urlIndex) = none := by
      by_contra hne
      obtain ⟨item, hitem, hsome⟩ := hcov hne
      simp [hnone item hitem] at hsome
    rw [hg]
    cases fallback with
    | none =>
      rw [ite_self]
      exact hleads.ends (ends_of_nextDFA (interpret_terminate hcode))
    | some d =>
      have hstep := interpretInstruction_jump (m := { m with programCounter := pc }) top
        flags url (hst (fallbackItem (some d)) (by simp) d mem_cons_self) haft hcode
      by_cases hzero : characterAt url m.urlIndex = 0
      · rw [if_pos hzero] at hstep ⊢
        exact hleads.ends (ends_of_nextDFA hstep)
      · rw [if_neg hzero] at hstep ⊢
        exact hleads.trans (leads_of_next hstep)

variable {dfa : DFA}

lemma transitionItems_eq (node : DFANode) : ∃ checks, transitionItems node =
    checks ++ [fallbackItem (transitions node).fallbackTransitionTarget] ∧
    checks = (transitions node).jumpTables.map Item.jumpTable ++
      (transitions node).ranges.map Item.checkRange := by
  refine ⟨_, ?_, rfl⟩
  rw [transitionItems]
  cases (transitions node).fallbackTransitionTarget <;> rfl

/-- The code of a node goes on with an item that is no action. -/
lemma exists_transitionItems (node : DFANode) :
    ∃ item items, transitionItems node = item :: items ∧ ∀ a, item ≠ .action a := by
  obtain ⟨item, items, hitems⟩ := exists_cons_of_ne_nil (transitionItems_ne_nil node)
  refine ⟨item, items, hitems, ?_⟩
  rintro a rfl
  have h : Item.action a ∈ transitionItems node := hitems ▸ mem_cons_self
  unfold transitionItems at h
  simp only [mem_append, mem_map, mem_singleton, reduceCtorEq, and_false,
    exists_false, false_or] at h
  split at h <;> cases h

/-- The node that the interpreter goes to. The compiler has no check for what leads to the target of
the fallback, and at the end of the string the fallback is not taken. -/
def followed (dfa : DFA) (i c : ℕ) : Option ℕ :=
  (dfa.target i c).filter fun d =>
    c ≠ 0 ∨ (transitions (dfa.nodes.get i)).fallbackTransitionTarget ≠ some d

lemma followed_eq_target {i c : ℕ} (hc : c ≠ 0) : followed dfa i c = dfa.target i c := by
  simp only [followed, ne_eq, hc]
  cases dfa.target i c <;> rfl

lemma target_of_followed {i c d : ℕ} (h : followed dfa i c = some d) : dfa.target i c = some d :=
  (filter_eq_some_iff.1 h).1

lemma followed_zero_eq_some {i d : ℕ} : followed dfa i 0 = some d ↔ dfa.target i 0 = some d ∧
    (transitions (dfa.nodes.get i)).fallbackTransitionTarget ≠ some d := by
  simp [followed]

lemma followed_eq_or {i c : ℕ} (hreal : (transitions (dfa.nodes.get i)).Realizes (dfa.target i))
    (hfinds : (transitions (dfa.nodes.get i)).Finds g)
    (hg : ∀ c d, g c = some d ↔ dfa.target i c = some d ∧
      (transitions (dfa.nodes.get i)).fallbackTransitionTarget ≠ some d) (hc : c < 128) :
    followed dfa i c = (g c).or
      (if c = 0 then none else (transitions (dfa.nodes.get i)).fallbackTransitionTarget) := by
  by_cases hzero : c = 0
  · subst hzero
    rw [if_pos rfl, or_none]
    ext d
    rw [followed_zero_eq_some, hg]
  · rw [if_neg hzero, followed_eq_target hzero]
    cases hgc : g c with
    | some d => rw [((hg c d).1 hgc).1, some_or]
    | none =>
      refine hreal.otherwise c (Nat.pos_of_ne_zero hzero) hc (fun table htable => ?_) fun r hr => ?_
      · by_contra hne
        obtain ⟨d, hd⟩ := ne_none_iff_exists'.1 hne
        rw [(hfinds.table_sound table htable).target c hc d hd] at hgc
        cases hgc
      · by_contra hne
        obtain ⟨d, hd⟩ := ne_none_iff_exists'.1 hne
        rw [(hfinds.range_sound r hr).target c hc d hd] at hgc
        cases hgc

variable {i : ℕ}

variable {base span : ℕ}

/-- From the transitions of a node. -/
lemma run_transitions (hdfa : Compilable dfa) (hcomp : Compiled dfa bytecode base span starts)
    (hi : Valid dfa i) (hc : characterAt url m.urlIndex < 128)
    (haft : m.urlIndexIsAfterEndOfString = false)
    (h : CodeAt jumpSizeInBytes starts bytecode m.programCounter
      (pieces size m.programCounter (transitionItems (dfa.nodes.get i)))) :
    Follows bytecode top flags url starts m (followed dfa i (characterAt url m.urlIndex)) := by
  obtain ⟨g, hfinds, hg⟩ := transitions_finds (hdfa.wf.sorted i hi.1)
  have hreal := hdfa.realizes hi.1
  obtain ⟨checks, hitems, hchk⟩ := transitionItems_eq (dfa.nodes.get i)
  have hchecksOf : ∀ item ∈ checks, IsCheck g item := by
    intro item hitem
    rw [hchk, mem_append] at hitem
    rcases hitem with hitem | hitem
    · obtain ⟨table, htable, rfl⟩ := mem_map.1 hitem
      exact hfinds.table_sound table htable
    · obtain ⟨range, hrng, rfl⟩ := mem_map.1 hitem
      exact hfinds.range_sound range hrng
  rw [hitems] at h
  rw [followed_eq_or hreal hfinds hg hc]
  refine run_checks hchecksOf ?_ hc ?_ haft h
  · intro item hitem d hd
    have hvld := (hdfa.items hi.1 (mem_append_right _ (hitems ▸ hitem))).2 d hd
    have hstart := hcomp.start_lt d hvld
    have hle := hcomp.length_le
    have hlt := hcomp.length_lt
    omega
  · intro hne
    rcases hfinds.covered _ hc hne with ⟨table, htable, hsome⟩ | ⟨range, hrng, hsome⟩
    · exact ⟨Item.jumpTable table, by
        rw [hchk]
        exact mem_append_left _ (mem_map_of_mem htable), hsome⟩
    · exact ⟨Item.checkRange range, by
        rw [hchk]
        exact mem_append_right _ (mem_map_of_mem hrng), hsome⟩

/-- The actions that are recorded when a node is entered. -/
def entryActions (dfa : DFA) (i : ℕ) : List ℕ :=
  if i = dfa.root then [] else (dfa.nodes.get i).actions

/-- Every action of the automaton has 49 bits. -/
def ActionsFit (dfa : DFA) : Prop :=
  ∀ i < dfa.nodes.size, ∀ a ∈ (dfa.nodes.get i).actions, a < 2 ^ 49

/-- From the start of a node its actions are recorded. -/
lemma leads_entry (hact : ActionsFit dfa) (hcomp : Compiled dfa bytecode base span starts)
    (hi : Valid dfa i) (hm : m.programCounter = starts i) :
    ∃ pc size, Leads bytecode top flags url m
      { m with
        programCounter := pc
        actions := (entryActions dfa i).foldl (record top flags) m.actions } ∧
      CodeAt jumpSizeInBytes starts bytecode pc
        (pieces size pc (transitionItems (dfa.nodes.get i))) := by
  obtain ⟨size, hcode⟩ := hcomp.node i hi
  rw [← hm] at hcode
  unfold entryItems at hcode
  unfold entryActions
  split_ifs at hcode ⊢ with hroot
  · exact ⟨m.programCounter, size, .refl m, hcode⟩
  · exact ⟨_, size, leads_actions (hact i hi.1) _ hcode⟩

/-- The action is appended when it is met. -/
def Passes (topURLActions : Option Actions) (flags a : ℕ) : Prop :=
  flagsMatch (actionFlags a) flags ∧ acceptsAction topURLActions a

lemma passes_none : Passes none flags a ↔ flagsMatch (actionFlags a) flags := by
  simp [Passes, acceptsAction]

variable {b : ℕ}

lemma mem_foldl_record :
    b ∈ as.foldl (record top flags) actions ↔ b ∈ actions ∨ (b ∈ as ∧ Passes top flags b) :=
  (foldl_iff (P := (b ∈ ·)) (Q := fun a => b = a ∧ Passes top flags a)
    (fun _ _ _ => mem_record) actions).trans (by simp)

/-- `after` are the actions that a run from the node `i` along `s` has, when it starts with
`before`. At the end of the string one more edge may be taken. -/
structure Collects (dfa : DFA) (topURLActions : Option Actions) (flags i : ℕ) (s : List ℕ)
    (before after : Actions) : Prop where
  mono : ∀ a ∈ before, a ∈ after
  complete : ∀ t j, t <+: s → dfa.runFrom i t = some j →
    ∀ a ∈ entryActions dfa j, Passes topURLActions flags a → a ∈ after
  sound : ∀ a ∈ after, a ∈ before ∨ (Passes topURLActions flags a ∧
    ∃ t j, t <+: s ++ [0] ∧ dfa.runFrom i t = some j ∧ a ∈ (dfa.nodes.get j).actions)

lemma mem_of_entryActions {i : ℕ} (h : a ∈ entryActions dfa i) : a ∈ (dfa.nodes.get i).actions := by
  unfold entryActions at h
  split_ifs at h
  · cases h
  · exact h

variable {before : Actions}

/-- The run goes on along the first character. -/
lemma Collects.cons {i d c : ℕ} {after : Actions} (hd : dfa.target i c = some d)
    (h : Collects dfa top flags d s ((entryActions dfa i).foldl (record top flags) before) after) :
    Collects dfa top flags i (c :: s) before after where
  mono := fun a ha => h.mono a (mem_foldl_record.2 (.inl ha))
  complete := by
    intro t j ht hj a ha hpass
    cases t with
    | nil =>
      obtain rfl : i = j := by simpa [DFA.runFrom] using hj
      exact h.mono a (mem_foldl_record.2 (.inr ⟨ha, hpass⟩))
    | cons c' t =>
      obtain ⟨rfl, htail⟩ := cons_prefix_cons.1 ht
      rw [DFA.runFrom, hd] at hj
      exact h.complete t j htail hj a ha hpass
  sound := by
    intro a ha
    rcases h.sound a ha with ha | ⟨hpass, t, j, ht, hj, ha⟩
    · rcases mem_foldl_record.1 ha with ha | ⟨ha, hpass⟩
      · exact .inl ha
      · exact .inr ⟨hpass, [], i, nil_prefix, rfl, mem_of_entryActions ha⟩
    · refine .inr ⟨hpass, c :: t, j, cons_prefix_cons.2 ⟨rfl, ht⟩, ?_, ha⟩
      rw [DFA.runFrom, hd, bind_some, hj]

/-- The run ends at the node. -/
lemma collects_of_end (h : ∀ c s', s = c :: s' → dfa.target i c = none) :
    Collects dfa top flags i s before ((entryActions dfa i).foldl (record top flags) before) where
  mono := fun a ha => mem_foldl_record.2 (.inl ha)
  complete := by
    intro t j ht hj a ha hpass
    cases t with
    | nil =>
      obtain rfl : i = j := by simpa [DFA.runFrom] using hj
      exact mem_foldl_record.2 (.inr ⟨ha, hpass⟩)
    | cons c t =>
      obtain ⟨s', rfl⟩ := ht
      rw [DFA.runFrom, h c (t ++ s') rfl] at hj
      cases hj
  sound := by
    intro a ha
    rcases mem_foldl_record.1 ha with ha | ⟨ha, hpass⟩
    · exact .inl ha
    · exact .inr ⟨hpass, [], i, nil_prefix, rfl, mem_of_entryActions ha⟩

/-- The edge at the end of the string. -/
lemma Collects.end_edge {i d : ℕ} (hd : dfa.target i 0 = some d) :
    Collects dfa top flags i [] before
      ((entryActions dfa d).foldl (record top flags)
        ((entryActions dfa i).foldl (record top flags) before)) where
  mono := fun a ha => mem_foldl_record.2 (.inl (mem_foldl_record.2 (.inl ha)))
  complete := by
    intro t j ht hj a ha hpass
    obtain rfl := prefix_nil.1 ht
    obtain rfl : i = j := by simpa [DFA.runFrom] using hj
    exact mem_foldl_record.2 (.inl (mem_foldl_record.2 (.inr ⟨ha, hpass⟩)))
  sound := by
    intro a ha
    rcases mem_foldl_record.1 ha with ha | ⟨ha, hpass⟩
    · rcases mem_foldl_record.1 ha with ha | ⟨ha, hpass⟩
      · exact .inl ha
      · exact .inr ⟨hpass, [], i, nil_prefix, rfl, mem_of_entryActions ha⟩
    · refine .inr ⟨hpass, [0], d, prefix_refl _, ?_, mem_of_entryActions ha⟩
      simp [DFA.runFrom, hd]

lemma characterAt_append_nil (pre : List ℕ) : characterAt pre pre.length = 0 := by
  simp [characterAt]

lemma characterAt_append_cons (pre : List ℕ) (c : ℕ) (s : List ℕ) :
    characterAt (pre ++ c :: s) pre.length = c := by
  simp [characterAt]

/-- A node that is entered after the end of the string. -/
lemma ends_afterEnd (hact : ActionsFit dfa) (hcomp : Compiled dfa bytecode base span starts)
    (hi : Valid dfa i) (hm : m.programCounter = starts i)
    (haft : m.urlIndexIsAfterEndOfString = true) :
    Ends bytecode top flags url m ((entryActions dfa i).foldl (record top flags) m.actions) := by
  obtain ⟨pc, size, hleads, hcode⟩ := leads_entry hact hcomp hi hm
  refine hleads.ends ?_
  obtain ⟨item, items, hitems, hitem⟩ := exists_transitionItems (dfa.nodes.get i)
  rw [hitems] at hcode
  exact ends_of_nextDFA (interpret_afterEnd hitem haft hcode)

/-- The run from the start of a node: its actions are recorded, and the run goes to the node that
follows. -/
lemma run_node (top : Option Actions) (flags : ℕ) (url : List ℕ) (hdfa : Compilable dfa)
    (hact : ActionsFit dfa) (hcomp : Compiled dfa bytecode base span starts)
    (hi : Valid dfa i) (urlIndex : ℕ) (hc : characterAt url urlIndex < 128) (before : Actions) :
    let after := (entryActions dfa i).foldl (record top flags) before
    match followed dfa i (characterAt url urlIndex) with
    | some d => Leads bytecode top flags url ⟨starts i, urlIndex, false, before⟩
        ⟨starts d, urlIndex + 1, decide (characterAt url urlIndex = 0), after⟩
    | none => Ends bytecode top flags url ⟨starts i, urlIndex, false, before⟩ after := by
  obtain ⟨pc, size, hleads, hcode⟩ := leads_entry
    (m := ⟨starts i, urlIndex, false, before⟩) hact hcomp hi rfl
  have hfol : Follows bytecode top flags url starts ⟨pc, urlIndex, false,
      (entryActions dfa i).foldl (record top flags) before⟩
      (followed dfa i (characterAt url urlIndex)) :=
    run_transitions hdfa hcomp hi hc rfl hcode
  cases hnext : followed dfa i (characterAt url urlIndex) with
  | some d =>
    rw [hnext] at hfol
    exact hleads.trans hfol
  | none =>
    rw [hnext] at hfol
    exact hleads.ends hfol

/-- The actions after the run from a node along a string. -/
def collect (dfa : DFA) (topURLActions : Option Actions) (flags : ℕ) :
    ℕ → List ℕ → Actions → Actions
  | i, [], before =>
    let after := (entryActions dfa i).foldl (record topURLActions flags) before
    match followed dfa i 0 with
    | some d => (entryActions dfa d).foldl (record topURLActions flags) after
    | none => after
  | i, c :: s, before =>
    let after := (entryActions dfa i).foldl (record topURLActions flags) before
    match dfa.target i c with
    | some d => collect dfa topURLActions flags d s after
    | none => after

/-- The run from the start of a node along the rest of the string. -/
lemma ends_collect (top : Option Actions) (flags : ℕ) (hdfa : Compilable dfa)
    (hact : ActionsFit dfa) (hcomp : Compiled dfa bytecode base span starts)
    (hi : Valid dfa i) (pre s : List ℕ) (hs : ∀ c ∈ s, c ≠ 0 ∧ c < 128) (before : Actions) :
    Ends bytecode top flags (pre ++ s) ⟨starts i, pre.length, false, before⟩
      (collect dfa top flags i s before) := by
  induction s generalizing i pre before with
  -- the end of the string is read as a null character
  | nil =>
    have hchar : characterAt (pre ++ []) pre.length = 0 := by
      simp [characterAt_append_nil]
    have hnode := run_node top flags (pre ++ []) hdfa hact hcomp hi pre.length
      (by rw [hchar]; decide) before
    rw [hchar] at hnode
    rw [collect]
    cases hnext : followed dfa i 0 with
    | some d =>
      rw [hnext] at hnode
      refine hnode.ends (ends_afterEnd hact hcomp ?_ rfl (by simp))
      exact hdfa.valid_target hi.1 (target_of_followed hnext)
    | none =>
      rw [hnext] at hnode
      exact hnode
  | cons c s ih =>
    obtain ⟨hc0, hc⟩ := hs c mem_cons_self
    have hchar := characterAt_append_cons pre c s
    have hnode := run_node top flags (pre ++ c :: s) hdfa hact hcomp hi
      pre.length (by rwa [hchar]) before
    rw [hchar, decide_eq_false hc0, followed_eq_target hc0] at hnode
    rw [collect]
    cases hnext : dfa.target i c with
    | some d =>
      rw [hnext] at hnode
      have hends := ih (hdfa.valid_target hi.1 hnext) (pre ++ [c])
        (fun c' hc' => hs c' (mem_cons_of_mem _ hc'))
        ((entryActions dfa i).foldl (record top flags) before)
      rw [append_assoc, List.length_append] at hends
      exact hnode.ends hends
    | none =>
      rw [hnext] at hnode
      exact hnode

/-- The run from the root along the whole string. -/
lemma ends_root (top : Option Actions) (flags : ℕ) (hdfa : Compilable dfa) (hact : ActionsFit dfa)
    (hcomp : Compiled dfa bytecode base span starts) (hs : ∀ c ∈ s, c ≠ 0 ∧ c < 128)
    (before : Actions) :
    Ends bytecode top flags s ⟨starts dfa.root, 0, false, before⟩
      (collect dfa top flags dfa.root s before) :=
  ends_collect top flags hdfa hact hcomp ⟨hdfa.wf.root_lt, hdfa.root⟩ [] s hs before

lemma collects_collect (dfa : DFA) (top : Option Actions) (flags i : ℕ) (s : List ℕ)
    (before : Actions) : Collects dfa top flags i s before (collect dfa top flags i s before) := by
  induction s generalizing i before with
  | nil =>
    rw [collect]
    cases hnext : followed dfa i 0 with
    | some d => exact Collects.end_edge (target_of_followed hnext)
    | none => exact collects_of_end (by simp)
  | cons c s ih =>
    rw [collect]
    cases hnext : dfa.target i c with
    | some d => exact (ih d _).cons hnext
    | none =>
      refine collects_of_end fun c' s' heq => ?_
      cases heq
      exact hnext

/-! ### The actions of the root -/

lemma actionBytes_ne_nil (a : ℕ) : actionBytes a ≠ [] := by
  rw [← length_pos_iff, length_actionBytes, appendActionBytecodeSize]
  split_ifs <;> decide

/-- An action with flags is recorded by `interpret`. -/
def recordFlagged (topURLActions : Option Actions) (flags : ℕ) (actions : Actions) (a : ℕ) :
    Actions :=
  if actionFlags a ≠ 0 then record topURLActions flags actions a else actions

/-- An action without flags is recorded by `actionsMatchingEverything`. -/
def recordUnflagged (topURLActions : Option Actions) (flags : ℕ) (actions : Actions) (a : ℕ) :
    Actions :=
  if actionFlags a = 0 then record topURLActions flags actions a else actions

/-- Both loops over the actions of the root, and where they stop. -/
lemma rootActions (top : Option Actions) (flags : ℕ) (has : ∀ a ∈ as, a < 2 ^ 49) {item : Item}
    (hitem : ∀ a, item ≠ .action a) {fuel pc : ℕ} (hfuel : as.length ≤ fuel)
    (hhdr : readNat 4 bytecode 0 = span) (hspan : pc + (as.map appendActionBytecodeSize).sum < span)
    (h : CodeAt jumpSizeInBytes starts bytecode pc
      (pieces size pc (as.map Item.action ++ item :: items))) (before before' : Actions) :
    skipRootActions bytecode top flags span fuel pc before =
      (pc + (as.map appendActionBytecodeSize).sum, as.foldl (recordFlagged top flags) before) ∧
    collectRootActions bytecode top fuel pc before' =
      as.foldl (recordUnflagged top flags) before' := by
  induction as generalizing fuel pc before before' with
  -- the next instruction is no action, and stops both loops
  | nil =>
    obtain ⟨instruction, hins, hne⟩ := getInstruction_of_codeAt hitem h
    cases fuel with
    | zero => exact ⟨rfl, rfl⟩
    | succ fuel =>
      rw [skipRootActions, collectRootActions, hins]
      cases instruction with
      | appendAction b => exact absurd rfl (hne b).1
      | testFlagsAndAppendAction b => exact absurd rfl (hne b).2
      | _ => simp
  | cons a as ih =>
    obtain ⟨fuel, rfl⟩ : ∃ n, fuel = n + 1 :=
      Nat.exists_eq_succ_of_ne_zero (by rw [List.length_cons] at hfuel; omega)
    obtain ⟨rest, hdrop⟩ := h.head
    have hlen : ((Item.action a).piece (size pc (Item.action a))).length jumpSizeInBytes =
        appendActionBytecodeSize a := by
      simp [Item.piece, Item.head, Item.targets, Piece.length, length_actionBytes]
    have htail := h.tail
    rw [hlen] at htail
    rw [map_cons, sum_cons, ← Nat.add_assoc] at hspan
    have hih := ih (fun b hb => has b (mem_cons_of_mem _ hb)) (Nat.le_of_succ_le_succ hfuel) hspan
      htail
    have hlt : pc < span := by omega
    rw [skipRootActions, collectRootActions, hhdr, if_pos hlt, if_pos hlt, map_cons, sum_cons,
      ← Nat.add_assoc, foldl_cons, foldl_cons, recordFlagged, recordUnflagged]
    rcases actionBytes_of_drop top flags (has a mem_cons_self) hdrop with
      ⟨hflags, hins, hint⟩ | ⟨hflags, hins, hint⟩
    · have hpc : pc + instructionSizeWithArguments (.testFlagsAndAppendAction (a.testBit 48)) =
          pc + appendActionBytecodeSize a := congrArg Prod.fst (hint before)
      rw [hins, if_pos hflags, if_neg hflags]
      simp only [hint, hpc]
      exact hih _ _
    · have hpc : pc + instructionSizeWithArguments (.appendAction (a.testBit 48)) =
          pc + appendActionBytecodeSize a := congrArg Prod.fst (hint before)
      rw [hins, if_neg (not_not.2 hflags), if_pos hflags]
      simp only [hint, hpc]
      exact hih _ _

lemma mem_foldl_record_filter {p : ℕ → Prop} [DecidablePred p] :
    b ∈ as.foldl (fun set a => if p a then record top flags set a else set) actions ↔
      b ∈ actions ∨ (b ∈ as ∧ p b ∧ Passes top flags b) := by
  refine (foldl_iff (P := (b ∈ ·)) (Q := fun a => b = a ∧ p a ∧ Passes top flags a)
    (fun _ a _ => ?_) actions).trans (by simp)
  split_ifs with hp <;> simp [hp, mem_record, Passes]

lemma mem_foldl_flagged : b ∈ as.foldl (recordFlagged top flags) actions ↔
    b ∈ actions ∨ (b ∈ as ∧ actionFlags b ≠ 0 ∧ Passes top flags b) := mem_foldl_record_filter

lemma mem_foldl_unflagged : b ∈ as.foldl (recordUnflagged top flags) actions ↔
    b ∈ actions ∨ (b ∈ as ∧ actionFlags b = 0 ∧ Passes top flags b) := mem_foldl_record_filter

/-- What the two loops over the actions of the root give for compiled bytecode. -/
lemma Compiled.rootActions (hact : ActionsFit dfa) (hroot : Valid dfa dfa.root)
    (hcomp : Compiled dfa bytecode 0 span starts) (top : Option Actions) (flags : ℕ) :
    skipRootActions bytecode top flags span bytecode.length dfaHeaderSize
        HashSet.empty = (starts dfa.root,
      (dfa.nodes.get dfa.root).actions.foldl (recordFlagged top flags) HashSet.empty) ∧
    actionsMatchingEverything bytecode top =
      (dfa.nodes.get dfa.root).actions.foldl (recordUnflagged top flags) HashSet.empty := by
  obtain ⟨size, hcode⟩ := hcomp.rootActions
  obtain ⟨item, items, hitems, hitem⟩ := exists_transitionItems (dfa.nodes.get dfa.root)
  rw [nodePieces, hitems] at hcode
  have hspan := hcomp.start_lt dfa.root hroot
  rw [hcomp.root_start, Nat.zero_add, Nat.zero_add] at hspan
  have hlen : (dfa.nodes.get dfa.root).actions.length ≤ bytecode.length := by
    have hle := hcomp.length_le
    have hsum : (dfa.nodes.get dfa.root).actions.length ≤
        ((dfa.nodes.get dfa.root).actions.map appendActionBytecodeSize).sum := by
      have := length_le_sum_of_one_le
        ((dfa.nodes.get dfa.root).actions.map appendActionBytecodeSize) (by
          intro n hn
          obtain ⟨a, -, rfl⟩ := mem_map.1 hn
          rw [← length_actionBytes]
          exact length_pos_iff.2 (actionBytes_ne_nil a))
      rwa [length_map] at this
    omega
  obtain ⟨hskip, hcollect⟩ := DFABytecodeInterpreter.rootActions top flags
    (hact dfa.root hroot.1) hitem hlen hcomp.header hspan hcode empty empty
  refine ⟨?_, hcollect⟩
  rw [hskip, hcomp.root_start, Nat.zero_add]

/-! ### Several automata -/

/-- An automaton whose bytecode is interpreted from its root on. The root has no actions, as
`lowerDFAToBytecode` asserts. -/
structure Lowerable (dfa : DFA) : Prop extends Compilable dfa where
  actionsFit : ActionsFit dfa
  root_actions : (dfa.nodes.get dfa.root).actions = []

/-- The actions after the runs through all automata. -/
def collectAll (topURLActions : Option Actions) (flags : ℕ) (s : List ℕ) (dfas : List DFA)
    (before : Actions) : Actions :=
  dfas.foldl (fun actions dfa => collect dfa topURLActions flags dfa.root s actions) before

variable {dfas : List DFA} {u : List ℕ}

/-- The loop over the automata that come after the first one. -/
lemma exists_interpretDFAs (top : Option Actions) (flags : ℕ) (h : CompiledFrom bytecode base dfas)
    (hbase : 0 < base) (hdfas : ∀ dfa ∈ dfas, Lowerable dfa) (hu : ∀ c ∈ u, c ≠ 0 ∧ c < 128)
    (before : Actions) :
    ∃ fuel₀, ∀ fuel ≥ fuel₀, ∀ count > dfas.length,
      interpretDFAs bytecode top flags u fuel count base before =
        some (collectAll top flags u dfas before) := by
  induction h generalizing before with
  | nil =>
    refine ⟨0, fun fuel _ count hcount => ?_⟩
    obtain ⟨n, rfl⟩ := Nat.exists_eq_succ_of_ne_zero (Nat.ne_zero_of_lt hcount)
    simp [interpretDFAs, collectAll]
  | @cons base span starts dfa dfas hcomp _ ih =>
    have hdfa := hdfas dfa mem_cons_self
    have hroot : Valid dfa dfa.root := ⟨hdfa.wf.root_lt, hdfa.root⟩
    have hstart : starts dfa.root = base + dfaHeaderSize := by
      rw [hcomp.root_start, hdfa.root_actions]
      rfl
    have hlt : base < bytecode.length := by
      have := hcomp.start_lt dfa.root hroot
      have := hcomp.length_le
      omega
    obtain ⟨k, hk⟩ := ends_root top flags hdfa.toCompilable hdfa.actionsFit hcomp hu before
    obtain ⟨fuel₁, hrest⟩ := ih (by omega) (fun dfa' h => hdfas dfa' (mem_cons_of_mem _ h))
      (collect dfa top flags dfa.root u before)
    refine ⟨max k fuel₁, fun fuel hfuel count hcount => ?_⟩
    obtain ⟨n, rfl⟩ := Nat.exists_eq_succ_of_ne_zero (Nat.ne_zero_of_lt hcount)
    obtain ⟨rest, rfl⟩ := Nat.exists_eq_add_of_le' (le_of_max_le_left hfuel)
    have hrun := hk rest
    rw [hstart] at hrun
    rw [interpretDFAs, if_pos hlt]
    simp only [hbase.ne', if_false, show readNat 4 bytecode base = span from hcomp.header]
    rw [hrun]
    exact hrest _ (le_of_max_le_right hfuel) n (by simpa using hcount)

/-- The interpreter on the bytecode of automata: the runs from the roots. -/
lemma exists_interpret (hdfa : Compilable dfa) (hact : ActionsFit dfa)
    (hcomp : Compiled dfa bytecode 0 span starts) (hrest : CompiledFrom bytecode span dfas)
    (hdfas : ∀ dfa ∈ dfas, Lowerable dfa) (hu : ∀ c ∈ u, c ≠ 0 ∧ c < 128) :
    ∃ fuel₀, ∀ fuel ≥ fuel₀, interpret bytecode top flags u fuel =
      some (collectAll top flags u dfas (collect dfa top flags dfa.root u
        ((dfa.nodes.get dfa.root).actions.foldl (recordFlagged top flags) HashSet.empty))) := by
  have hroot : Valid dfa dfa.root := ⟨hdfa.wf.root_lt, hdfa.root⟩
  obtain ⟨hskip, -⟩ := Compiled.rootActions hact hroot hcomp top flags
  have hlt := hcomp.start_lt dfa.root hroot
  have hle := hcomp.length_le
  obtain ⟨k, hk⟩ := ends_root top flags hdfa hact hcomp hu
    ((dfa.nodes.get dfa.root).actions.foldl (recordFlagged top flags) empty)
  generalize collect dfa top flags dfa.root u _ = after at hk
  obtain ⟨fuel₁, hfuel₁⟩ := exists_interpretDFAs top flags hrest (by omega) hdfas hu after
  refine ⟨max k (max fuel₁ (dfas.length + 2)), fun fuel hfuel => ?_⟩
  simp only [max_le_iff] at hfuel
  obtain ⟨n, rfl⟩ := Nat.exists_eq_add_of_le' hfuel.1
  obtain ⟨count, hcount⟩ : ∃ count, n + k = count + 1 := Nat.exists_eq_succ_of_ne_zero (by omega)
  rw [interpret]
  nth_rewrite 2 [hcount]
  rw [interpretDFAs, if_pos (by omega)]
  simp only [if_true, Nat.zero_add, show readNat 4 bytecode 0 = span from hcomp.header, hskip]
  rw [if_neg (by omega), hk n]
  exact hfuel₁ _ hfuel.2.1 count (by omega)

end

/-! ### The compiled automaton -/

lemma mem_visitedActions {dfa : DFA} : a ∈ dfa.visitedActions s ↔
    ∃ t j, t <+: s ∧ dfa.runFrom dfa.root t = some j ∧ a ∈ (dfa.nodes.get j).actions := by
  simp only [DFA.visitedActions, DFA.actionsAfter, map_eq_some_iff]
  constructor
  · rintro ⟨t, ht, actions, ⟨j, hj, rfl⟩, ha⟩
    exact ⟨t, j, ht, hj, ha⟩
  · rintro ⟨t, j, ht, hj, ha⟩
    exact ⟨t, ht, _, ⟨j, hj, rfl⟩, ha⟩

variable {dfa : DFA} {top : Option Actions} {flags : ℕ} {u : List ℕ} {actions : Actions}

variable (h : Collects dfa top flags dfa.root u ((dfa.nodes.get dfa.root).actions.foldl
  (recordFlagged top flags) HashSet.empty) actions)

include h

lemma Collects.sound_root (ha : a ∈ actions ∨ a ∈ (dfa.nodes.get dfa.root).actions.foldl
      (recordUnflagged top flags) HashSet.empty) :
    Passes top flags a ∧ a ∈ dfa.visitedActions (u ++ [0]) := by
  have hrootActions : ∀ b ∈ (dfa.nodes.get dfa.root).actions, b ∈ dfa.visitedActions (u ++ [0]) :=
    fun b hb => mem_visitedActions.2 ⟨[], dfa.root, nil_prefix, rfl, hb⟩
  rcases ha with ha | ha
  · rcases h.sound a ha with ha | ⟨hpass, t, j, ht, hj, ha⟩
    · rcases mem_foldl_flagged.1 ha with ha | ⟨ha, -, hpass⟩
      · exact absurd ha (not_mem_empty a)
      · exact ⟨hpass, hrootActions a ha⟩
    · exact ⟨hpass, mem_visitedActions.2 ⟨t, j, ht, hj, ha⟩⟩
  · rcases mem_foldl_unflagged.1 ha with ha | ⟨ha, -, hpass⟩
    · exact absurd ha (not_mem_empty a)
    · exact ⟨hpass, hrootActions a ha⟩

lemma Collects.complete_root (ha : a ∈ dfa.visitedActions u) (hpass : Passes top flags a) :
    a ∈ actions ∨ a ∈ (dfa.nodes.get dfa.root).actions.foldl
      (recordUnflagged top flags) HashSet.empty := by
  obtain ⟨t, j, ht, hj, ha⟩ := mem_visitedActions.1 ha
  by_cases hroot : j = dfa.root
  · subst hroot
    by_cases hflags : actionFlags a = 0
    · exact .inr (mem_foldl_unflagged.2 (.inr ⟨ha, hflags, hpass⟩))
    · exact .inl (h.mono a (mem_foldl_flagged.2 (.inr ⟨ha, hflags, hpass⟩)))
  · refine .inl (h.complete t j ht hj a ?_ hpass)
    rwa [entryActions, if_neg hroot]

omit h

section

variable {dfas : List DFA} {before : Actions}

lemma mem_collectAll_of_mem (ha : a ∈ before) : a ∈ collectAll top flags u dfas before := by
  induction dfas generalizing before with
  | nil => exact ha
  | cons dfa dfas ih => exact ih ((collects_collect dfa top flags dfa.root u before).mono a ha)

lemma mem_collectAll_of_visited (hdfa : dfa ∈ dfas)
    (hroot : (dfa.nodes.get dfa.root).actions = []) (ha : a ∈ dfa.visitedActions u)
    (hpass : Passes top flags a) : a ∈ collectAll top flags u dfas before := by
  induction dfas generalizing before with
  | nil => cases hdfa
  | cons dfa' dfas ih =>
    rw [collectAll, foldl_cons]
    rcases mem_cons.1 hdfa with rfl | hdfa
    · obtain ⟨t, j, ht, hj, ha⟩ := mem_visitedActions.1 ha
      have hne : j ≠ dfa.root := by
        rintro rfl
        rw [hroot] at ha
        cases ha
      have hentry : a ∈ entryActions dfa j := by rwa [entryActions, if_neg hne]
      have hcollects := collects_collect dfa top flags dfa.root u before
      exact mem_collectAll_of_mem (hcollects.complete t j ht hj a hentry hpass)
    · exact ih hdfa

lemma collectAll_sound (ha : a ∈ collectAll top flags u dfas before) :
    a ∈ before ∨ (Passes top flags a ∧ ∃ dfa ∈ dfas, a ∈ dfa.visitedActions (u ++ [0])) := by
  induction dfas generalizing before with
  | nil => exact .inl ha
  | cons dfa dfas ih =>
    rcases ih ha with ha | ⟨hpass, dfa', hdfa', ha⟩
    · refine ((collects_collect dfa top flags dfa.root u before).sound a ha).imp_right ?_
      rintro ⟨hpass, t, j, ht, hj, ha⟩
      exact ⟨hpass, dfa, mem_cons_self, mem_visitedActions.2 ⟨t, j, ht, hj, ha⟩⟩
    · exact .inr ⟨hpass, dfa', mem_cons_of_mem _ hdfa', ha⟩

end

/-- What the interpreter collects on the bytecode of an automaton, together with the actions that
match everything, are those actions of the nodes along the URL whose flags match. The edge at the
end of the string may add actions of one more node. -/
theorem interpret_compile_eq_visitedActions (hdfa : Compilable dfa) (hactions : ActionsFit dfa)
    (hsize : (maxNodeStartOffsets dfa).2 < 2 ^ 31) (flags : ℕ) (hu : ∀ c ∈ u, c ≠ 0 ∧ c < 128) :
    ∃ bytecode, compile dfa = some bytecode ∧ ∃ actions fuel₀,
      (∀ fuel ≥ fuel₀, interpret bytecode none flags u fuel = some actions) ∧
      {a | a ∈ actions ∨ a ∈ actionsMatchingEverything bytecode none} ∩ dfa.visitedActions u =
        {a ∈ dfa.visitedActions u | flagsMatch (actionFlags a) flags} ∧
      ∀ a, a ∈ actions ∨ a ∈ actionsMatchingEverything bytecode none →
        flagsMatch (actionFlags a) flags ∧ a ∈ dfa.visitedActions (u ++ [0]) := by
  obtain ⟨bytecode, starts, hcompile, -, hcompiled⟩ := exists_compiled hdfa hsize
  have hroot : Valid dfa dfa.root := ⟨hdfa.wf.root_lt, hdfa.root⟩
  obtain ⟨fuel₀, hinterpret⟩ := exists_interpret hdfa hactions hcompiled .nil (by simp) hu
  have hcollects := collects_collect dfa none flags dfa.root u
    ((dfa.nodes.get dfa.root).actions.foldl (recordFlagged none flags) empty)
  generalize collect dfa none flags dfa.root u _ = actions at hinterpret hcollects
  obtain ⟨-, heverything⟩ := Compiled.rootActions hactions hroot hcompiled none flags
  have hsound : ∀ a, a ∈ actions ∨ a ∈ actionsMatchingEverything bytecode none →
      flagsMatch (actionFlags a) flags ∧ a ∈ dfa.visitedActions (u ++ [0]) := by
    intro a ha
    rw [heverything] at ha
    exact (hcollects.sound_root ha).imp_left passes_none.1
  refine ⟨bytecode, hcompile, actions, fuel₀, hinterpret, ?_, hsound⟩
  ext a
  constructor
  · rintro ⟨ha, hvisited⟩
    exact ⟨hvisited, (hsound a ha).1⟩
  · rintro ⟨hvisited, hflags⟩
    refine ⟨?_, hvisited⟩
    have := hcollects.complete_root hvisited (passes_none.2 hflags)
    rwa [← heverything] at this

/-- Letters in both cases lead away from the root, and the other characters back. -/
def caseDFA : DFA :=
  ⟨⟨2, fun i => if i = 0 then DFANode.live [7, 3 * 2 ^ 32 + 9] [⟨65, 90, 1⟩, ⟨97, 122, 1⟩]
    else DFANode.live [5] [⟨1, 64, 0⟩, ⟨65, 127, 1⟩]⟩, 0⟩

lemma compilable_caseDFA : Compilable caseDFA := by
  refine ⟨⟨⟨by decide, ?_, ?_, ?_⟩, ?_⟩, rfl⟩ <;> intro i hi <;>
    rcases (show i = 0 ∨ i = 1 by have : i < 2 := hi; omega) with rfl | rfl <;> decide

theorem interpret_compile_caseDFA :
    ∃ bytecode, compile caseDFA = some bytecode ∧ ∃ actions fuel₀,
      (∀ fuel ≥ fuel₀, interpret bytecode none 1 [104, 72] fuel = some actions) ∧
      {a | a ∈ actions ∨ a ∈ actionsMatchingEverything bytecode none} ∩
        caseDFA.visitedActions [104, 72] =
          {a ∈ caseDFA.visitedActions [104, 72] | flagsMatch (actionFlags a) 1} ∧
      ∀ a, a ∈ actions ∨ a ∈ actionsMatchingEverything bytecode none →
        flagsMatch (actionFlags a) 1 ∧ a ∈ caseDFA.visitedActions ([104, 72] ++ [0]) := by
  refine interpret_compile_eq_visitedActions compilable_caseDFA ?_ (by decide +kernel) 1 (by decide)
  intro i hi
  rcases (show i = 0 ∨ i = 1 by have : i < 2 := hi; omega) with rfl | rfl <;> decide

/-- The root has an action that does not fit into the instructions. -/
def wideAction : DFA := ⟨⟨1, fun _ => DFANode.live [2 ^ 49] []⟩, 0⟩

/-- A node that is not reachable has a transition to a killed node. -/
def danglingNode : DFA :=
  ⟨⟨3, fun i => if i = 0 then DFANode.live [] [] else if i = 1 then DFANode.live [] [⟨97, 97, 2⟩]
    else DFANode.killed⟩, 0⟩

/-- The bits of an action above its flags are lost, and the linker stops at the transition to the
killed node. -/
theorem compile_wideAction_danglingNode :
    (wideAction.WF ∧ (∀ i < wideAction.nodes.size, (wideAction.nodes.get i).isKilled = false) ∧
      (maxNodeStartOffsets wideAction).2 < 2 ^ 31 ∧
      2 ^ 49 ∈ wideAction.visitedActions [] ∧ flagsMatch (actionFlags (2 ^ 49)) 0 = true ∧
      ∃ bytecode, compile wideAction = some bytecode ∧
        (actionsMatchingEverything bytecode none).elements = [0] ∧
        (interpret bytecode none 0 [] 3).map HashSet.elements = some []) ∧
    (danglingNode.WF ∧ (∀ s j, danglingNode.runFrom danglingNode.root s = some j →
        (danglingNode.nodes.get j).isKilled = false) ∧
      (maxNodeStartOffsets danglingNode).2 < 2 ^ 31 ∧ compile danglingNode = none) := by
  refine ⟨⟨?_, ?_, by decide +kernel, ?_, by decide, ?_⟩, ?_, ?_, by decide +kernel,
    by decide +kernel⟩
  · refine ⟨by decide, ?_, ?_, ?_⟩ <;> intro i _ <;> simp [wideAction]
  · intro i _
    rfl
  · exact mem_visitedActions.2 ⟨[], 0, nil_prefix, rfl, by simp [wideAction]⟩
  · exact ⟨[10, 0, 0, 0, 6, 0, 0, 0, 0, 10], by decide +kernel, by decide +kernel,
      by decide +kernel⟩
  · refine ⟨by decide, ?_, ?_, ?_⟩ <;> intro i hi <;>
      rcases (show i = 0 ∨ i = 1 ∨ i = 2 by have : i < 3 := hi; omega) with rfl | rfl | rfl <;>
      decide
  · intro s j hj
    cases s with
    | nil =>
      obtain rfl : danglingNode.root = j := by simpa [DFA.runFrom] using hj
      rfl
    | cons c s =>
      cases hj

end DFABytecodeInterpreter

end WebKit.ContentExtensions
