import WebKit.ContentExtensions.DFABytecodeCompiler.Basic

/-!
# The layout of the compiled code

The size of a jump distance is chosen before the distance is known. Between two nodes the code is
never longer than it would be with distances of four bytes, so that the chosen sizes are large
enough and the assertions of the linker hold.
-/

namespace WebKit.ContentExtensions

open Bytes Linking
open List hiding length length_append length_cons

namespace DFABytecodeCompiler

open DFABytecodeInstruction DFABytecodeJumpSize

variable {offs : ℕ → ℕ} {st st' : State} {source : ℕ}

/-! ### Distances -/

lemma jumpSizeInBytes_le_max (a b : DFABytecodeJumpSize) :
    jumpSizeInBytes a ≤ jumpSizeInBytes (a.max b) ∧
      jumpSizeInBytes b ≤ jumpSizeInBytes (a.max b) := by
  cases a <;> cases b <;> decide

lemma le_foldl_max (f : ℕ → DFABytecodeJumpSize) (targets : List ℕ) (a : DFABytecodeJumpSize) :
    let b := targets.foldl (fun jumpSize tgt => jumpSize.max (f tgt)) a
    jumpSizeInBytes a ≤ jumpSizeInBytes b ∧
      ∀ t ∈ targets, jumpSizeInBytes (f t) ≤ jumpSizeInBytes b := by
  induction targets generalizing a with
  | nil => simp
  | cons t targets ih =>
    obtain ⟨hle, hall⟩ := ih (a.max (f t))
    obtain ⟨ha, ht⟩ := jumpSizeInBytes_le_max a (f t)
    refine ⟨ha.trans hle, fun t' ht' => ?_⟩
    rcases mem_cons.1 ht' with rfl | ht'
    · exact ht.trans hle
    · exact hall t' ht'

variable {starts : ℕ → Option ℕ} {loc : ℕ} {tgt : ℕ} {s : ℕ}

/-- The size of a jump to a node that is compiled already. -/
lemma fits_of_compiled (hs : starts tgt = some s) (hloc : loc < 2 ^ 31) (hlt : s < 2 ^ 31) :
    Fits (jumpSizeInBytes (smallestPossibleJumpSize
      (longestPossibleJump offs starts loc source tgt))) ((s : ℤ) - loc) := by
  have hbmod : ((s : ℤ) - loc).bmod (2 ^ 32) = s - loc := Int.bmod_eq_of_le (by omega) (by omega)
  rw [longestPossibleJump, hs]
  dsimp only
  rw [hbmod]
  exact fits_smallestSize (by omega) (by omega)

/-- The size of a jump to a node that will be compiled later. Where the node will start is known
up to `offs tgt`, with the bytes that were saved so far subtracted. The computed distance is too
long, and may even overflow. -/
lemma fits_of_not_compiled {start saved : ℕ} (htgt : starts tgt = none)
    (hsrc : starts source = some start) (hsaved : offs source = start + saved) (hloc : start ≤ loc)
    (hmax : offs tgt < 2 ^ 31) (hs : loc ≤ s) (hle : s + saved ≤ offs tgt) :
    Fits (jumpSizeInBytes (smallestPossibleJumpSize
      (longestPossibleJump offs starts loc source tgt))) ((s : ℤ) - loc) := by
  rw [longestPossibleJump, htgt, hsrc]
  simp only [Option.getD_some]
  obtain ⟨x, hx⟩ : ∃ x, x = offs tgt - offs source := ⟨_, rfl⟩
  obtain ⟨o, ho⟩ : ∃ o : ℤ, o = loc - start := ⟨_, rfl⟩
  have heq : offs tgt - offs source - (start - loc) = x + o := by
    omega
  rw [heq]
  have hcases : (x + o).bmod (2 ^ 32) = x + o ∧ x + o < 2 ^ 31 ∨
      (x + o).bmod (2 ^ 32) = x + o - 2 ^ 32 := by
    rw [Int.bmod_def]
    omega
  unfold smallestPossibleJumpSize
  rcases hcases with ⟨hb, hlt⟩ | hb <;> rw [hb] <;>
    split_ifs <;> simp only [jumpSizeInBytes, Fits] <;> omega

/-! ### Compiling the nodes -/

/-- A distance is representable, or its target is not compiled yet and the distance will be
representable wherever the target can start. -/
def Ready (maxOffsets : ℕ → ℕ) (next : ℕ) (st : State) (location : ℕ)
    (jumpSize : DFABytecodeJumpSize) (target : ℕ) : Prop :=
  (∃ s, st.nodeStartOffsets.get target = some s ∧
    Fits (jumpSizeInBytes jumpSize) ((s : ℤ) - location)) ∨
  (st.nodeStartOffsets.get target = none ∧ ∃ saved, st.bytecode.length + saved ≤ next ∧
    ∀ s, location ≤ s → s + saved ≤ maxOffsets target →
      Fits (jumpSizeInBytes jumpSize) ((s : ℤ) - location))

/-- The code of a node, in two parts. -/
def nodePieces (size : ℕ → Item → DFABytecodeJumpSize) (location : ℕ) (node : DFANode) :
    List (Piece DFABytecodeJumpSize) :=
  pieces size location (actionItems node ++ transitionItems node)

/-- The node exists and is not killed. -/
def Valid (dfa : DFA) (i : ℕ) : Prop :=
  i < dfa.nodes.size ∧ (dfa.nodes.get i).isKilled = false

/-- The state when the nodes of `compiled` are compiled: the code so far, and `next`, where it
would end if all distances had four bytes. -/
structure Inv (dfa : DFA) (maxOffsets : ℕ → ℕ) (compiled : ℕ → Prop) (next : ℕ) (st : State)
    (code : List (Piece DFABytecodeJumpSize)) : Prop where
  bytecode : st.bytecode = split dfaHeaderSize 0 ++ blank jumpSizeInBytes code
  linkRecords : st.linkRecords.map LinkRecord.toReference =
    references jumpSizeInBytes dfaHeaderSize code
  length_le : st.bytecode.length ≤ next
  ready : ForallFrom jumpSizeInBytes (fun location p => ∀ target ∈ p.targets,
    Ready maxOffsets next st location p.size target) dfaHeaderSize code
  valid : ForallFrom jumpSizeInBytes (fun _ p => ∀ target ∈ p.targets, Valid dfa target)
    dfaHeaderSize code
  not_compiled : ∀ i, ¬compiled i → st.nodeStartOffsets.get i = none
  start_le : ∀ i s, st.nodeStartOffsets.get i = some s → s ≤ st.bytecode.length
  node : ∀ i, compiled i → (dfa.nodes.get i).isKilled = false → ∃ before after size,
    (i = dfa.root → before = []) ∧
    code = before ++ nodePieces size (dfaHeaderSize + length jumpSizeInBytes before)
      (dfa.nodes.get i) ++ after ∧
    st.nodeStartOffsets.get i = some (dfaHeaderSize + length jumpSizeInBytes before +
      if i = dfa.root then ((dfa.nodes.get i).actions.map appendActionBytecodeSize).sum else 0)

variable {code : List (Piece DFABytecodeJumpSize)}

lemma Inv.length_bytecode {dfa : DFA} {compiled : ℕ → Prop} {next : ℕ}
    (h : Inv dfa offs compiled next st code) :
    st.bytecode.length = dfaHeaderSize + length jumpSizeInBytes code := by
  simp [h.bytecode]

/-- All targets of the code that is emitted with the chosen sizes are ready. -/
lemma forallFrom_pieces {items : List Item} {P : ℕ → DFABytecodeJumpSize → ℕ → Prop}
    (hP : ∀ l item, item ∈ items → loc ≤ l →
      l + (item.piece (chosenSize offs starts source l item)).length jumpSizeInBytes ≤
        loc + length jumpSizeInBytes (pieces (chosenSize offs starts source) loc items) →
      ∀ tgt ∈ item.targets, P l (chosenSize offs starts source l item) tgt) :
    ForallFrom jumpSizeInBytes (fun l p => ∀ tgt ∈ p.targets, P l p.size tgt) loc
      (pieces (chosenSize offs starts source) loc items) := by
  induction items generalizing loc with
  | nil => trivial
  | cons item items ih =>
    rw [pieces, length_cons] at hP
    refine ⟨hP loc item mem_cons_self le_rfl (by omega), ih ?_⟩
    intro l item' hmem hl hle
    exact hP l item' (mem_cons_of_mem _ hmem) (by omega) (by omega)

lemma pieces_actionItems_congr (starts starts' : ℕ → Option ℕ) (loc : ℕ) (node : DFANode) :
    pieces (chosenSize offs starts source) loc (actionItems node) =
      pieces (chosenSize offs starts' source) loc (actionItems node) := by
  unfold actionItems
  induction node.actions generalizing loc with
  | nil => rfl
  | cons a actions ih =>
    have hsize : chosenSize offs starts source loc (Item.action a) =
        chosenSize offs starts' source loc (Item.action a) := rfl
    rw [map_cons, pieces, pieces, hsize, ih]

variable {node : DFANode}

/-- What is emitted for a node that is not killed, and where the node starts. -/
lemma compileNode_spec (offs : ℕ → ℕ) (hlive : node.isKilled = false) (index : ℕ)
    (root : Bool) (st : State) :
    let start := st.bytecode.length +
      if root then (node.actions.map appendActionBytecodeSize).sum else 0
    let starts := st.nodeStartOffsets.set index (some start)
    let code := nodePieces (chosenSize offs starts.get index) st.bytecode.length node
    let st' := compileNode offs st node index root
    Appends { st with nodeStartOffsets := starts } st' code := by
  dsimp only
  rw [nodePieces, pieces_append]
  unfold compileNode
  simp only [hlive, Bool.false_eq_true, if_false]
  rw [compileNodeTransitions_eq, foldl_emitAppendAction_eq]
  cases root with
  | false =>
    have hact := appends_foldl_emit offs index (actionItems node) (st.setNodeStart index)
    have hts := appends_foldl_emit offs index (transitionItems node)
      ((actionItems node).foldl (State.emit offs index) (st.setNodeStart index))
    rw [hact.nodeStartOffsets, hact.length] at hts
    exact hact.trans hts
  | true =>
    simp only [if_true]
    have hact := appends_foldl_emit offs index (actionItems node) st
    have hlen := hact.length
    rw [length_actionItems] at hlen
    obtain ⟨starts, hsts⟩ : ∃ starts, starts = st.nodeStartOffsets.set index
      (some (st.bytecode.length + (node.actions.map appendActionBytecodeSize).sum)) := ⟨_, rfl⟩
    rw [← hsts]
    -- recording the start after the actions is as good as recording it before them
    have hst : Appends { st with nodeStartOffsets := starts }
        (((actionItems node).foldl (State.emit offs index) st).setNodeStart index)
        (pieces (chosenSize offs starts.get index) st.bytecode.length (actionItems node)) := by
      rw [pieces_actionItems_congr _ st.nodeStartOffsets.get]
      refine ⟨hact.bytecode, hact.linkRecords, ?_⟩
      simp only [State.setNodeStart, hact.nodeStartOffsets, hlen, hsts]
    have hts := appends_foldl_emit offs index (transitionItems node)
      (((actionItems node).foldl (State.emit offs index) st).setNodeStart index)
    rw [hst.nodeStartOffsets, hst.length] at hts
    exact hst.trans hts

variable {dfa : DFA} {compiled : ℕ → Prop} {next : ℕ} {code : List (Piece DFABytecodeJumpSize)}
  {item : Item}

/-- The chosen size holds every distance that the smallest size for a target holds. -/
lemma Fits.chosenSize {z : ℤ} (ht : tgt ∈ item.targets)
    (h : Fits (jumpSizeInBytes (smallestPossibleJumpSize
      (longestPossibleJump offs starts loc source tgt))) z) :
    Fits (jumpSizeInBytes (chosenSize offs starts source loc item)) z :=
  h.mono ((le_foldl_max (fun tgt => smallestPossibleJumpSize
    (longestPossibleJump offs starts loc source tgt)) item.targets int8).2 tgt ht)

lemma sum_maxBytecodeSize (hlive : node.isKilled = false) :
    ((actionItems node ++ transitionItems node).map Item.maxBytecodeSize).sum =
      compiledNodeMaxBytecodeSize node := by
  rw [map_append, sum_append, sum_transitionItems, compiledNodeMaxBytecodeSize, hlive,
    actionItems, map_map]
  rfl

/-- A distance stays ready when a node is compiled, which may be its target. -/
lemma Ready.step {i start next' : ℕ} {jumpSize : DFABytecodeJumpSize}
    (h : Ready offs next st loc jumpSize tgt)
    (hget : ∀ t, st'.nodeStartOffsets.get t =
      if t = i then some start else st.nodeStartOffsets.get t)
    (hi : st.nodeStartOffsets.get i = none) (hloc : loc ≤ start)
    (hmax : offs i + st.bytecode.length = next + start)
    (hlen : st'.bytecode.length + next ≤ st.bytecode.length + next') :
    Ready offs next' st' loc jumpSize tgt := by
  rw [Ready, hget]
  by_cases htgt : tgt = i
  · subst htgt
    rcases h with ⟨s, hs, -⟩ | ⟨-, saved, hsaved, hfits⟩
    · rw [hi] at hs
      cases hs
    · exact .inl ⟨start, if_pos rfl, hfits start hloc (by omega)⟩
  · rw [if_neg htgt]
    rcases h with hknown | ⟨hnone, saved, hsaved, hfits⟩
    · exact .inl hknown
    · exact .inr ⟨hnone, saved, by omega, hfits⟩

/-- The distances of a node are ready when it is compiled. -/
lemma forallFrom_ready {i start next' saved : ℕ} {items : List Item}
    (hi : st'.nodeStartOffsets.get i = some start)
    (hle : ∀ t s, st'.nodeStartOffsets.get t = some s → s ≤ st'.bytecode.length)
    (hmax : ∀ item ∈ items, ∀ tgt ∈ item.targets, offs tgt < 2 ^ 31)
    (hsaved : offs i = start + saved)
    (hlen : st'.bytecode.length + saved ≤ next') (hnext : next' < 2 ^ 31) (hlo : start ≤ loc)
    (hhi : loc + length jumpSizeInBytes
      (pieces (chosenSize offs st'.nodeStartOffsets.get i) loc items) ≤ st'.bytecode.length) :
    ForallFrom jumpSizeInBytes (fun l p => ∀ tgt ∈ p.targets,
      Ready offs next' st' l p.size tgt) loc
      (pieces (chosenSize offs st'.nodeStartOffsets.get i) loc items) := by
  apply forallFrom_pieces
  intro l item hitem hl hl' tgt htgt
  cases hget : st'.nodeStartOffsets.get tgt with
  | some s =>
    have := hle tgt s hget
    exact .inl ⟨s, hget, Fits.chosenSize htgt (fits_of_compiled hget (by omega) (by omega))⟩
  | none =>
    refine .inr ⟨hget, saved, hlen, fun s hs hsle => Fits.chosenSize htgt ?_⟩
    exact fits_of_not_compiled hget hi hsaved (hlo.trans hl) (hmax item hitem tgt htgt) hs hsle

variable {i : ℕ}

section

variable (h : Inv dfa offs compiled next st code) (hi : ¬compiled i)

include h hi

/-- Compiling a node keeps the invariant. -/
lemma Inv.compileNode (hlive : (dfa.nodes.get i).isKilled = false) (hfst : i = dfa.root → code = [])
    (hitems : ∀ item ∈ actionItems (dfa.nodes.get i) ++ transitionItems (dfa.nodes.get i),
      item.WF ∧ ∀ tgt ∈ item.targets, Valid dfa tgt) (hmax : ∀ t, Valid dfa t → offs t < 2 ^ 31)
    (hst : offs i + st.bytecode.length = next + (st.bytecode.length +
      if i = dfa.root then ((dfa.nodes.get i).actions.map appendActionBytecodeSize).sum else 0))
    (hnext : next + compiledNodeMaxBytecodeSize (dfa.nodes.get i) < 2 ^ 31) :
    ∃ code', Inv dfa offs (fun j => compiled j ∨ j = i)
      (next + compiledNodeMaxBytecodeSize (dfa.nodes.get i))
      (DFABytecodeCompiler.compileNode offs st (dfa.nodes.get i) i (decide (i = dfa.root)))
      code' := by
  obtain ⟨start, hstart_eq⟩ : ∃ start, start = st.bytecode.length +
    if i = dfa.root then ((dfa.nodes.get i).actions.map appendActionBytecodeSize).sum else 0 :=
    ⟨_, rfl⟩
  obtain ⟨starts, hsts⟩ : ∃ starts, starts = st.nodeStartOffsets.set i (some start) := ⟨_, rfl⟩
  have hspec := compileNode_spec offs hlive i (decide (i = dfa.root)) st
  simp only [decide_eq_true_eq] at hspec
  rw [← hstart_eq] at hst
  rw [← hstart_eq, ← hsts] at hspec
  generalize DFABytecodeCompiler.compileNode offs st (dfa.nodes.get i) i
    (decide (i = dfa.root)) = st' at hspec
  have hlen := hspec.length
  have hle := length_pieces_le (chosenSize offs starts.get i) (fun item h => (hitems item h).1)
    st.bytecode.length
  rw [sum_maxBytecodeSize hlive] at hle
  have hbef := h.length_le
  have hcode := h.length_bytecode
  have hget : ∀ t, st'.nodeStartOffsets.get t =
      if t = i then some start else st.nodeStartOffsets.get t := by
    intro t
    rw [hspec.nodeStartOffsets]
    rw [hsts, Vec.get_set]
  rw [nodePieces, pieces_append, length_append, length_actionItems] at hlen
  rw [pieces_append, length_append, length_actionItems] at hle
  dsimp only at hlen
  have hstart_le : start ≤ st.bytecode.length +
      ((dfa.nodes.get i).actions.map appendActionBytecodeSize).sum := by
    rw [hstart_eq]
    split_ifs <;> omega
  have hstarts_le : ∀ t s, st'.nodeStartOffsets.get t = some s → s ≤ st'.bytecode.length := by
    intro t s hs
    rw [hget] at hs
    split_ifs at hs
    · cases hs
      omega
    · have := h.start_le t s hs
      omega
  refine ⟨code ++ nodePieces (chosenSize offs starts.get i) st.bytecode.length
    (dfa.nodes.get i), ?_, ?_, ?_, ?_, ?_, ?_, hstarts_le, ?_⟩
  · simp [hspec.bytecode, h.bytecode]
  · rw [hspec.linkRecords, h.linkRecords, references_append, hcode]
  · omega
  · rw [forallFrom_append, ← hcode]
    constructor
    -- the distances that were ready stay ready, also those that lead to this node
    · refine h.ready.imp fun l p _ hl hready tgt htgt => ?_
      refine (hready tgt htgt).step hget (h.not_compiled i hi) ?_ hst (by omega)
      omega
    -- of the new code only the transitions have distances
    · rw [nodePieces, pieces_append, forallFrom_append, length_actionItems]
      constructor
      · apply forallFrom_pieces
        intro l item hitem _ _ tgt htgt
        obtain ⟨a, -, rfl⟩ := mem_map.1 hitem
        cases htgt
      · have hsts' : starts = st'.nodeStartOffsets := hspec.nodeStartOffsets.symm
        have hi' : st'.nodeStartOffsets.get i = some start := by rw [hget, if_pos rfl]
        have hsaved : offs i = start + (next - st.bytecode.length) := by omega
        have hmax' : ∀ item ∈ transitionItems (dfa.nodes.get i), ∀ tgt ∈ item.targets,
            offs tgt < 2 ^ 31 := fun item hitem tgt htgt =>
          hmax tgt ((hitems item (mem_append_right _ hitem)).2 tgt htgt)
        rw [hsts'] at hlen hle ⊢
        generalize transitionItems (dfa.nodes.get i) = items at hlen hle hmax'
        exact forallFrom_ready hi' hstarts_le hmax' hsaved (by omega) hnext hstart_le (by omega)
  · rw [forallFrom_append, ← hcode]
    refine ⟨h.valid, forallFrom_pieces (P := fun _ _ tgt => Valid dfa tgt) ?_⟩
    intro l item hitem _ _
    exact (hitems item hitem).2
  · intro j hj
    rw [hget, if_neg (fun h => hj (.inr h))]
    exact h.not_compiled j (fun h => hj (.inl h))
  -- the code of this node is the last one, and that of the others stays where it is
  · intro j hj hjlive
    by_cases hji : j = i
    · subst hji
      refine ⟨code, [], chosenSize offs starts.get j, hfst, ?_, ?_⟩
      · simp [← hcode]
      · rw [hget, if_pos rfl, hstart_eq, hcode]
    · obtain ⟨pre, after, size, hroot, hspl, hs⟩ := h.node j (hj.resolve_right hji) hjlive
      refine ⟨pre, after ++ nodePieces (chosenSize offs starts.get i) st.bytecode.length
        (dfa.nodes.get i), size, hroot, ?_, ?_⟩
      · rw [hspl]
        simp only [append_assoc]
      · rw [hget, if_neg hji, hs]

/-- Nothing is emitted for a killed node. -/
lemma Inv.killed (hkill : (dfa.nodes.get i).isKilled = true) :
    Inv dfa offs (fun j => compiled j ∨ j = i) next st code where
  bytecode := h.bytecode
  linkRecords := h.linkRecords
  length_le := h.length_le
  ready := h.ready
  valid := h.valid
  not_compiled := fun j hj => h.not_compiled j fun hc => hj (.inl hc)
  start_le := h.start_le
  node := by
    rintro j (hj | rfl) hlive
    · exact h.node j hj hlive
    · rw [hkill] at hlive
      cases hlive

/-! ### All nodes -/

end

/-- The end of the code for the root and the nodes below `k`, if all distances had four bytes. -/
def nextOffset (dfa : DFA) (k : ℕ) : ℕ :=
  dfaHeaderSize + compiledNodeMaxBytecodeSize (dfa.nodes.get dfa.root) +
    ((List.range k).map fun j =>
      if j = dfa.root then 0 else compiledNodeMaxBytecodeSize (dfa.nodes.get j)).sum

lemma nextOffset_succ (dfa : DFA) (k : ℕ) : nextOffset dfa (k + 1) = nextOffset dfa k +
    if k = dfa.root then 0 else compiledNodeMaxBytecodeSize (dfa.nodes.get k) := by
  rw [nextOffset, nextOffset, range_succ]
  simp [Nat.add_assoc]

lemma nextOffset_mono (dfa : DFA) : Monotone (nextOffset dfa) := monotone_nat_of_le_succ fun k => by
    rw [nextOffset_succ]
    exact Nat.le_add_right _ _

/-- The loop of `compile` over the worst-case offsets. -/
lemma foldl_maxOffsets (dfa : DFA) (offsets : Vec ℕ) (n : ℕ) :
    let result := (List.range n).foldl (fun (offsets, nextIndex) i =>
      if i ≠ dfa.root then
        (offsets.set i nextIndex, nextIndex + compiledNodeMaxBytecodeSize (dfa.nodes.get i))
      else (offsets, nextIndex)) (offsets, nextOffset dfa 0)
    result.2 = nextOffset dfa n ∧ ∀ i, result.1.get i =
      if i ≠ dfa.root ∧ i < n then nextOffset dfa i else offsets.get i := by
  induction n with
  | zero => simp
  | succ n ih =>
    obtain ⟨hnext, hget⟩ := ih
    rw [range_succ, foldl_append, foldl_cons, foldl_nil]
    generalize List.foldl _ (offsets, nextOffset dfa 0) (List.range n) = result at hnext hget
    obtain ⟨offsets', nextIndex⟩ := result
    subst hnext
    dsimp only at ⊢
    by_cases hroot : n = dfa.root
    · rw [if_neg (not_not.2 hroot), nextOffset_succ, if_pos hroot]
      refine ⟨rfl, fun i => ?_⟩
      rw [hget]
      congr 1
      simp only [eq_iff_iff]
      omega
    · rw [if_pos hroot, nextOffset_succ, if_neg hroot]
      refine ⟨rfl, fun i => ?_⟩
      rw [Vec.get_set]
      by_cases hi : i = n
      · subst hi
        rw [if_pos rfl, if_pos ⟨hroot, Nat.lt_succ_self i⟩]
      · rw [if_neg hi, hget]
        congr 1
        simp only [eq_iff_iff]
        omega

lemma maxOffsets_snd (dfa : DFA) : (maxNodeStartOffsets dfa).2 = nextOffset dfa dfa.nodes.size :=
  (foldl_maxOffsets dfa _ dfa.nodes.size).1

lemma get_maxOffsets_root (dfa : DFA) :
    (maxNodeStartOffsets dfa).1.get dfa.root = dfaHeaderSize +
      ((dfa.nodes.get dfa.root).actions.map appendActionBytecodeSize).sum := by
  refine ((foldl_maxOffsets dfa _ dfa.nodes.size).2 dfa.root).trans ?_
  simp

lemma get_maxNodeStartOffsets (dfa : DFA) (hi : i < dfa.nodes.size) (hroot : i ≠ dfa.root) :
    (maxNodeStartOffsets dfa).1.get i = nextOffset dfa i := by
  refine ((foldl_maxOffsets dfa _ dfa.nodes.size).2 i).trans ?_
  rw [if_pos ⟨hroot, hi⟩]

lemma get_maxOffsets_lt (hsize : (maxNodeStartOffsets dfa).2 < 2 ^ 31) (hi : Valid dfa i) :
    (maxNodeStartOffsets dfa).1.get i < 2 ^ 31 := by
  rw [maxOffsets_snd] at hsize
  by_cases hroot : i = dfa.root
  · obtain ⟨-, hlive⟩ := hi
    subst hroot
    rw [get_maxOffsets_root]
    refine lt_of_le_of_lt ?_ hsize
    refine le_trans ?_ (nextOffset_mono dfa (Nat.zero_le _))
    rw [nextOffset, compiledNodeMaxBytecodeSize, hlive]
    simp only [Bool.false_eq_true, if_false]
    omega
  · rw [get_maxNodeStartOffsets dfa hi.1 hroot]
    exact lt_of_le_of_lt (nextOffset_mono dfa hi.1.le) hsize

/-- What the linker needs of the automaton: its nodes have transitions to nodes that are not killed
only. -/
structure Linkable (dfa : DFA) : Prop where
  wf : dfa.WF
  live : ∀ i < dfa.nodes.size, ∀ r ∈ (dfa.nodes.get i).transitions,
    (dfa.nodes.get r.data).isKilled = false

/-- What the code needs of the automaton: the root is not killed, either. -/
structure Compilable (dfa : DFA) : Prop extends Linkable dfa where
  root : (dfa.nodes.get dfa.root).isKilled = false

lemma Linkable.realizes (h : Linkable dfa) (hi : i < dfa.nodes.size) :
    (transitions (dfa.nodes.get i)).Realizes (dfa.target i) :=
  transitions_realizes (h.wf.sorted i hi) (h.wf.last_le i hi)

lemma Linkable.valid_target (h : Linkable dfa) {i c j : ℕ} (hi : i < dfa.nodes.size)
    (hj : dfa.target i c = some j) : Valid dfa j := by
  refine ⟨h.wf.target_lt' hi hj, ?_⟩
  obtain ⟨r, hr, -, -, rfl⟩ := RangeMap.lookup_eq_some hj
  exact h.live i hi r hr

/-- The items of a node are well formed, and lead to nodes that are compiled. -/
lemma Linkable.items (h : Linkable dfa) (hi : i < dfa.nodes.size)
    (hitem : item ∈ actionItems (dfa.nodes.get i) ++ transitionItems (dfa.nodes.get i)) :
    item.WF ∧ ∀ tgt ∈ item.targets, Valid dfa tgt := by
  have hreal := h.realizes hi
  have hvld : ∀ d, (∃ c < 128, dfa.target i c = some d) → Valid dfa d := by
    rintro d ⟨c, -, hc⟩
    exact h.valid_target hi hc
  unfold actionItems transitionItems at hitem
  simp only [mem_append, mem_map, mem_singleton] at hitem
  rcases hitem with ⟨a, -, rfl⟩ | (⟨table, htable, rfl⟩ | ⟨range, hrng, rfl⟩) | hlast
  · exact ⟨trivial, by simp [Item.targets]⟩
  · have hsound := hreal.table_sound table htable
    exact ⟨⟨hsound.min_le_max, hsound.length_destinations⟩,
      fun tgt htgt => hvld tgt (hsound.destination tgt htgt)⟩
  · refine ⟨trivial, fun tgt htgt => ?_⟩
    obtain rfl := mem_singleton.1 htgt
    exact hvld _ (hreal.range_sound range hrng).destination
  · subst hlast
    cases hfb : (transitions (dfa.nodes.get i)).fallbackTransitionTarget with
    | none => exact ⟨trivial, by simp [Item.targets]⟩
    | some d =>
      refine ⟨trivial, fun tgt htgt => ?_⟩
      obtain rfl := mem_singleton.1 htgt
      exact hvld _ (hreal.fallback _ hfb)

lemma Inv.congr (compiled' : ℕ → Prop) (h : Inv dfa offs compiled next st code)
    (hiff : ∀ i, compiled i ↔ compiled' i) : Inv dfa offs compiled' next st code := by
  have heq : compiled = compiled' := funext fun i => propext (hiff i)
  rwa [← heq]

section

variable (h : Linkable dfa) (hsize : (maxNodeStartOffsets dfa).2 < 2 ^ 31)

include h hsize

/-- The loop over the nodes other than the root. -/
lemma exists_inv_foldl (n : ℕ) (hn : n ≤ dfa.nodes.size) {st : State}
    (hroot : Inv dfa (maxNodeStartOffsets dfa).1.get (· = dfa.root) (nextOffset dfa 0) st code) :
    ∃ code', Inv dfa (maxNodeStartOffsets dfa).1.get (fun i => i = dfa.root ∨ i < n)
      (nextOffset dfa n)
      ((List.range n).foldl (fun st i => if i ≠ dfa.root then
        compileNode (maxNodeStartOffsets dfa).1.get st (dfa.nodes.get i) i false else st) st)
      code' := by
  induction n with
  | zero => exact ⟨code, hroot.congr _ (by simp)⟩
  | succ n ih =>
    obtain ⟨code', hinv⟩ := ih (by omega)
    rw [range_succ, foldl_append, foldl_cons]
    have hiff : ∀ i, ((i = dfa.root ∨ i < n) ∨ i = n) ↔ (i = dfa.root ∨ i < n + 1) := by
      omega
    by_cases hroot : n = dfa.root
    · rw [if_neg (not_not.2 hroot), nextOffset_succ, if_pos hroot]
      refine ⟨code', hinv.congr _ fun i => ?_⟩
      omega
    · rw [if_pos hroot, nextOffset_succ, if_neg hroot]
      have hnew : ¬(n = dfa.root ∨ n < n) := by omega
      cases hkill : (dfa.nodes.get n).isKilled with
      | true =>
        refine ⟨code', ?_⟩
        rw [compileNode, compiledNodeMaxBytecodeSize, hkill]
        exact (hinv.killed hnew hkill).congr _ hiff
      | false =>
        have hmono := nextOffset_mono dfa hn
        rw [nextOffset_succ, if_neg hroot] at hmono
        rw [maxOffsets_snd] at hsize
        have hstep := hinv.compileNode hnew hkill (fun h => absurd h hroot)
          (fun _ => h.items hn)
          (fun _ => get_maxOffsets_lt (by rwa [maxOffsets_snd]))
          (by rw [get_maxNodeStartOffsets dfa hn hroot, if_neg hroot]; omega) (by omega)
        obtain ⟨code'', hinv'⟩ := hstep
        rw [decide_eq_false hroot] at hinv'
        exact ⟨code'', hinv'.congr _ hiff⟩

lemma exists_inv_compileNodes : ∃ code, Inv dfa (maxNodeStartOffsets dfa).1.get (· < dfa.nodes.size)
      (nextOffset dfa dfa.nodes.size) (compileNodes dfa) code := by
  have hinit : Inv dfa (maxNodeStartOffsets dfa).1.get (fun _ => False) dfaHeaderSize
      ⟨split dfaHeaderSize 0, Vec.replicate dfa.nodes.size none, []⟩ [] :=
    ⟨by simp [blank], rfl, by simp, trivial, trivial, fun _ _ => rfl, by simp,
      fun _ hfalse => hfalse.elim⟩
  have hmono := nextOffset_mono dfa (Nat.zero_le dfa.nodes.size)
  have hzero : nextOffset dfa 0 =
      dfaHeaderSize + compiledNodeMaxBytecodeSize (dfa.nodes.get dfa.root) := by
    simp [nextOffset]
  obtain ⟨code, hroot⟩ : ∃ code, Inv dfa (maxNodeStartOffsets dfa).1.get
      (fun i => False ∨ i = dfa.root) (nextOffset dfa 0)
      (compileNode (maxNodeStartOffsets dfa).1.get
        ⟨split dfaHeaderSize 0, Vec.replicate dfa.nodes.size none, []⟩ (dfa.nodes.get dfa.root)
        dfa.root true) code := by
    cases hkill : (dfa.nodes.get dfa.root).isKilled with
    | true =>
      rw [hzero, compileNode, compiledNodeMaxBytecodeSize, hkill]
      exact ⟨[], hinit.killed not_false hkill⟩
    | false =>
      rw [← decide_eq_true (rfl : dfa.root = dfa.root)]
      exact hinit.compileNode not_false hkill (fun _ => rfl) (fun _ => h.items h.wf.root_lt)
        (fun _ => get_maxOffsets_lt hsize) (by rw [get_maxOffsets_root]; simp; omega)
        (by rw [maxOffsets_snd] at hsize; omega)
  obtain ⟨code', hinv⟩ := exists_inv_foldl h hsize dfa.nodes.size le_rfl
    (hroot.congr (· = dfa.root) (by simp))
  refine ⟨code', hinv.congr _ fun i => ?_⟩
  have := h.wf.root_lt
  omega

/-! ### Linking -/

variable {bytecode : List ℕ}

end

lemma setBits_eq {value : List ℕ} {index : ℕ} (h : index + value.length ≤ bytecode.length) :
    setBits bytecode index value = some (write bytecode index value) :=
  if_pos h

/-- The assertions of `link` hold when the target is compiled and the distance is representable. -/
lemma link_eq {record : LinkRecord}
    (hs : starts record.destinationNodeIndex = some s) (hlt : s < 2 ^ 31 - 1)
    (hfits : Fits (jumpSizeInBytes record.jumpSize) ((s : ℤ) - record.instructionLocation))
    (hlen : record.jumpLocation + jumpSizeInBytes record.jumpSize ≤ bytecode.length) :
    link starts bytecode record = some (write bytecode record.jumpLocation
      (splitInt (jumpSizeInBytes record.jumpSize) ((s : ℤ) - record.instructionLocation))) := by
  obtain ⟨jumpSize, instructionLocation, jumpLocation, destination⟩ := record
  rw [link]
  simp only [hs, Option.bind_eq_bind, Option.bind_some, guard, hlt, if_true, pure]
  generalize (s : ℤ) - instructionLocation = distance at hfits
  cases jumpSize with
  | int8 | int16 =>
    simp only [jumpSizeInBytes, Fits] at hfits hlen ⊢
    rw [if_pos (Int.bmod_eq_of_le (by omega) (by omega)).symm, Option.bind_some,
      setBits_eq (by simpa using hlen)]
  | int24 =>
    simp only [jumpSizeInBytes, Fits] at hfits hlen ⊢
    have hwrite : jumpLocation + (splitInt 2 distance).length ≤ bytecode.length := by
      rw [length_splitInt]
      omega
    rw [if_pos (by omega), Option.bind_some, setBits_eq hwrite, Option.bind_some, setBits_eq]
    · have hle : jumpLocation + (splitInt 2 distance).length +
          (splitInt 1 (distance / 2 ^ 16)).length ≤ bytecode.length := by
        rw [length_splitInt, length_splitInt]
        omega
      have h := write_write hle
      rw [length_splitInt] at h
      rw [h, splitInt_three]
    · rw [length_write hwrite, length_splitInt]
      omega
  | int32 =>
    simp only [jumpSizeInBytes] at hlen ⊢
    rw [setBits_eq (by simpa using hlen)]

/-- Linking patches all references. -/
lemma foldlM_link {records : List LinkRecord}
    (h : ∀ record ∈ records, ∃ s, starts record.destinationNodeIndex = some s ∧ s < 2 ^ 31 - 1 ∧
      Fits (jumpSizeInBytes record.jumpSize) ((s : ℤ) - record.instructionLocation) ∧
      record.jumpLocation + jumpSizeInBytes record.jumpSize ≤ bytecode.length) :
    records.foldlM (link starts) bytecode =
      some ((records.map LinkRecord.toReference).foldl
        (patch jumpSizeInBytes fun t => (starts t).getD 0) bytecode) := by
  induction records generalizing bytecode with
  | nil => rfl
  | cons record records ih =>
    obtain ⟨s, hs, hlt, hfits, hlen⟩ := h record mem_cons_self
    have hpatch : link starts bytecode record = some (patch jumpSizeInBytes
        (fun t => (starts t).getD 0) bytecode record.toReference) := by
      rw [link_eq hs hlt hfits hlen, patch]
      simp only [LinkRecord.toReference, hs, Option.getD_some]
    rw [foldlM_cons, hpatch]
    apply ih
    intro record' hrec'
    obtain ⟨s', hs', hlt', hfits', hlen'⟩ := h record' (mem_cons_of_mem _ hrec')
    refine ⟨s', hs', hlt', hfits', ?_⟩
    rwa [patch, length_write (by simpa [LinkRecord.toReference] using hlen)]

/-- What stands at the start of a node: the actions of the root are not part of it. -/
def entryItems (dfa : DFA) (i : ℕ) : List Item :=
  if i = dfa.root then transitionItems (dfa.nodes.get i)
  else actionItems (dfa.nodes.get i) ++ transitionItems (dfa.nodes.get i)

/-- Bytecode with the code of all nodes in the `span` bytes from `base` on. -/
structure Compiled (dfa : DFA) (bytecode : List ℕ) (base span : ℕ) (starts : ℕ → ℕ) : Prop where
  header : readNat dfaHeaderSize bytecode base = span
  length_le : base + span ≤ bytecode.length
  length_lt : bytecode.length < 2 ^ 31
  start_lt : ∀ i, Valid dfa i → starts i < base + span
  /-- The actions of the root come first. -/
  rootActions : ∃ size, CodeAt jumpSizeInBytes starts bytecode (base + dfaHeaderSize)
    (nodePieces size (base + dfaHeaderSize) (dfa.nodes.get dfa.root))
  root_start : starts dfa.root = base + dfaHeaderSize +
    ((dfa.nodes.get dfa.root).actions.map appendActionBytecodeSize).sum
  node : ∀ i, Valid dfa i → ∃ size, CodeAt jumpSizeInBytes starts bytecode (starts i)
    (pieces size (starts i) (entryItems dfa i))

/-- The bytecode of an automaton between other bytecode. -/
lemma Compiled.append {starts : ℕ → ℕ} (h : Compiled dfa bytecode 0 bytecode.length starts)
    (hroot : Valid dfa dfa.root) (before after : List ℕ)
    (hlength : (before ++ (bytecode ++ after)).length < 2 ^ 31) :
    Compiled dfa (before ++ (bytecode ++ after)) before.length bytecode.length
      fun i => before.length + starts i where
  header := by
    have hheader : dfaHeaderSize ≤ bytecode.length := by
      have := h.start_lt dfa.root hroot
      rw [h.root_start] at this
      omega
    rw [readNat, drop_left, take_append_of_le_length hheader]
    exact h.header
  length_le := by
    simp only [List.length_append]
    omega
  length_lt := hlength
  start_lt i hi := by
    have := h.start_lt i hi
    omega
  rootActions := by
    obtain ⟨size, hcode⟩ := h.rootActions
    refine ⟨fun l => size (l - before.length), ?_⟩
    rw [nodePieces, pieces_add]
    have := hcode.append before after
    rwa [Nat.zero_add] at this
  root_start := by
    rw [h.root_start, Nat.zero_add, Nat.add_assoc]
  node i hi := by
    obtain ⟨size, hcode⟩ := h.node i hi
    refine ⟨fun l => size (l - before.length), ?_⟩
    rw [pieces_add]
    exact hcode.append before after

/-- The programs of the automata from `base` to the end of the bytecode. -/
inductive CompiledFrom (bytecode : List ℕ) : ℕ → List DFA → Prop
  | nil : CompiledFrom bytecode bytecode.length []
  | cons {base span : ℕ} {starts : ℕ → ℕ} {dfa : DFA} {dfas : List DFA}
      (h : Compiled dfa bytecode base span starts)
      (hrest : CompiledFrom bytecode (base + span) dfas) : CompiledFrom bytecode base (dfa :: dfas)

lemma CompiledFrom.exists_head {base : ℕ} {dfas : List DFA}
    (h : CompiledFrom bytecode base (dfa :: dfas)) :
    ∃ span starts, Compiled dfa bytecode base span starts ∧
      CompiledFrom bytecode (base + span) dfas := by
  cases h with
  | cons h hrest => exact ⟨_, _, h, hrest⟩

/-- Programs that are written one after the other. -/
lemma compiledFrom_flatten {dfas : List DFA} {programs : List (List ℕ)} (before : List ℕ)
    (h : Forall₂ (fun dfa program => Valid dfa dfa.root ∧
      ∃ starts, Compiled dfa program 0 program.length starts) dfas programs)
    (hlength : (before ++ programs.flatten).length < 2 ^ 31) :
    CompiledFrom (before ++ programs.flatten) before.length dfas := by
  induction h generalizing before with
  | nil =>
    rw [flatten_nil, append_nil]
    exact .nil
  | @cons dfa program dfas programs hprogram _ ih =>
    obtain ⟨hroot, starts, hcompiled⟩ := hprogram
    rw [flatten_cons] at ⊢
    refine .cons (hcompiled.append hroot before programs.flatten hlength) ?_
    have hrest := ih (before ++ program)
    rw [append_assoc] at hrest
    simpa only [List.length_append] using hrest hlength

/-- The state when all nodes are compiled. -/
structure Layout (dfa : DFA) (st : State) (starts : ℕ → ℕ)
    (code : List (Piece DFABytecodeJumpSize)) : Prop where
  bytecode : st.bytecode = split dfaHeaderSize 0 ++ blank jumpSizeInBytes code
  linkRecords : st.linkRecords.map LinkRecord.toReference =
    references jumpSizeInBytes dfaHeaderSize code
  length_lt : st.bytecode.length < 2 ^ 31
  starts_eq : starts = fun i => (st.nodeStartOffsets.get i).getD 0
  start : ∀ i, Valid dfa i →
    st.nodeStartOffsets.get i = some (starts i) ∧ starts i < st.bytecode.length
  node : ∀ i, Valid dfa i → ∃ before after size, (i = dfa.root → before = []) ∧
    code = before ++ nodePieces size (dfaHeaderSize + length jumpSizeInBytes before)
      (dfa.nodes.get i) ++ after ∧
    starts i = dfaHeaderSize + length jumpSizeInBytes before +
      if i = dfa.root then ((dfa.nodes.get i).actions.map appendActionBytecodeSize).sum else 0
  valid : ForallFrom jumpSizeInBytes (fun _ p => ∀ target ∈ p.targets, Valid dfa target)
    dfaHeaderSize code
  inRange : InRange jumpSizeInBytes starts dfaHeaderSize code

lemma Inv.layout (h : Inv dfa offs (· < dfa.nodes.size) next st code) (hnext : next < 2 ^ 31) :
    Layout dfa st (fun i => (st.nodeStartOffsets.get i).getD 0) code := by
  obtain ⟨starts, hsts⟩ : ∃ starts, starts = fun i => (st.nodeStartOffsets.get i).getD 0 := ⟨_, rfl⟩
  rw [← hsts]
  have hnode := fun i (hi : Valid dfa i) => h.node i hi.1 hi.2
  have hsome : ∀ i, Valid dfa i → st.nodeStartOffsets.get i = some (starts i) := by
    intro i hi
    obtain ⟨pre, after, size, -, -, hst⟩ := hnode i hi
    rw [hsts]
    simp [hst]
  have hstart_lt : ∀ i, Valid dfa i → starts i < st.bytecode.length := by
    intro i hi
    obtain ⟨pre, after, size, -, hcode, hst⟩ := hnode i hi
    have hpos := length_pieces_pos size (transitionItems_ne_nil (dfa.nodes.get i))
      (dfaHeaderSize + length jumpSizeInBytes pre +
        ((dfa.nodes.get i).actions.map appendActionBytecodeSize).sum)
    rw [h.length_bytecode, hcode, length_append, length_append, nodePieces, pieces_append,
      length_append, length_actionItems, Option.some.inj ((hsome i hi).symm.trans hst)]
    split_ifs <;> omega
  refine ⟨h.bytecode, h.linkRecords, lt_of_le_of_lt h.length_le hnext, hsts,
    fun i hi => ⟨hsome i hi, hstart_lt i hi⟩, fun i hi => ?_, h.valid, ?_⟩
  · obtain ⟨pre, after, size, hroot, hcode, hst⟩ := hnode i hi
    exact ⟨pre, after, size, hroot, hcode, Option.some.inj ((hsome i hi).symm.trans hst)⟩
  · -- all targets are compiled, so their distances are known
    refine (h.valid.and h.ready).imp fun loc p _ _ hp tgt htgt => ?_
    have htarget := hsome tgt (hp.1 tgt htgt)
    rcases hp.2 tgt htgt with ⟨s, hs, hfits⟩ | ⟨hnone, -⟩
    · cases htarget.symm.trans hs
      exact hfits
    · cases htarget.symm.trans hnone

namespace Layout

variable {starts : ℕ → ℕ}

section

variable (h : Layout dfa st starts code)

include h

lemma length_bytecode : st.bytecode.length = dfaHeaderSize + length jumpSizeInBytes code := by
  simp [h.bytecode]

lemma foldlM_link :
    st.linkRecords.foldlM (link st.nodeStartOffsets.get) st.bytecode =
      some (split dfaHeaderSize 0 ++ encode jumpSizeInBytes starts dfaHeaderSize code) := by
  have hlen := h.length_lt
  rw [DFABytecodeCompiler.foldlM_link, h.linkRecords, h.bytecode, ← h.starts_eq]
  · have hpatch := foldl_patch jumpSizeInBytes starts (split dfaHeaderSize 0) [] code
    rw [length_split, append_nil, append_nil] at hpatch
    rw [hpatch]
  · intro record hrec
    have hmem : record.toReference ∈ references jumpSizeInBytes dfaHeaderSize code := by
      rw [← h.linkRecords]
      exact mem_map_of_mem hrec
    obtain ⟨hvld, hplace⟩ := h.valid.mem_references (R := fun _ _ t => Valid dfa t) hmem
    obtain ⟨hfits, -⟩ := h.inRange.mem_references
      (R := fun l size t => Fits (jumpSizeInBytes size) (starts t - l)) hmem
    obtain ⟨hsome, hlt⟩ := h.start _ hvld
    refine ⟨_, hsome, by omega, hfits, ?_⟩
    rw [h.length_bytecode]
    exact hplace

lemma setBits_header :
    let bytecode := split dfaHeaderSize 0 ++ encode jumpSizeInBytes starts dfaHeaderSize code
    setBits bytecode 0 (split dfaHeaderSize bytecode.length) =
      some (split dfaHeaderSize st.bytecode.length ++
        encode jumpSizeInBytes starts dfaHeaderSize code) := by
  dsimp only
  rw [List.length_append, length_split, length_encode, ← h.length_bytecode]
  generalize encode jumpSizeInBytes starts dfaHeaderSize code = encoded
  have hwrite := write_append (p := []) (q := split dfaHeaderSize 0) (r := encoded)
    (v := split dfaHeaderSize st.bytecode.length) (by simp)
  exact congrArg some hwrite

/-- The code of a node in the linked bytecode. -/
lemma codeAt (hi : Valid dfa i) (header : List ℕ) (hhdr : header.length = dfaHeaderSize) :
    ∃ pre size, (i = dfa.root → pre = []) ∧
      CodeAt jumpSizeInBytes starts (header ++ encode jumpSizeInBytes starts dfaHeaderSize code)
        (dfaHeaderSize + length jumpSizeInBytes pre)
        (nodePieces size (dfaHeaderSize + length jumpSizeInBytes pre) (dfa.nodes.get i)) ∧
      starts i = dfaHeaderSize + length jumpSizeInBytes pre +
        if i = dfa.root then ((dfa.nodes.get i).actions.map appendActionBytecodeSize).sum
        else 0 := by
  obtain ⟨pre, after, size, hroot, hcode, hst⟩ := h.node i hi
  have hall : CodeAt jumpSizeInBytes starts
      (header ++ encode jumpSizeInBytes starts dfaHeaderSize code) dfaHeaderSize code :=
    ⟨⟨[], by rw [← hhdr, drop_left, append_nil]⟩, h.inRange⟩
  refine ⟨pre, size, hroot, ?_, hst⟩
  have hspl := hall
  rw [hcode] at hspl
  rw [hcode]
  exact hspl.left.right

lemma length_linked : (split dfaHeaderSize st.bytecode.length ++
    encode jumpSizeInBytes starts dfaHeaderSize code).length = st.bytecode.length := by
  simp [length_encode, h.length_bytecode]

lemma toCompiled (hroot : Valid dfa dfa.root) :
    Compiled dfa (split dfaHeaderSize st.bytecode.length ++
      encode jumpSizeInBytes starts dfaHeaderSize code) 0 st.bytecode.length starts := by
  have hlen := h.length_lt
  have heq := h.length_linked
  have hcode := fun i hi => h.codeAt (i := i) hi (split dfaHeaderSize st.bytecode.length)
    (length_split _ _)
  refine ⟨?_, by rw [heq, Nat.zero_add], by rwa [heq], ?_, ?_, ?_, ?_⟩
  · rw [readNat_of_drop drop_zero, Nat.mod_eq_of_lt]
    exact lt_trans hlen (by decide)
  · intro i hi
    rw [Nat.zero_add]
    exact (h.start i hi).2
  · obtain ⟨pre, size, hbef, hat, -⟩ := hcode dfa.root hroot
    rw [hbef rfl] at hat
    exact ⟨size, hat⟩
  · obtain ⟨pre, size, hbef, -, hst⟩ := hcode dfa.root hroot
    rwa [hbef rfl, if_pos rfl] at hst
  · intro i hi
    obtain ⟨pre, size, -, hat, hst⟩ := hcode i hi
    refine ⟨size, ?_⟩
    unfold entryItems
    split_ifs at hst ⊢ with hroot
    · rw [nodePieces, pieces_append] at hat
      have hrt := hat.right
      rw [length_actionItems, ← hst] at hrt
      exact hrt
    · rw [hst]
      exact hat

end

end Layout

/-- The compiler succeeds, and its bytecode has the code of all nodes. -/
theorem exists_compiled (h : Compilable dfa) (hsize : (maxNodeStartOffsets dfa).2 < 2 ^ 31) :
    ∃ bytecode starts, compile dfa = some bytecode ∧
      bytecode.length ≤ (maxNodeStartOffsets dfa).2 ∧
      Compiled dfa bytecode 0 bytecode.length starts := by
  obtain ⟨code, hinv⟩ := exists_inv_compileNodes h.toLinkable hsize
  rw [maxOffsets_snd] at hsize ⊢
  have hlayout := hinv.layout hsize
  have hcompile := hlayout.setBits_header
  refine ⟨_, fun i => ((compileNodes dfa).nodeStartOffsets.get i).getD 0,
    by rw [compile, hlayout.foldlM_link]; exact hcompile, ?_, ?_⟩
  · rw [hlayout.length_linked]
    exact hinv.length_le
  · rw [hlayout.length_linked]
    exact hlayout.toCompiled ⟨h.wf.root_lt, h.root⟩

end DFABytecodeCompiler

end WebKit.ContentExtensions
