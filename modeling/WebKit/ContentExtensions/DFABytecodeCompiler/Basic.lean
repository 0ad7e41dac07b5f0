import WebKit.ContentExtensions.DFABytecode
import WebKit.ContentExtensions.NodeTransitions

/-!
# Compiling an automaton to bytecode

The nodes are compiled one after the other, the root first. The size of a jump distance is chosen
when the jump is emitted, from the distance to a node that is compiled already, or from a bound on
the distance to a node that is not. The distances are filled in at the end.
-/

namespace WebKit.ContentExtensions

open Bytes Linking
open List hiding head length length_cons

def resourceTypeMask : ℕ := 0x03FF

def loadTypeMask : ℕ := 0x0C00

def actionFlagMask : ℕ := 0x0000FFFF00000000

def ifConditionFlag : ℕ := 0x0001000000000000

namespace DFABytecodeCompiler

open DFABytecodeInstruction DFABytecodeJumpSize

structure LinkRecord where
  jumpSize : DFABytecodeJumpSize
  instructionLocation : ℕ
  jumpLocation : ℕ
  destinationNodeIndex : ℕ

/-- The members of the compiler that change. A node that has not been compiled has no start
offset; the bytecode has fewer than `2 ^ 32` bytes. -/
structure State where
  bytecode : List ℕ
  nodeStartOffsets : Vec (Option ℕ)
  linkRecords : List LinkRecord

def State.append (st : State) (bytes : List ℕ) : State :=
  { st with bytecode := st.bytecode ++ bytes }

/-- A link record is appended, and zeroes for the distance. -/
def State.appendDistance (st : State) (record : LinkRecord) : State :=
  { st with
    bytecode := st.bytecode ++ List.replicate (jumpSizeInBytes record.jumpSize) 0
    linkRecords := st.linkRecords ++ [record] }

def appendActionBytecodeSize (action : ℕ) : ℕ :=
  if action &&& actionFlagMask ≠ 0 then 1 + 2 + 4 else 1 + 4

/-- The bytes that `emitAppendAction` appends. -/
def actionBytes (action : ℕ) : List ℕ :=
  let ifCondition := decide (action &&& ifConditionFlag ≠ 0)
  if action &&& actionFlagMask ≠ 0 then
    [(testFlagsAndAppendAction ifCondition).toByte] ++ split 2 (action >>> 32) ++ split 4 action
  else [(appendAction ifCondition).toByte] ++ split 4 action

def emitAppendAction (st : State) (action : ℕ) : State := st.append (actionBytes action)

section

variable (maxNodeStartOffsets : ℕ → ℕ)

/-- The difference is an unsigned number of 32 bits that is read as a signed one. -/
def longestPossibleJump (starts : ℕ → Option ℕ)
    (instructionLocation sourceNodeIndex destinationNodeIndex : ℕ) : ℤ :=
  match starts destinationNodeIndex with
  | none =>
    let sourceStart : ℤ := (starts sourceNodeIndex).getD (2 ^ 32 - 1)
    ((maxNodeStartOffsets destinationNodeIndex : ℤ) - maxNodeStartOffsets sourceNodeIndex -
      (sourceStart - instructionLocation)).bmod (2 ^ 32)
  | some destinationStart => ((destinationStart : ℤ) - instructionLocation).bmod (2 ^ 32)

/-- The size for a jump from the end of the bytecode. -/
def State.jumpSizeTo (st : State) (sourceNodeIndex destinationNodeIndex : ℕ) :
    DFABytecodeJumpSize :=
  smallestPossibleJumpSize (longestPossibleJump maxNodeStartOffsets st.nodeStartOffsets.get
    st.bytecode.length sourceNodeIndex destinationNodeIndex)

def emitJump (st : State) (sourceNodeIndex destinationNodeIndex : ℕ) : State :=
  let instructionLocation := st.bytecode.length
  let jumpLocation := instructionLocation + 1
  let jumpSize := st.jumpSizeTo maxNodeStartOffsets sourceNodeIndex destinationNodeIndex
  (st.append [jump.toByte ||| jumpSize.toByte]).appendDistance
    ⟨jumpSize, instructionLocation, jumpLocation, destinationNodeIndex⟩

def emitCheckValue (st : State) (value sourceNodeIndex destinationNodeIndex : ℕ)
    (caseSensitive : Bool) : State :=
  let instructionLocation := st.bytecode.length
  let jumpLocation := instructionLocation + 2
  let jumpSize := st.jumpSizeTo maxNodeStartOffsets sourceNodeIndex destinationNodeIndex
  (st.append [(checkValue caseSensitive).toByte ||| jumpSize.toByte, value]).appendDistance
    ⟨jumpSize, instructionLocation, jumpLocation, destinationNodeIndex⟩

def emitCheckValueRange (st : State)
    (lowValue highValue sourceNodeIndex destinationNodeIndex : ℕ) (caseSensitive : Bool) : State :=
  let instructionLocation := st.bytecode.length
  let jumpLocation := instructionLocation + 3
  let jumpSize := st.jumpSizeTo maxNodeStartOffsets sourceNodeIndex destinationNodeIndex
  (st.append [(checkValueRange caseSensitive).toByte ||| jumpSize.toByte, lowValue,
    highValue]).appendDistance
    ⟨jumpSize, instructionLocation, jumpLocation, destinationNodeIndex⟩

def emitTerminate (st : State) : State := st.append [terminate.toByte]

def compileJumpTable (st : State) (nodeIndex : ℕ) (jumpTable : JumpTable) : State :=
  let instructionLocation := st.bytecode.length
  let jumpSize := jumpTable.destinations.foldl (fun jumpSize destinationNodeIndex =>
    jumpSize.max (st.jumpSizeTo maxNodeStartOffsets nodeIndex destinationNodeIndex)) int8
  let st := st.append
    [(DFABytecodeInstruction.jumpTable jumpTable.caseSensitive).toByte ||| jumpSize.toByte,
      jumpTable.min, jumpTable.max]
  jumpTable.destinations.foldl (fun st destinationNodeIndex =>
    st.appendDistance ⟨jumpSize, instructionLocation, st.bytecode.length, destinationNodeIndex⟩) st

def compileCheckForRange (st : State) (nodeIndex : ℕ) (range : CheckRange) : State :=
  if range.min = range.max then
    emitCheckValue maxNodeStartOffsets st range.min nodeIndex range.destination range.caseSensitive
  else
    emitCheckValueRange maxNodeStartOffsets st range.min range.max nodeIndex range.destination
      range.caseSensitive

def compileNodeTransitions (st : State) (node : DFANode) (nodeIndex : ℕ) : State :=
  let nodeTransitions := transitions node
  let st := nodeTransitions.jumpTables.foldl
    (fun st jumpTable => compileJumpTable maxNodeStartOffsets st nodeIndex jumpTable) st
  let st := nodeTransitions.ranges.foldl
    (fun st range => compileCheckForRange maxNodeStartOffsets st nodeIndex range) st
  match nodeTransitions.fallbackTransitionTarget with
  | some target => emitJump maxNodeStartOffsets st nodeIndex target
  | none => emitTerminate st

def State.setNodeStart (st : State) (index : ℕ) : State :=
  { st with nodeStartOffsets := st.nodeStartOffsets.set index (some st.bytecode.length) }

/-- A jump to the root does not add the actions of the root again. -/
def compileNode (st : State) (node : DFANode) (index : ℕ) (root : Bool) : State :=
  if node.isKilled then st
  else
    let st := if root then st else st.setNodeStart index
    let st := node.actions.foldl emitAppendAction st
    let st := if root then st.setNodeStart index else st
    compileNodeTransitions maxNodeStartOffsets st node index

end

def checkForJumpTableMaxBytecodeSize (jumpTable : JumpTable) : ℕ :=
  1 + 2 + (jumpTable.max - jumpTable.min + 1) * 4

def checkForRangeMaxBytecodeSize (range : CheckRange) : ℕ :=
  if range.min = range.max then 1 + 1 + 4 else 1 + 2 + 4

def nodeTransitionsMaxBytecodeSize (node : DFANode) : ℕ :=
  let nodeTransitions := transitions node
  (nodeTransitions.jumpTables.map checkForJumpTableMaxBytecodeSize).sum +
    (nodeTransitions.ranges.map checkForRangeMaxBytecodeSize).sum +
    match nodeTransitions.fallbackTransitionTarget with
    | some _ => 1 + 4
    | none => instructionSizeWithArguments terminate

def compiledNodeMaxBytecodeSize (node : DFANode) : ℕ :=
  if node.isKilled then 0
  else (node.actions.map appendActionBytecodeSize).sum + nodeTransitionsMaxBytecodeSize node

/-- The offsets of the nodes if all distances had four bytes, and the end of the bytecode. -/
def maxNodeStartOffsets (dfa : DFA) : Vec ℕ × ℕ :=
  let root := dfa.nodes.get dfa.root
  let rootActionsSize := (root.actions.map appendActionBytecodeSize).sum
  let offsets := (Vec.replicate dfa.nodes.size 0).set dfa.root (dfaHeaderSize + rootActionsSize)
  (List.range dfa.nodes.size).foldl (fun (offsets, nextIndex) i =>
    if i ≠ dfa.root then
      (offsets.set i nextIndex, nextIndex + compiledNodeMaxBytecodeSize (dfa.nodes.get i))
    else (offsets, nextIndex))
    (offsets, dfaHeaderSize + compiledNodeMaxBytecodeSize root)

/-- `none` when an assertion fails. -/
def setBits (bytecode : List ℕ) (index : ℕ) (value : List ℕ) : Option (List ℕ) :=
  if index + value.length ≤ bytecode.length then some (write bytecode index value) else none

/-- `none` when an assertion fails. -/
def link (nodeStartOffsets : ℕ → Option ℕ) (bytecode : List ℕ) (record : LinkRecord) :
    Option (List ℕ) := do
  let destination ← nodeStartOffsets record.destinationNodeIndex
  guard (destination < 2 ^ 31 - 1)
  let distance : ℤ := (destination : ℤ) - record.instructionLocation
  match record.jumpSize with
  | int8 =>
    guard (distance = distance.bmod (2 ^ 8))
    setBits bytecode record.jumpLocation (splitInt 1 distance)
  | int16 =>
    guard (distance = distance.bmod (2 ^ 16))
    setBits bytecode record.jumpLocation (splitInt 2 distance)
  | int24 =>
    guard (distance ≥ -2 ^ 23 ∧ distance ≤ 2 ^ 23 - 1)
    let bytecode ← setBits bytecode record.jumpLocation (splitInt 2 distance)
    setBits bytecode (record.jumpLocation + 2) (splitInt 1 (distance / 2 ^ 16))
  | int32 => setBits bytecode record.jumpLocation (splitInt 4 distance)

/-- The state when all nodes are compiled and nothing is linked. -/
def compileNodes (dfa : DFA) : State :=
  let maxNodeStartOffsets := (maxNodeStartOffsets dfa).1.get
  let st : State := ⟨split dfaHeaderSize 0, Vec.replicate dfa.nodes.size none, []⟩
  let st := compileNode maxNodeStartOffsets st (dfa.nodes.get dfa.root) dfa.root true
  (List.range dfa.nodes.size).foldl (fun st i =>
    if i ≠ dfa.root then compileNode maxNodeStartOffsets st (dfa.nodes.get i) i false else st) st

/-- The bytecode that `compile` writes into an empty vector; `none` when an assertion fails. -/
def compile (dfa : DFA) : Option (List ℕ) := do
  let st := compileNodes dfa
  let bytecode ← st.linkRecords.foldlM (link st.nodeStartOffsets.get) st.bytecode
  setBits bytecode 0 (split dfaHeaderSize bytecode.length)

/-! ### The emitted code -/

/-- What is emitted for a node, before the sizes of the distances are chosen. -/
inductive Item where
  | action (action : ℕ)
  | jumpTable (table : JumpTable)
  | checkRange (range : CheckRange)
  | jump (target : ℕ)
  | terminate

namespace Item

def targets : Item → List ℕ
  | action _ => []
  | jumpTable table => table.destinations
  | checkRange range => [range.destination]
  | jump target => [target]
  | terminate => []

/-- The bytes before the distances. -/
def head (jumpSize : DFABytecodeJumpSize) : Item → List ℕ
  | action a => actionBytes a
  | jumpTable table =>
    [(DFABytecodeInstruction.jumpTable table.caseSensitive).toByte ||| jumpSize.toByte,
      table.min, table.max]
  | checkRange range =>
    if range.min = range.max then
      [(checkValue range.caseSensitive).toByte ||| jumpSize.toByte, range.min]
    else [(checkValueRange range.caseSensitive).toByte ||| jumpSize.toByte, range.min, range.max]
  | jump _ => [DFABytecodeInstruction.jump.toByte ||| jumpSize.toByte]
  | terminate => [DFABytecodeInstruction.terminate.toByte]

def piece (item : Item) (jumpSize : DFABytecodeJumpSize) : Piece DFABytecodeJumpSize :=
  ⟨item.head jumpSize, jumpSize, item.targets⟩

/-- The size of the item with distances of four bytes. -/
def maxBytecodeSize : Item → ℕ
  | action a => appendActionBytecodeSize a
  | jumpTable table => checkForJumpTableMaxBytecodeSize table
  | checkRange range => checkForRangeMaxBytecodeSize range
  | jump _ => 1 + 4
  | terminate => 1

end Item

def actionItems (node : DFANode) : List Item := node.actions.map Item.action

def transitionItems (node : DFANode) : List Item :=
  (transitions node).jumpTables.map Item.jumpTable ++
    (transitions node).ranges.map Item.checkRange ++
    [match (transitions node).fallbackTransitionTarget with
      | some target => Item.jump target
      | none => Item.terminate]

/-- The pieces of code for the items from a location on, when the sizes are chosen by `size`. -/
def pieces (size : ℕ → Item → DFABytecodeJumpSize) :
    ℕ → List Item → List (Piece DFABytecodeJumpSize)
  | _, [] => []
  | location, item :: items =>
    let p := item.piece (size location item)
    p :: pieces size (location + p.length jumpSizeInBytes) items

/-- The size that the compiler chooses. -/
def chosenSize (maxOffsets : ℕ → ℕ) (starts : ℕ → Option ℕ) (source location : ℕ) (item : Item) :
    DFABytecodeJumpSize :=
  item.targets.foldl (fun jumpSize target => jumpSize.max
    (smallestPossibleJumpSize (longestPossibleJump maxOffsets starts location source target))) int8

def LinkRecord.toReference (record : LinkRecord) : Reference DFABytecodeJumpSize :=
  ⟨record.jumpSize, record.instructionLocation, record.jumpLocation, record.destinationNodeIndex⟩

/-- `st'` is `st` with the code appended. -/
structure Appends (st st' : State) (code : List (Piece DFABytecodeJumpSize)) : Prop where
  bytecode : st'.bytecode = st.bytecode ++ blank jumpSizeInBytes code
  linkRecords : st'.linkRecords.map LinkRecord.toReference =
    st.linkRecords.map LinkRecord.toReference ++ references jumpSizeInBytes st.bytecode.length code
  nodeStartOffsets : st'.nodeStartOffsets = st.nodeStartOffsets

namespace Appends

variable {st st' st'' : State} {code code' : List (Piece DFABytecodeJumpSize)}

lemma nil (st : State) : Appends st st [] := ⟨by simp [blank], by simp [references], rfl⟩

lemma length (h : Appends st st' code) :
    st'.bytecode.length = st.bytecode.length + Linking.length jumpSizeInBytes code := by
  simp [h.bytecode]

lemma trans (h : Appends st st' code) (h' : Appends st' st'' code') :
    Appends st st'' (code ++ code') := by
  refine ⟨?_, ?_, h'.nodeStartOffsets.trans h.nodeStartOffsets⟩
  · simp [h'.bytecode, h.bytecode]
  · rw [h'.linkRecords, h.linkRecords, references_append, h.length, append_assoc]

end Appends

variable {maxOffsets : ℕ → ℕ} {st st' : State} {source : ℕ} (jumpSize : DFABytecodeJumpSize)
  (node : DFANode) (location : ℕ)

/-- The distances are appended one after the other. -/
lemma foldl_appendDistance (targets : List ℕ) (st : State) :
    let st' := targets.foldl (fun st target =>
      st.appendDistance ⟨jumpSize, location, st.bytecode.length, target⟩) st
    st'.bytecode = st.bytecode ++ List.replicate (jumpSizeInBytes jumpSize * targets.length) 0 ∧
    st'.linkRecords.map LinkRecord.toReference = st.linkRecords.map LinkRecord.toReference ++
      referencesFrom jumpSizeInBytes jumpSize location st.bytecode.length targets ∧
    st'.nodeStartOffsets = st.nodeStartOffsets := by
  induction targets generalizing st with
  | nil => simp [referencesFrom]
  | cons target targets ih =>
    obtain ⟨hcode, hrecs, hsts⟩ :=
      ih (st.appendDistance ⟨jumpSize, location, st.bytecode.length, target⟩)
    refine ⟨?_, ?_, hsts⟩
    · rw [foldl_cons, hcode, List.length_cons, Nat.mul_succ, Nat.add_comm]
      simp [State.appendDistance]
    · rw [foldl_cons, hrecs, referencesFrom]
      simp [State.appendDistance, LinkRecord.toReference]

lemma appends_of_piece (head targets : List ℕ) (jumpSize : DFABytecodeJumpSize) (st : State) :
    Appends st (targets.foldl (fun st' target =>
      st'.appendDistance ⟨jumpSize, st.bytecode.length, st'.bytecode.length, target⟩)
      (st.append head)) [⟨head, jumpSize, targets⟩] := by
  obtain ⟨hcode, hrecs, hsts⟩ :=
    foldl_appendDistance jumpSize st.bytecode.length targets (st.append head)
  refine ⟨?_, ?_, hsts⟩
  · rw [hcode]
    simp [State.append, blank, Piece.blank]
  · rw [hrecs]
    simp [State.append, references]

lemma int8_max : int8.max jumpSize = jumpSize := by
  cases jumpSize <;> rfl

lemma chosenSize_eq_jumpSizeTo {item : Item} (target : ℕ) (h : item.targets = [target]) :
    chosenSize maxOffsets st.nodeStartOffsets.get source st.bytecode.length item =
      st.jumpSizeTo maxOffsets source target := by
  rw [chosenSize, h, foldl_cons, foldl_nil, int8_max, State.jumpSizeTo]

/-- The state with an item emitted. -/
def State.emit (maxOffsets : ℕ → ℕ) (source : ℕ) (st : State) : Item → State
  | .action a => emitAppendAction st a
  | .jumpTable table => compileJumpTable maxOffsets st source table
  | .checkRange range => compileCheckForRange maxOffsets st source range
  | .jump target => emitJump maxOffsets st source target
  | .terminate => emitTerminate st

lemma appends_emit (maxOffsets : ℕ → ℕ) (source : ℕ) (st : State) (item : Item) :
    Appends st (st.emit maxOffsets source item) [item.piece
      (chosenSize maxOffsets st.nodeStartOffsets.get source st.bytecode.length item)] := by
  cases item with
  | action a => exact appends_of_piece (actionBytes a) [] _ st
  | terminate => exact appends_of_piece [terminate.toByte] [] _ st
  | jumpTable table => exact appends_of_piece _ table.destinations _ st
  | jump target =>
    rw [Item.piece, chosenSize_eq_jumpSizeTo target rfl]
    have h := appends_of_piece (Item.head (st.jumpSizeTo maxOffsets source target)
      (Item.jump target)) [target] (st.jumpSizeTo maxOffsets source target) st
    simpa [State.emit, emitJump, Item.head, State.append, Item.targets] using h
  | checkRange range =>
    rw [Item.piece, chosenSize_eq_jumpSizeTo range.destination rfl]
    have h := appends_of_piece (Item.head (st.jumpSizeTo maxOffsets source range.destination)
      (Item.checkRange range)) [range.destination]
      (st.jumpSizeTo maxOffsets source range.destination) st
    by_cases hsing : range.min = range.max
    · simpa [State.emit, compileCheckForRange, hsing, emitCheckValue, Item.head, State.append,
        Item.targets] using h
    · simpa [State.emit, compileCheckForRange, hsing, emitCheckValueRange, Item.head,
        State.append, Item.targets] using h

lemma appends_foldl_emit (maxOffsets : ℕ → ℕ) (source : ℕ) (items : List Item) (st : State) :
    Appends st (items.foldl (State.emit maxOffsets source) st)
      (pieces (chosenSize maxOffsets st.nodeStartOffsets.get source) st.bytecode.length items) := by
  induction items generalizing st with
  | nil => exact .nil st
  | cons item items ih =>
    have hitem := appends_emit maxOffsets source st item
    have hitems := ih (st.emit maxOffsets source item)
    rw [hitem.nodeStartOffsets, hitem.length] at hitems
    simpa [pieces] using hitem.trans hitems

lemma compileNodeTransitions_eq (st : State) (node : DFANode) :
    compileNodeTransitions maxOffsets st node source =
      (transitionItems node).foldl (State.emit maxOffsets source) st := by
  rw [compileNodeTransitions, transitionItems]
  simp only [foldl_append, foldl_map]
  cases (transitions node).fallbackTransitionTarget with
  | none => rfl
  | some target => rfl

lemma foldl_emitAppendAction_eq (node : DFANode) :
    node.actions.foldl emitAppendAction st =
      (actionItems node).foldl (State.emit maxOffsets source) st := by
  rw [actionItems, foldl_map]
  rfl

/-! ### The size of the code -/

variable {size : ℕ → Item → DFABytecodeJumpSize}

lemma pieces_append (items items' : List Item) :
    pieces size location (items ++ items') = pieces size location items ++
      pieces size (location + length jumpSizeInBytes (pieces size location items)) items' := by
  induction items generalizing location with
  | nil => rfl
  | cons item items ih => simp [pieces, ih, Nat.add_assoc]

lemma pieces_add (base : ℕ) (items : List Item) :
    pieces (fun l => size (l - base)) (base + location) items = pieces size location items := by
  induction items generalizing location with
  | nil => rfl
  | cons item items ih => simp [pieces, Nat.add_assoc, ih]

/-- A jump table has a destination for each character. -/
def Item.WF : Item → Prop
  | jumpTable table =>
    table.min ≤ table.max ∧ table.destinations.length = table.max + 1 - table.min
  | _ => True

lemma jumpSizeInBytes_le : jumpSizeInBytes jumpSize ≤ 4 := by
  cases jumpSize <;> decide

lemma length_actionBytes (a : ℕ) : (actionBytes a).length = appendActionBytecodeSize a := by
  unfold actionBytes appendActionBytecodeSize
  split_ifs <;> simp

lemma Item.length_piece_le {item : Item} (h : item.WF) (jumpSize : DFABytecodeJumpSize) :
    (item.piece jumpSize).length jumpSizeInBytes ≤ item.maxBytecodeSize := by
  have hsize := jumpSizeInBytes_le jumpSize
  rw [Piece.length]
  cases item with
  | action a => simp [piece, head, targets, maxBytecodeSize, length_actionBytes]
  | jumpTable table =>
    obtain ⟨hle, hlen⟩ := h
    have hmul : jumpSizeInBytes jumpSize * table.destinations.length ≤
        4 * (table.max - table.min + 1) := Nat.mul_le_mul hsize (by omega)
    simp only [piece, head, targets, maxBytecodeSize, checkForJumpTableMaxBytecodeSize,
      List.length_cons, List.length_nil]
    omega
  | checkRange range =>
    simp only [piece, head, targets, maxBytecodeSize, checkForRangeMaxBytecodeSize]
    split_ifs <;> simp only [List.length_cons, List.length_nil] <;> omega
  | jump target =>
    simp only [piece, head, targets, maxBytecodeSize, List.length_cons, List.length_nil]
    omega
  | terminate => simp [piece, head, targets, maxBytecodeSize]

variable {items : List Item}

lemma length_pieces_le (size : ℕ → Item → DFABytecodeJumpSize)
    (h : ∀ item ∈ items, item.WF) (location : ℕ) :
    length jumpSizeInBytes (pieces size location items) ≤ (items.map Item.maxBytecodeSize).sum := by
  induction items generalizing location with
  | nil => exact le_rfl
  | cons item items ih =>
    have hitem := Item.length_piece_le (h item mem_cons_self) (size location item)
    have hitems := ih (fun i hi => h i (mem_cons_of_mem _ hi))
      (location + (item.piece (size location item)).length jumpSizeInBytes)
    rw [pieces, length_cons, map_cons, sum_cons]
    omega

lemma length_actionItems : length jumpSizeInBytes (pieces size location (actionItems node)) =
      (node.actions.map appendActionBytecodeSize).sum := by
  unfold actionItems
  induction node.actions generalizing location with
  | nil => rfl
  | cons a actions ih =>
    rw [map_cons, pieces, length_cons, ih]
    simp [Item.piece, Item.head, Item.targets, Piece.length, length_actionBytes]

lemma sum_transitionItems : ((transitionItems node).map Item.maxBytecodeSize).sum =
      nodeTransitionsMaxBytecodeSize node := by
  rw [transitionItems, nodeTransitionsMaxBytecodeSize]
  simp only [map_append, sum_append, map_map]
  cases (transitions node).fallbackTransitionTarget <;> rfl

lemma transitionItems_ne_nil : transitionItems node ≠ [] := by
  simp [transitionItems]

lemma Item.length_piece_pos (item : Item) (jumpSize : DFABytecodeJumpSize) :
    0 < (item.piece jumpSize).length jumpSizeInBytes := by
  apply Nat.add_pos_left
  cases item with
  | action a =>
    simp only [piece, head, length_actionBytes, appendActionBytecodeSize]
    split_ifs <;> decide
  | checkRange range =>
    simp only [piece, head]
    split_ifs <;> simp
  | jumpTable table | jump target | terminate => simp [piece, head]

lemma length_pieces_pos (size : ℕ → Item → DFABytecodeJumpSize) (h : items ≠ [])
    (location : ℕ) : 0 < length jumpSizeInBytes (pieces size location items) := by
  obtain ⟨item, items, rfl⟩ := exists_cons_of_ne_nil h
  exact Nat.add_pos_left (item.length_piece_pos _) _

end DFABytecodeCompiler

end WebKit.ContentExtensions
