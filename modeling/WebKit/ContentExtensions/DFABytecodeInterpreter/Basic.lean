import WebKit.ContentExtensions.DFABytecodeCompiler.Layout

/-!
# Interpreting the bytecode of an automaton

The interpreter follows the URL through the code and collects actions. The loops run with fuel;
`none` stands for an assertion that fails or for fuel that is used up.
-/

namespace WebKit.ContentExtensions

open Bytes Linking WTF DFABytecodeCompiler Nat
open Option hiding join

namespace DFABytecodeInterpreter

abbrev Actions := HashSet ℕ

def matchesCondition (actionAndFlags : ℕ) (conditionActions : Actions) : Bool :=
  let ifCondition := decide (actionAndFlags &&& ifConditionFlag ≠ 0)
  let condition := conditionActions.contains actionAndFlags
  ifCondition == condition

/-- `topURLActions` is `none` unless the actions have conditions. -/
def acceptsAction (topURLActions : Option Actions) (action : ℕ) : Bool :=
  match topURLActions with
  | none => true
  | some conditionActions => matchesCondition action conditionActions

/-- The test of the flags of an action. -/
def flagsMatch (flagsToCheck flags : ℕ) : Bool :=
  let loadTypeFlags := flagsToCheck &&& loadTypeMask
  let resourceTypeFlags := flagsToCheck &&& resourceTypeMask
  let loadTypeMatches := if loadTypeFlags ≠ 0 then loadTypeFlags &&& flags ≠ 0 else true
  let resourceTypeMatches := if resourceTypeFlags ≠ 0 then resourceTypeFlags &&& flags ≠ 0 else true
  loadTypeMatches && resourceTypeMatches

section

variable (bytecode : List ℕ) (topURLActions : Option Actions) (flags : ℕ)

def interpretAppendAction (programCounter : ℕ) (actions : Actions) (ifCondition : Bool) :
    ℕ × Actions :=
  let action := (if ifCondition then ifConditionFlag else 0) |||
    readNat 4 bytecode (programCounter + 1)
  (programCounter + instructionSizeWithArguments (.appendAction ifCondition),
    if acceptsAction topURLActions action then actions.add action else actions)

def interpretTestFlagsAndAppendAction (programCounter : ℕ) (actions : Actions)
    (ifCondition : Bool) : ℕ × Actions :=
  let flagsToCheck := readNat 2 bytecode (programCounter + 1)
  let actionAndFlags := (if ifCondition then ifConditionFlag else 0) ||| (flagsToCheck <<< 32) |||
    readNat 4 bytecode (programCounter + 1 + 2)
  (programCounter + instructionSizeWithArguments (.testFlagsAndAppendAction ifCondition),
    if flagsMatch flagsToCheck flags && acceptsAction topURLActions actionAndFlags then
      actions.add actionAndFlags
    else actions)

/-- The loop of `actionsMatchingEverything`; the program counter grows, so the length of the
bytecode is enough fuel. -/
def collectRootActions : ℕ → ℕ → Actions → Actions
  | 0, _, actions => actions
  | fuel + 1, programCounter, actions =>
    if programCounter < readNat 4 bytecode 0 then
      match getInstruction bytecode programCounter with
      | some (.appendAction ifCondition) =>
        let (programCounter, actions) :=
          interpretAppendAction bytecode topURLActions programCounter actions ifCondition
        collectRootActions fuel programCounter actions
      | some (.testFlagsAndAppendAction ifCondition) =>
        collectRootActions fuel (programCounter +
          instructionSizeWithArguments (.testFlagsAndAppendAction ifCondition)) actions
      | _ => actions
    else actions

def actionsMatchingEverything : Actions :=
  collectRootActions bytecode topURLActions bytecode.length dfaHeaderSize HashSet.empty

/-- The loop that skips the actions without flags of the first root. -/
def skipRootActions (dfaBytecodeLength : ℕ) : ℕ → ℕ → Actions → ℕ × Actions
  | 0, programCounter, actions => (programCounter, actions)
  | fuel + 1, programCounter, actions =>
    if programCounter < dfaBytecodeLength then
      match getInstruction bytecode programCounter with
      | some (.appendAction ifCondition) =>
        skipRootActions dfaBytecodeLength fuel
          (programCounter + instructionSizeWithArguments (.appendAction ifCondition)) actions
      | some (.testFlagsAndAppendAction ifCondition) =>
        let (programCounter, actions) := interpretTestFlagsAndAppendAction bytecode topURLActions
          flags programCounter actions ifCondition
        skipRootActions dfaBytecodeLength fuel programCounter actions
      | _ => (programCounter, actions)
    else (programCounter, actions)

/-- The variables of the loop over the instructions of one automaton. -/
structure Machine where
  programCounter : ℕ
  urlIndex : ℕ
  urlIndexIsAfterEndOfString : Bool
  actions : Actions

inductive Outcome where
  | next (machine : Machine)
  | nextDFA (actions : Actions)

namespace Machine

/-- An edge of the automaton is taken. The distance is added to an unsigned number of 32 bits. -/
def takeEdge (m : Machine) (character : ℕ) (distance : ℤ) : Machine :=
  { m with
    programCounter := (((m.programCounter : ℤ) + distance) % 2 ^ 32).toNat
    urlIndexIsAfterEndOfString := m.urlIndexIsAfterEndOfString || decide (character = 0)
    urlIndex := m.urlIndex + 1 }

def advance (m : Machine) (size : ℕ) : Machine :=
  { m with programCounter := m.programCounter + size }

end Machine

variable (url : List ℕ)

/-- `url[urlIndex]`; the string ends with a null character. -/
def characterAt (urlIndex : ℕ) : ℕ := url.getD urlIndex 0

/-- `CheckValueCaseSensitive` and `CheckValueCaseInsensitive`. -/
def interpretCheckValue (m : Machine) (caseSensitive : Bool) : Option Outcome :=
  if m.urlIndexIsAfterEndOfString then some (.nextDFA m.actions)
  else do
    let character := comparedCharacter caseSensitive (characterAt url m.urlIndex)
    let jumpSize ← getJumpSize bytecode m.programCounter
    if character = readNat 1 bytecode (m.programCounter + 1) then
      let jumpLocation := m.programCounter + 1 + 1
      some (.next (m.takeEdge character (getJumpDistance bytecode jumpLocation jumpSize)))
    else some (.next (m.advance (1 + 1 + jumpSizeInBytes jumpSize)))

/-- `CheckValueRangeCaseSensitive` and `CheckValueRangeCaseInsensitive`. -/
def interpretCheckValueRange (m : Machine) (caseSensitive : Bool) : Option Outcome :=
  if m.urlIndexIsAfterEndOfString then some (.nextDFA m.actions)
  else do
    let character := comparedCharacter caseSensitive (characterAt url m.urlIndex)
    let jumpSize ← getJumpSize bytecode m.programCounter
    if character ≥ readNat 1 bytecode (m.programCounter + 1) ∧
        character ≤ readNat 1 bytecode (m.programCounter + 1 + 1) then
      let jumpLocation := m.programCounter + 1 + 2
      some (.next (m.takeEdge character (getJumpDistance bytecode jumpLocation jumpSize)))
    else some (.next (m.advance (1 + 2 + jumpSizeInBytes jumpSize)))

/-- `JumpTableCaseSensitive` and `JumpTableCaseInsensitive`. -/
def interpetJumpTable (m : Machine) (caseSensitive : Bool) : Option Outcome :=
  if m.urlIndexIsAfterEndOfString then some (.nextDFA m.actions)
  else do
    let jumpSize ← getJumpSize bytecode m.programCounter
    let character := comparedCharacter caseSensitive (characterAt url m.urlIndex)
    let firstCharacter := readNat 1 bytecode (m.programCounter + 1)
    let lastCharacter := readNat 1 bytecode (m.programCounter + 1 + 1)
    if character ≥ firstCharacter ∧ character ≤ lastCharacter then
      let startOffset := m.programCounter + 1 + 2
      let jumpLocation := startOffset + (character - firstCharacter) * jumpSizeInBytes jumpSize
      some (.next (m.takeEdge character (getJumpDistance bytecode jumpLocation jumpSize)))
    else some (.next (m.advance
      (1 + 2 + jumpSizeInBytes jumpSize * (lastCharacter - firstCharacter + 1))))

def interpretJump (m : Machine) : Option Outcome :=
  let character := characterAt url m.urlIndex
  if character = 0 ∨ m.urlIndexIsAfterEndOfString then some (.nextDFA m.actions)
  else do
    let jumpLocation := m.programCounter + 1
    let jumpSize ← getJumpSize bytecode m.programCounter
    some (.next (m.takeEdge character (getJumpDistance bytecode jumpLocation jumpSize)))

def Machine.setActions (m : Machine) (result : ℕ × Actions) : Machine :=
  { m with programCounter := result.1, actions := result.2 }

/-- One instruction. -/
def interpretInstruction (m : Machine) : Option Outcome :=
  match getInstruction bytecode m.programCounter with
  | some .terminate => some (.nextDFA m.actions)
  | some (.checkValue caseSensitive) => interpretCheckValue bytecode url m caseSensitive
  | some (.jumpTable caseSensitive) => interpetJumpTable bytecode url m caseSensitive
  | some (.checkValueRange caseSensitive) => interpretCheckValueRange bytecode url m caseSensitive
  | some .jump => interpretJump bytecode url m
  | some (.appendAction ifCondition) =>
    some (.next (m.setActions (interpretAppendAction bytecode topURLActions m.programCounter
      m.actions ifCondition)))
  | some (.testFlagsAndAppendAction ifCondition) =>
    some (.next (m.setActions (interpretTestFlagsAndAppendAction bytecode topURLActions flags
      m.programCounter m.actions ifCondition)))
  | none => none

/-- The loop over the instructions of one automaton. -/
def interpretInstructions : ℕ → Machine → Option Actions
  | 0, _ => none
  | fuel + 1, m =>
    match interpretInstruction bytecode topURLActions flags url m with
    | none => none
    | some (.nextDFA actions) => some actions
    | some (.next m') => interpretInstructions fuel m'

/-- The loop over the automata, from `dfaStart` on. -/
def interpretDFAs (fuel : ℕ) : ℕ → ℕ → Actions → Option Actions
  | 0, _, _ => none
  | count + 1, dfaStart, actions =>
    if dfaStart < bytecode.length then
      let dfaBytecodeLength := readNat 4 bytecode dfaStart
      let programCounter := dfaStart + dfaHeaderSize
      let (programCounter, actions) :=
        if dfaStart = 0 then skipRootActions bytecode topURLActions flags dfaBytecodeLength
          bytecode.length programCounter actions
        else (programCounter, actions)
      if dfaStart = 0 ∧ programCounter ≥ bytecode.length then some actions
      else do
        let actions ← interpretInstructions bytecode topURLActions flags url fuel
          ⟨programCounter, 0, false, actions⟩
        interpretDFAs fuel count (dfaStart + dfaBytecodeLength) actions
    else some actions

/-- With fuel for the instructions of one automaton and for the automata. -/
def interpret (fuel : ℕ) : Option Actions :=
  interpretDFAs bytecode topURLActions flags url fuel fuel 0 HashSet.empty

end

/-! ### Actions and their flags -/

/-- The flags of an action. -/
def actionFlags (action : ℕ) : ℕ := action >>> 32 % 2 ^ 16

/-- The action is appended when its flags match: what the instructions for actions do. -/
def record (topURLActions : Option Actions) (flags : ℕ) (actions : Actions) (action : ℕ) :
    Actions :=
  if flagsMatch (actionFlags action) flags && acceptsAction topURLActions action then
    actions.add action
  else actions

variable {a : ℕ}

lemma mem_record {topURLActions : Option Actions} {flags : ℕ} {actions : Actions} {b : ℕ} :
    b ∈ record topURLActions flags actions a ↔ b ∈ actions ∨
      (b = a ∧ flagsMatch (actionFlags a) flags ∧ acceptsAction topURLActions a) := by
  unfold record
  split_ifs with h
  · rw [Bool.and_eq_true] at h
    simp [h]
  · rw [Bool.and_eq_true] at h
    simp [h]

lemma testBit_eq_false {i : ℕ} (ha : a < 2 ^ 49) (hi : 49 ≤ i) : a.testBit i = false :=
  testBit_eq_false_of_lt (lt_of_lt_of_le ha (Nat.pow_le_pow_right (by decide) hi))

lemma and_actionFlagMask (a : ℕ) : a &&& actionFlagMask = actionFlags a <<< 32 := by
  apply eq_of_testBit_eq
  intro i
  have hmask : actionFlagMask = (2 ^ 16 - 1) <<< 32 := by decide
  rw [hmask, actionFlags]
  simp only [testBit_and, testBit_shiftLeft, testBit_two_pow_sub_one, testBit_mod_two_pow]
  by_cases hi : 32 ≤ i
  · simp [hi, Bool.and_comm]
  · simp [hi]

lemma and_ifConditionFlag (a : ℕ) : decide (a &&& ifConditionFlag ≠ 0) = a.testBit 48 := by
  have hflag : ifConditionFlag = 2 ^ 48 := by decide
  rw [hflag, and_two_pow]
  cases a.testBit 48 <;> simp

/-- An action of 49 bits is put together from its parts. -/
lemma action_eq (ha : a < 2 ^ 49) :
    (if a.testBit 48 then ifConditionFlag else 0) ||| (actionFlags a <<< 32) ||| a % 2 ^ 32 =
      a := by
  apply eq_of_testBit_eq
  intro i
  have hflag : (if a.testBit 48 then ifConditionFlag else 0).testBit i =
      (a.testBit 48 && decide (48 = i)) := by
    have : ifConditionFlag = 2 ^ 48 := by decide
    split_ifs with h
    · rw [this, testBit_two_pow, h, Bool.true_and]
    · simp [h]
  rw [testBit_or, testBit_or, hflag, actionFlags, testBit_shiftLeft,
    testBit_mod_two_pow, testBit_mod_two_pow, testBit_shiftRight]
  rcases Nat.lt_or_ge i 32 with hi | hi
  · simp [hi, show 48 ≠ i by omega]
  · rw [Nat.add_sub_cancel' hi]
    by_cases h48 : i = 48
    · subst h48
      simp
    · rcases Nat.lt_or_ge i 48 with hlt | hge
      · simp [hi, show i - 32 < 16 by omega, show 48 ≠ i by omega]
      · have hzero : a.testBit i = false := testBit_eq_false ha (by omega)
        simp [hzero, show 48 ≠ i by omega]

/-! ### Single instructions -/

section

variable {bytecode : List ℕ} {topURLActions : Option Actions} {flags : ℕ} {url : List ℕ}
  {starts : ℕ → ℕ} {m : Machine} {code : List (Piece DFABytecodeJumpSize)} {rest : List ℕ}
  {bytes : List ℕ}

lemma readNat_one_of_drop {i b : ℕ} (h : bytes.drop i = b :: rest) : readNat 1 bytes i = b := by
  simp [readNat, h, join]

lemma drop_succ_of_drop {i b : ℕ} (h : bytes.drop i = b :: rest) : bytes.drop (i + 1) = rest := by
  simp [← List.drop_drop, h]

/-- What stands at the code of an action. -/
lemma actionBytes_of_drop (topURLActions : Option Actions) (flags : ℕ) (ha : a < 2 ^ 49)
    {pc : ℕ} (h : bytecode.drop pc = actionBytes a ++ rest) :
    (actionFlags a ≠ 0 ∧
      getInstruction bytecode pc = some (.testFlagsAndAppendAction (a.testBit 48)) ∧
      ∀ actions, interpretTestFlagsAndAppendAction bytecode topURLActions flags pc actions
        (a.testBit 48) = (pc + appendActionBytecodeSize a, record topURLActions flags actions a)) ∨
    (actionFlags a = 0 ∧
      getInstruction bytecode pc = some (.appendAction (a.testBit 48)) ∧
      ∀ actions, interpretAppendAction bytecode topURLActions pc actions (a.testBit 48) =
        (pc + appendActionBytecodeSize a, record topURLActions flags actions a)) := by
  have hflags : a &&& actionFlagMask ≠ 0 ↔ actionFlags a ≠ 0 := by
    rw [and_actionFlagMask]
    simp
  have heq := action_eq ha
  unfold actionBytes at h
  rw [and_ifConditionFlag] at h
  unfold appendActionBytecodeSize
  by_cases hne : actionFlags a = 0
  · right
    have hzero : ¬(a &&& actionFlagMask ≠ 0) := fun hmask => hflags.1 hmask hne
    rw [if_neg hzero] at h ⊢
    have hread := readNat_of_drop (drop_succ_of_drop h)
    rw [hne, zero_shiftLeft, or_zero] at heq
    refine ⟨hne, getInstruction_of_drop h, fun actions => ?_⟩
    rw [interpretAppendAction, hread]
    simp only [instructionSizeWithArguments, show 256 ^ 4 = 2 ^ 32 from rfl, heq]
    simp [record, hne, flagsMatch]
  · left
    rw [if_pos (hflags.2 hne)] at h ⊢
    have hrest : bytecode.drop (pc + 1) = split 2 (a >>> 32) ++ (split 4 a ++ rest) :=
      drop_succ_of_drop h
    have hlow : bytecode.drop (pc + 1 + 2) = split 4 a ++ rest := by
      simp [← List.drop_drop, hrest]
    have hread := readNat_of_drop hrest
    have hread' := readNat_of_drop hlow
    have hflagsRead : a >>> 32 % 256 ^ 2 = actionFlags a := rfl
    refine ⟨hne, getInstruction_of_drop h, fun actions => ?_⟩
    rw [interpretTestFlagsAndAppendAction, hread, hread', hflagsRead]
    simp only [show 256 ^ 4 = 2 ^ 32 from rfl, heq]
    rfl

variable {size : DFABytecodeJumpSize}

lemma interpretInstruction_action (topURLActions : Option Actions) (flags : ℕ) (url : List ℕ)
    (ha : a < 2 ^ 49) (h : CodeAt jumpSizeInBytes starts bytecode m.programCounter
      ((Item.action a).piece size :: code)) :
    interpretInstruction bytecode topURLActions flags url m =
      some (.next { m with
        programCounter := m.programCounter + appendActionBytecodeSize a
        actions := record topURLActions flags m.actions a }) := by
  obtain ⟨rest, hdrop⟩ := h.head
  rcases actionBytes_of_drop topURLActions flags ha hdrop with
    ⟨-, hins, hint⟩ | ⟨-, hins, hint⟩
  · rw [interpretInstruction, hins]
    simp only [hint, Machine.setActions]
  · rw [interpretInstruction, hins]
    simp only [hint, Machine.setActions]

lemma programCounter_takeEdge (m : Machine) (character : ℕ) {s : ℕ} (hs : s < 2 ^ 32) :
    (m.takeEdge character ((s : ℤ) - m.programCounter)) =
      ⟨s, m.urlIndex + 1, m.urlIndexIsAfterEndOfString || decide (character = 0), m.actions⟩ := by
  simp only [Machine.takeEdge]
  congr 1
  omega

lemma comparedCharacter_eq_zero (caseSensitive : Bool) (c : ℕ) :
    comparedCharacter caseSensitive c = 0 ↔ c = 0 := by
  cases caseSensitive with
  | true => rfl
  | false =>
    simp only [comparedCharacter, Bool.false_eq_true, if_false]
    rcases toASCIILower_cases c with ⟨hlow, -⟩ | ⟨hlow, hup⟩ <;> rw [hlow]
    omega

/-- The machine after the edge to the node `d` for the current character. -/
def Machine.enter (m : Machine) (starts : ℕ → ℕ) (url : List ℕ) (d : ℕ) : Machine :=
  ⟨starts d, m.urlIndex + 1, decide (characterAt url m.urlIndex = 0), m.actions⟩

variable {item : Item}

/-- The distance of a target leads to the node. -/
lemma takeEdge_of_codeAt (url : List ℕ) (caseSensitive : Bool) {k d : ℕ}
    (h : CodeAt jumpSizeInBytes starts bytecode m.programCounter (item.piece size :: code))
    (hd : item.targets[k]? = some d) (hst : starts d < 2 ^ 32)
    (haft : m.urlIndexIsAfterEndOfString = false) :
    m.takeEdge (comparedCharacter caseSensitive (characterAt url m.urlIndex))
      (getJumpDistance bytecode
        (m.programCounter + (item.head size).length + k * jumpSizeInBytes size) size) =
      m.enter starts url d := by
  obtain ⟨hfits, rest, hdrop⟩ := h.target hd
  rw [show getJumpDistance bytecode (m.programCounter + (item.head size).length +
    k * jumpSizeInBytes size) size = starts d - m.programCounter from
      getJumpDistance_of_drop hfits hdrop, programCounter_takeEdge _ _ hst, Machine.enter]
  simp only [haft, Bool.false_or, comparedCharacter_eq_zero]

lemma length_piece (item : Item) :
    (item.piece size).length jumpSizeInBytes =
      (item.head size).length + jumpSizeInBytes size * item.targets.length := rfl

/-- A check that the current character does not pass is skipped, and one that it passes leads to
its target. -/
lemma interpret_jumpTable {table : JumpTable} {f : ℕ → Option ℕ} (hsound : table.Sound f)
    (hst : ∀ d ∈ table.destinations, starts d < 2 ^ 32)
    (haft : m.urlIndexIsAfterEndOfString = false)
    (h : CodeAt jumpSizeInBytes starts bytecode m.programCounter
      ((Item.jumpTable table).piece size :: code)) :
    interpretInstruction bytecode topURLActions flags url m =
      match table.target? (characterAt url m.urlIndex) with
      | some d => some (.next (m.enter starts url d))
      | none => some (.next (m.advance
          (((Item.jumpTable table).piece size).length jumpSizeInBytes))) := by
  obtain ⟨rest, hdrop⟩ := h.head
  obtain ⟨hins, hsize⟩ := getInstruction_of_drop_or hdrop
  have hmin := readNat_one_of_drop (drop_succ_of_drop hdrop)
  have hmax := readNat_one_of_drop (drop_succ_of_drop (drop_succ_of_drop hdrop))
  have hlen := hsound.length_destinations
  have hle := hsound.min_le_max
  rw [interpretInstruction, hins]
  simp only [interpetJumpTable, haft, hsize, hmin, hmax, bind_eq_bind, bind_some, JumpTable.target?]
  by_cases hmat : table.min ≤ comparedCharacter table.caseSensitive (characterAt url m.urlIndex) ∧
      comparedCharacter table.caseSensitive (characterAt url m.urlIndex) ≤ table.max
  · rw [if_pos hmat, if_pos hmat]
    obtain ⟨d, hd⟩ : ∃ d, table.destinations[comparedCharacter table.caseSensitive
        (characterAt url m.urlIndex) - table.min]? = some d :=
      ⟨_, List.getElem?_eq_getElem (by omega)⟩
    have hedge := takeEdge_of_codeAt url table.caseSensitive h hd
      (hst d (List.mem_of_getElem? hd)) haft
    rw [hd]
    dsimp only
    rw [← hedge]
    rfl
  · rw [if_neg hmat, if_neg hmat]
    have : table.max - table.min + 1 = table.destinations.length := by omega
    rw [this]
    rfl

lemma interpret_checkRange {range : CheckRange}
    (hst : starts range.destination < 2 ^ 32)
    (haft : m.urlIndexIsAfterEndOfString = false)
    (h : CodeAt jumpSizeInBytes starts bytecode m.programCounter
      ((Item.checkRange range).piece size :: code)) :
    interpretInstruction bytecode topURLActions flags url m =
      match range.target? (characterAt url m.urlIndex) with
      | some d => some (.next (m.enter starts url d))
      | none => some (.next (m.advance
          (((Item.checkRange range).piece size).length jumpSizeInBytes))) := by
  have hedge := takeEdge_of_codeAt (k := 0) url range.caseSensitive h rfl hst haft
  obtain ⟨rest, hdrop⟩ := h.head
  rw [Nat.zero_mul] at hedge
  rw [length_piece]
  rw [Item.piece] at hdrop
  unfold Item.head at hdrop hedge ⊢
  unfold CheckRange.target?
  dsimp only at hdrop hedge ⊢
  -- a range of one character has an instruction of its own
  by_cases hsing : range.min = range.max
  · rw [if_pos hsing] at hdrop hedge ⊢
    obtain ⟨hins, hsize⟩ := getInstruction_of_drop_or hdrop
    have hmin := readNat_one_of_drop (drop_succ_of_drop hdrop)
    rw [interpretInstruction, hins]
    simp only [interpretCheckValue, haft, Bool.false_eq_true, if_false, hsize, hmin,
      bind_eq_bind, bind_some]
    by_cases hmat : comparedCharacter range.caseSensitive (characterAt url m.urlIndex) = range.min
    · rw [if_pos hmat, if_pos (by omega)]
      exact congrArg (fun m' => some (Outcome.next m')) hedge
    · rw [if_neg hmat, if_neg (by omega)]
      simp [Item.targets]
  · rw [if_neg hsing] at hdrop hedge ⊢
    obtain ⟨hins, hsize⟩ := getInstruction_of_drop_or hdrop
    have hmin := readNat_one_of_drop (drop_succ_of_drop hdrop)
    have hmax := readNat_one_of_drop (drop_succ_of_drop (drop_succ_of_drop hdrop))
    rw [interpretInstruction, hins]
    simp only [interpretCheckValueRange, haft, hsize, hmin, hmax, bind_eq_bind, bind_some]
    by_cases hmat : range.min ≤ comparedCharacter range.caseSensitive (characterAt url m.urlIndex) ∧
        comparedCharacter range.caseSensitive (characterAt url m.urlIndex) ≤ range.max
    · rw [if_pos hmat, if_pos hmat]
      exact congrArg (fun m' => some (Outcome.next m')) hedge
    · rw [if_neg hmat, if_neg hmat]
      simp [Item.targets]

lemma interpretInstruction_jump (topURLActions : Option Actions) (flags : ℕ) (url : List ℕ)
    {d : ℕ} (hst : starts d < 2 ^ 32) (haft : m.urlIndexIsAfterEndOfString = false)
    (h : CodeAt jumpSizeInBytes starts bytecode m.programCounter
      ((Item.jump d).piece size :: code)) :
    interpretInstruction bytecode topURLActions flags url m =
      if characterAt url m.urlIndex = 0 then some (.nextDFA m.actions)
      else some (.next (m.enter starts url d)) := by
  have hedge := takeEdge_of_codeAt (k := 0) url true h rfl hst haft
  obtain ⟨rest, hdrop⟩ := h.head
  obtain ⟨hins, hsize⟩ := getInstruction_of_drop_or hdrop
  rw [interpretInstruction, hins]
  simp only [interpretJump, haft, Bool.false_eq_true, or_false, hsize]
  rw [Nat.zero_mul] at hedge
  by_cases hc : characterAt url m.urlIndex = 0
  · rw [if_pos hc, if_pos hc]
  · rw [if_neg hc, if_neg hc]
    exact congrArg (fun m' => some (Outcome.next m')) hedge

lemma interpret_terminate (h : CodeAt jumpSizeInBytes starts bytecode m.programCounter
      (Item.terminate.piece size :: code)) :
    interpretInstruction bytecode topURLActions flags url m = some (.nextDFA m.actions) := by
  obtain ⟨rest, hdrop⟩ := h.head
  have hins : getInstruction bytecode m.programCounter = some .terminate :=
    getInstruction_of_drop hdrop
  rw [interpretInstruction, hins]

/-- The instruction of an item that is no action. -/
lemma getInstruction_of_codeAt {pc : ℕ} (hitem : ∀ a, item ≠ .action a)
    (h : CodeAt jumpSizeInBytes starts bytecode pc (item.piece size :: code)) :
    ∃ instruction, getInstruction bytecode pc = some instruction ∧
      ∀ ifCondition, instruction ≠ .appendAction ifCondition ∧
        instruction ≠ .testFlagsAndAppendAction ifCondition := by
  obtain ⟨rest, hdrop⟩ := h.head
  cases item with
  | action a => exact absurd rfl (hitem a)
  | terminate => exact ⟨.terminate, getInstruction_of_drop hdrop, by simp⟩
  | jumpTable table | jump d => exact ⟨_, (getInstruction_of_drop_or hdrop).1, by simp⟩
  | checkRange range =>
    rw [Item.piece] at hdrop
    unfold Item.head at hdrop
    dsimp only at hdrop
    split_ifs at hdrop
    · exact ⟨_, (getInstruction_of_drop_or hdrop).1, by simp⟩
    · exact ⟨_, (getInstruction_of_drop_or hdrop).1, by simp⟩

/-- After the end of the string, the first instruction that is no action ends the run. -/
lemma interpret_afterEnd
    (hitem : ∀ a, item ≠ .action a) (haft : m.urlIndexIsAfterEndOfString = true)
    (h : CodeAt jumpSizeInBytes starts bytecode m.programCounter (item.piece size :: code)) :
    interpretInstruction bytecode topURLActions flags url m = some (.nextDFA m.actions) := by
  obtain ⟨instruction, hins, hne⟩ := getInstruction_of_codeAt hitem h
  rw [interpretInstruction, hins]
  cases instruction with
  | appendAction ifCondition => exact absurd rfl (hne ifCondition).1
  | testFlagsAndAppendAction ifCondition => exact absurd rfl (hne ifCondition).2
  | _ =>
    simp [interpretCheckValue, interpretCheckValueRange, interpetJumpTable, interpretJump, haft]

end

end DFABytecodeInterpreter

end WebKit.ContentExtensions
