import WebKit.Core.Linking

/-!
# The bytecode of an automaton

An instruction is one byte, with the size of its jump distances in the upper half, and is followed
by its arguments. The machine is little endian.
-/

namespace WebKit.ContentExtensions

open Bytes

/-- The flag of an instruction is the difference between two enumerators. -/
inductive DFABytecodeInstruction where
  | checkValue (caseSensitive : Bool)
  | jumpTable (caseSensitive : Bool)
  | checkValueRange (caseSensitive : Bool)
  | appendAction (ifCondition : Bool)
  | testFlagsAndAppendAction (ifCondition : Bool)
  | terminate
  | jump
  deriving DecidableEq

namespace DFABytecodeInstruction

/-- The value of the enumerator. -/
def toByte : DFABytecodeInstruction → ℕ
  | checkValue false => 0x0
  | checkValue true => 0x1
  | jumpTable false => 0x2
  | jumpTable true => 0x3
  | checkValueRange false => 0x4
  | checkValueRange true => 0x5
  | appendAction false => 0x6
  | appendAction true => 0x7
  | testFlagsAndAppendAction false => 0x8
  | testFlagsAndAppendAction true => 0x9
  | terminate => 0xA
  | jump => 0xB

def ofByte? : ℕ → Option DFABytecodeInstruction
  | 0x0 => some (checkValue false)
  | 0x1 => some (checkValue true)
  | 0x2 => some (jumpTable false)
  | 0x3 => some (jumpTable true)
  | 0x4 => some (checkValueRange false)
  | 0x5 => some (checkValueRange true)
  | 0x6 => some (appendAction false)
  | 0x7 => some (appendAction true)
  | 0x8 => some (testFlagsAndAppendAction false)
  | 0x9 => some (testFlagsAndAppendAction true)
  | 0xA => some terminate
  | 0xB => some jump
  | _ => none

end DFABytecodeInstruction

def dfaBytecodeInstructionMask : ℕ := 0x0F

def dfaBytecodeJumpSizeMask : ℕ := 0xF0

/-- The size of a `DFAHeader`. -/
def dfaHeaderSize : ℕ := 4

inductive DFABytecodeJumpSize where
  | int8
  | int16
  | int24
  | int32
  deriving DecidableEq

namespace DFABytecodeJumpSize

/-- The value of the enumerator. -/
def toByte : DFABytecodeJumpSize → ℕ
  | int8 => 0x10
  | int16 => 0x20
  | int24 => 0x30
  | int32 => 0x40

def ofByte? : ℕ → Option DFABytecodeJumpSize
  | 0x10 => some int8
  | 0x20 => some int16
  | 0x30 => some int24
  | 0x40 => some int32
  | _ => none

/-- `std::max`. -/
def max (a b : DFABytecodeJumpSize) : DFABytecodeJumpSize := if a.toByte < b.toByte then b else a

end DFABytecodeJumpSize

open DFABytecodeJumpSize

def jumpSizeInBytes : DFABytecodeJumpSize → ℕ
  | int8 => 1
  | int16 => 2
  | int24 => 3
  | int32 => 4

def smallestPossibleJumpSize (longestPossibleJump : ℤ) : DFABytecodeJumpSize :=
  if longestPossibleJump ≤ 127 ∧ longestPossibleJump ≥ -128 then int8
  else if longestPossibleJump ≤ 32767 ∧ longestPossibleJump ≥ -32768 then int16
  else if longestPossibleJump ≤ 2 ^ 23 - 1 ∧ longestPossibleJump ≥ -2 ^ 23 then int24
  else int32

/-- The size of the instructions without jump distances. -/
def instructionSizeWithArguments : DFABytecodeInstruction → ℕ
  | .appendAction _ => 5
  | .testFlagsAndAppendAction _ => 7
  | _ => 1

/-! ### Reading -/

/-- `none` for a byte that is no instruction. -/
def getInstruction (bytecode : List ℕ) (index : ℕ) : Option DFABytecodeInstruction :=
  DFABytecodeInstruction.ofByte? (readNat 1 bytecode index &&& dfaBytecodeInstructionMask)

/-- `none` for a byte without jump size. -/
def getJumpSize (bytecode : List ℕ) (index : ℕ) : Option DFABytecodeJumpSize :=
  DFABytecodeJumpSize.ofByte? (readNat 1 bytecode index &&& dfaBytecodeJumpSizeMask)

def getJumpDistance (bytecode : List ℕ) (index : ℕ) : DFABytecodeJumpSize → ℤ
  | int8 => readInt 1 bytecode index
  | int16 => readInt 2 bytecode index
  | int24 => readNat 2 bytecode index + readInt 1 bytecode (index + 2) * 2 ^ 16
  | int32 => readInt 4 bytecode index

variable {bytecode rest : List ℕ} {index : ℕ} {instruction : DFABytecodeInstruction}

lemma getInstruction_of_drop (h : bytecode.drop index = instruction.toByte :: rest) :
    getInstruction bytecode index = some instruction := by
  have hread : readNat 1 bytecode index = instruction.toByte := by simp [readNat, h, join]
  rw [getInstruction, hread]
  rcases instruction with (_ | _) | (_ | _) | (_ | _) | (_ | _) | (_ | _) | _ | _ <;> rfl

variable {jumpSize : DFABytecodeJumpSize}

lemma getInstruction_of_drop_or
    (h : bytecode.drop index = (instruction.toByte ||| jumpSize.toByte) :: rest) :
    getInstruction bytecode index = some instruction ∧
      getJumpSize bytecode index = some jumpSize := by
  have hread : readNat 1 bytecode index = instruction.toByte ||| jumpSize.toByte := by
    simp [readNat, h, join]
  rw [getInstruction, getJumpSize, hread]
  rcases instruction with (_ | _) | (_ | _) | (_ | _) | (_ | _) | (_ | _) | _ | _ <;>
    cases jumpSize <;> exact ⟨rfl, rfl⟩

/-- The `Int24` distance is put together from two numbers. -/
lemma splitInt_three (z : ℤ) : splitInt 3 z = splitInt 2 z ++ splitInt 1 (z / 2 ^ 16) := by
  simp only [splitInt, split]
  simp
  omega

lemma getJumpDistance_of_drop {z : ℤ} (hz : Fits (jumpSizeInBytes jumpSize) z)
    (h : bytecode.drop index = splitInt (jumpSizeInBytes jumpSize) z ++ rest) :
    getJumpDistance bytecode index jumpSize = z := by
  cases jumpSize with
  | int8 | int16 | int32 => exact readInt_of_drop hz h
  | int24 =>
    simp only [jumpSizeInBytes] at hz h
    rw [splitInt_three, List.append_assoc] at h
    have hlow := readNat_of_drop h
    have hhigh : bytecode.drop (index + 2) = splitInt 1 (z / 2 ^ 16) ++ rest := by
      simp [← List.drop_drop, h]
    have hfits : Fits 1 (z / 2 ^ 16) := by
      simp only [Fits] at hz ⊢
      omega
    rw [getJumpDistance, readInt_of_drop hfits hhigh]
    omega

/-! ### Sizes of distances -/

lemma fits_smallestSize {z : ℤ} (hlo : -2 ^ 31 ≤ z) (hhi : z < 2 ^ 31) :
    Fits (jumpSizeInBytes (smallestPossibleJumpSize z)) z := by
  unfold smallestPossibleJumpSize
  split_ifs <;> simp only [jumpSizeInBytes, Fits] <;> omega

end WebKit.ContentExtensions
