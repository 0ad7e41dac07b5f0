import WebKit.IndexedDB.IDBSerialization

/-!
# Comparing and hashing keys

Keys are compared, tested for equality and hashed by three functions. The hash of a number is taken
over the bytes of the double.
-/

namespace WebKit.IndexedDB

open Codec

/-! ### Hashing -/

namespace StringHasher

def stringHashingStartValue : UInt32 := 0x9E3779B9

def addCharactersAssumingAligned (hash : UInt32) (a b : UInt16) : UInt32 :=
  let hash := hash + a.toUInt32
  let hash := (hash <<< 16) ^^^ ((b.toUInt32 <<< 11) ^^^ hash)
  hash + (hash >>> 11)

/-- The characters are added two at a time, and `processPendingCharacter` handles the last one of an
odd number. -/
def addCharacters (hash : UInt32) : List UInt16 → UInt32
  | a :: b :: characters => addCharacters (addCharactersAssumingAligned hash a b) characters
  | [a] =>
    let hash := hash + a.toUInt32
    let hash := hash ^^^ (hash <<< 11)
    hash + (hash >>> 17)
  | [] => hash

def avalancheBits (hash : UInt32) : UInt32 :=
  let hash := hash ^^^ (hash <<< 3)
  let hash := hash + (hash >>> 5)
  let hash := hash ^^^ (hash <<< 2)
  let hash := hash + (hash >>> 15)
  hash ^^^ (hash <<< 10)

def avoidZero (hash : UInt32) : UInt32 := if hash = 0 then (0x80000000 : UInt32) >>> 8 else hash

def computeHashAndMaskTop8Bits (characters : List UInt16) : UInt32 :=
  avoidZero (avalancheBits (addCharacters stringHashingStartValue characters) &&& 0xFFFFFF)

/-- The characters of a memory range. The last one of an odd number of bytes is extended with its
sign. -/
def toCharacters : List UInt8 → List UInt16
  | a :: b :: bytes => (a.toUInt16 ||| b.toUInt16 <<< 8) :: toCharacters bytes
  | [a] => [a.toInt8.toInt16.toUInt16]
  | [] => []

def hashMemory (bytes : List UInt8) : UInt32 :=
  avoidZero (avalancheBits (addCharacters stringHashingStartValue (toCharacters bytes)))

end StringHasher

/-! ### Doubles -/

namespace Double

def isNaN (bits : UInt64) : Bool := 0x7FF0000000000000 < bits.toNat % 2 ^ 63

/-- The doubles other than NaN are ordered by these numbers. -/
def rank (bits : UInt64) : ℤ :=
  if bits.toNat < 2 ^ 63 then bits.toNat else -(bits.toNat % 2 ^ 63 : ℕ)

/-- `==` of doubles. -/
def eq (a b : UInt64) : Bool := !isNaN a && !isNaN b && rank a = rank b

/-- `>` of doubles. -/
def gt (a b : UInt64) : Bool := !isNaN a && !isNaN b && rank b < rank a

def compare (a b : UInt64) : Ordering := if eq a b then .eq else if gt a b then .gt else .lt

lemma compare_eq_eq_iff {a b : UInt64} : compare a b = .eq ↔ eq a b := by
  unfold compare
  split_ifs with h <;> simp [h]

/-- The only equal doubles with different bits are the zeros. -/
lemma eq_or_zeros_of_eq {a b : UInt64} (h : eq a b) :
    a = b ∨ a = 0 ∧ b = 0x8000000000000000 ∨ a = 0x8000000000000000 ∧ b = 0 := by
  simp only [eq, Bool.and_eq_true, decide_eq_true_eq] at h
  have := a.toNat_lt
  have := b.toNat_lt
  simp only [← UInt64.toNat_inj, UInt64.reduceToNat]
  unfold rank at h
  split_ifs at h <;> omega

lemma compare_eq {a b : UInt64} (ha : isNaN a = false) (hb : isNaN b = false) :
    compare a b = Ord.compare (rank a) (rank b) := by
  unfold compare eq gt
  rcases lt_trichotomy (rank a) (rank b) with h | h | h
  · simp [h.ne, h.not_gt, Int.compare_eq_lt.2 h]
  · simp [ha, hb, h]
  · simp [ha, hb, h.ne', h, Int.compare_eq_gt.2 h]

end Double

/-! ### Keys -/

def codePointCompare (a b : List UInt16) : Ordering := compare a b

def compareBinaryKeyData : Option (List UInt8) → Option (List UInt8) → Ordering
  | none, none => .eq
  | some _, none => .gt
  | none, some _ => .lt
  | some a, some b => compare a b

lemma compare_toNat16 (a b : UInt16) : compare (a.toNat : ℤ) b.toNat = compare a b := by
  change compareOfLessAndEq _ _ = compareOfLessAndEq _ _
  simp [compareOfLessAndEq, UInt16.lt_iff_toNat_lt, ← UInt16.toNat_inj]

lemma compare_toNat8 (a b : UInt8) : compare (a.toNat : ℤ) b.toNat = compare a b := by
  change compareOfLessAndEq _ _ = compareOfLessAndEq _ _
  simp [compareOfLessAndEq, UInt8.lt_iff_toNat_lt, ← UInt8.toNat_inj]

/-- Sequences that are followed by -1. -/
lemma compare_map_append {α : Type} [Ord α] {f : α → ℤ}
    (hf : ∀ x y, compare (f x) (f y) = compare x y) (hpos : ∀ x, -1 < f x) (as bs : List α)
    (s t : List ℤ) :
    compare (as.map f ++ -1 :: s) (bs.map f ++ -1 :: t) = (compare as bs).then (compare s t) := by
  induction as generalizing bs with
  | nil =>
    cases bs with
    | nil => simp
    | cons b bs => simp [Int.compare_eq_lt.2 (hpos b)]
  | cons a as ih =>
    cases bs with
    | nil => simp [Int.compare_eq_gt.2 (hpos a)]
    | cons b bs => simp [hf, ih, Ordering.then_assoc]

namespace IDBKeyData

/-- The types are in reverse sort order. -/
def type : IDBKeyData → ℤ
  | maximum => -1
  | array _ => 1
  | binary _ => 2
  | string _ => 3
  | date _ => 4
  | number _ => 5
  | minimum => 6

mutual

def compare : IDBKeyData → IDBKeyData → Ordering
  | array keys, array other => compareArrays keys other
  | binary data, binary other => compareBinaryKeyData data other
  | string units, string other => codePointCompare units other
  | date bits, date other | number bits, number other => Double.compare bits other
  | a, b => if a.type = b.type then .eq else if a.type < b.type then .gt else .lt

def compareArrays : List IDBKeyData → List IDBKeyData → Ordering
  | key :: keys, key' :: keys' => (compare key key').then (compareArrays keys keys')
  | [], _ :: _ => .lt
  | _ :: _, [] => .gt
  | [], [] => .eq

end

mutual

/-- `operator==`. A buffer is not compared with a null one, whose data it would read. -/
def beq : IDBKeyData → IDBKeyData → Bool
  | array keys, array other => beqArrays keys other
  | binary data, binary other => data = other
  | string units, string other => units = other
  | date bits, date other | number bits, number other => Double.eq bits other
  | a, b => a.type = b.type

def beqArrays : List IDBKeyData → List IDBKeyData → Bool
  | key :: keys, key' :: keys' => beq key key' && beqArrays keys keys'
  | [], [] => true
  | _, _ => false

end

/-- The bytes of the type and the two flags, and those of the other hash codes. -/
def hashCodes (type : ℤ) (codes : List UInt32) : UInt32 :=
  StringHasher.hashMemory
    ((UInt32.ofInt type :: 0 :: 0 :: codes).flatMap fun code => toBytes 4 code.toNat)

mutual

def hash : IDBKeyData → UInt32
  | minimum => hashCodes 6 []
  | maximum => hashCodes (-1) []
  | number bits => hashCodes 5 [StringHasher.hashMemory (toBytes 8 bits.toNat)]
  | date bits => hashCodes 4 [StringHasher.hashMemory (toBytes 8 bits.toNat)]
  | string units => hashCodes 3 [StringHasher.computeHashAndMaskTop8Bits units]
  | binary none => hashCodes 2 [0]
  | binary (some data) => hashCodes 2 [StringHasher.hashMemory data]
  | array keys => hashCodes 1 (hashes keys)

def hashes : List IDBKeyData → List UInt32
  | [] => []
  | key :: keys => hash key :: hashes keys

end

/-! ### Valid keys -/

variable {D : Set UInt64}

mutual

/-- A key that scripts can make, whose doubles are in `D`. -/
def Valid (D : Set UInt64) : IDBKeyData → Prop
  | number bits | date bits => bits ∈ D ∧ Double.isNaN bits = false
  | string _ => True
  | binary data => data.isSome
  | array keys => AllValid D keys
  | minimum | maximum => False

def AllValid (D : Set UInt64) : List IDBKeyData → Prop
  | [] => True
  | key :: keys => Valid D key ∧ AllValid D keys

end

mutual

/-- Valid keys are in the lexicographic order of these numbers. A sequence is followed by -1, which
is below all that can stand there in a longer one. -/
def tokens : IDBKeyData → List ℤ
  | minimum => [0]
  | maximum => [7]
  | number bits => [1, Double.rank bits]
  | date bits => [2, Double.rank bits]
  | string units => 3 :: (units.map fun unit => (unit.toNat : ℤ)) ++ [-1]
  | binary data => 4 :: ((data.getD []).map fun byte => (byte.toNat : ℤ)) ++ [-1]
  | array keys => 5 :: allTokens keys

def allTokens : List IDBKeyData → List ℤ
  | [] => [-1]
  | key :: keys => tokens key ++ allTokens keys

end

lemma exists_tokens (a : IDBKeyData) : ∃ x l, a.tokens = x :: l ∧ -1 < x := by
  cases a <;> exact ⟨_, _, rfl, by decide⟩

mutual

/-- Keys are compared by their tokens, whatever follows. -/
lemma compare_tokens {a b : IDBKeyData} (ha : Valid D a) (hb : Valid D b) (s t : List ℤ) :
    Ord.compare (a.tokens ++ s) (b.tokens ++ t) = (a.compare b).then (Ord.compare s t) := by
  cases a <;> cases b
  case array.array as bs =>
    simpa [tokens, compare] using compare_allTokens ha hb s t
  case number.number x y =>
    simp [tokens, compare, Double.compare_eq ha.2 hb.2]
  case date.date x y =>
    simp [tokens, compare, Double.compare_eq ha.2 hb.2]
  case string.string us vs =>
    simpa [tokens, compare, codePointCompare] using
      compare_map_append compare_toNat16 (fun x => by omega) us vs s t
  case binary.binary d e =>
    obtain ⟨d, rfl⟩ := Option.isSome_iff_exists.1 ha
    obtain ⟨e, rfl⟩ := Option.isSome_iff_exists.1 hb
    simpa [tokens, compare, compareBinaryKeyData] using
      compare_map_append compare_toNat8 (fun x => by omega) d e s t
  all_goals rfl

lemma compare_allTokens {as bs : List IDBKeyData} (ha : AllValid D as) (hb : AllValid D bs)
    (s t : List ℤ) :
    Ord.compare (allTokens as ++ s) (allTokens bs ++ t) =
      (compareArrays as bs).then (Ord.compare s t) := by
  cases as with
  | nil =>
    cases bs with
    | nil => simp [allTokens, compareArrays]
    | cons b bs =>
      obtain ⟨x, l, hx, hpos⟩ := exists_tokens b
      simp [allTokens, compareArrays, hx, Int.compare_eq_lt.2 hpos]
  | cons a as =>
    cases bs with
    | nil =>
      obtain ⟨x, l, hx, hpos⟩ := exists_tokens a
      simp [allTokens, compareArrays, hx, Int.compare_eq_gt.2 hpos]
    | cons b bs =>
      rw [allTokens, allTokens, List.append_assoc, List.append_assoc, compare_tokens ha.1 hb.1,
        compare_allTokens ha.2 hb.2, compareArrays, Ordering.then_assoc]

end

mutual

lemma compare_eq_iff {a b : IDBKeyData} (ha : Valid D a) (hb : Valid D b) :
    a.compare b = .eq ↔ a.beq b := by
  cases a <;> cases b
  case array.array as bs =>
    simpa [compare, beq] using compareArrays_eq_iff ha hb
  case binary.binary d e =>
    obtain ⟨d, rfl⟩ := Option.isSome_iff_exists.1 ha
    obtain ⟨e, rfl⟩ := Option.isSome_iff_exists.1 hb
    simp [compare, beq, compareBinaryKeyData]
  all_goals simp [compare, beq, type, codePointCompare, Double.compare_eq_eq_iff]

lemma compareArrays_eq_iff {as bs : List IDBKeyData} (ha : AllValid D as) (hb : AllValid D bs) :
    compareArrays as bs = .eq ↔ beqArrays as bs := by
  cases as <;> cases bs
  case cons.cons a as b bs =>
    rw [compareArrays, beqArrays, Ordering.then_eq_eq, Bool.and_eq_true, compare_eq_iff ha.1 hb.1,
      compareArrays_eq_iff ha.2 hb.2]
  all_goals simp [compareArrays, beqArrays]

end

lemma eq_of_eq (hD : ¬(0 ∈ D ∧ 0x8000000000000000 ∈ D)) {x y : UInt64} (hx : x ∈ D) (hy : y ∈ D)
    (h : Double.eq x y) : x = y := by
  rcases Double.eq_or_zeros_of_eq h with h | ⟨rfl, rfl⟩ | ⟨rfl, rfl⟩
  · exact h
  · exact absurd ⟨hx, hy⟩ hD
  · exact absurd ⟨hy, hx⟩ hD

mutual

/-- Without two zeros, equal keys are the same. -/
lemma eq_of_beq {a b : IDBKeyData} (hD : ¬(0 ∈ D ∧ 0x8000000000000000 ∈ D)) (ha : Valid D a)
    (hb : Valid D b) (h : a.beq b) : a = b := by
  cases a <;> cases b
  case array.array as bs =>
    rw [eq_of_beqArrays hD ha hb h]
  case number.number x y => rw [eq_of_eq hD ha.1 hb.1 h]
  case date.date x y => rw [eq_of_eq hD ha.1 hb.1 h]
  all_goals simp_all [beq, type, Valid]

lemma eq_of_beqArrays {as bs : List IDBKeyData} (hD : ¬(0 ∈ D ∧ 0x8000000000000000 ∈ D))
    (ha : AllValid D as) (hb : AllValid D bs) (h : beqArrays as bs) : as = bs := by
  cases as <;> cases bs
  case cons.cons a as b bs =>
    rw [beqArrays, Bool.and_eq_true] at h
    rw [eq_of_beq hD ha.1 hb.1 h.1, eq_of_beqArrays hD ha.2 hb.2 h.2]
  all_goals simp [beqArrays] at h ⊢

end

/-- On the valid keys whose doubles are in `D`, the comparison is a total order by type and then by
value, and equal keys are the ones that compare equal. -/
structure Coherent (D : Set UInt64) : Prop where
  order : Std.TransCmp fun a b : { key // Valid D key } => a.1.compare b.1
  types : ∀ a b, Valid D a → Valid D b → a.type < b.type → a.compare b = .gt
  arrays : ∀ keys keys', (array keys).compare (array keys') = keys.compareLex compare keys'
  eq_iff : ∀ a b, Valid D a → Valid D b → (a.compare b = .eq ↔ a.beq b)

lemma coherent (D : Set UInt64) : Coherent D := by
  have hcmp : ∀ a b : { key // Valid D key }, a.1.compare b.1 =
      Ord.compare a.1.tokens b.1.tokens := by
    intro a b
    simpa using (compare_tokens a.2 b.2 [] []).symm
  refine ⟨{ eq_swap := ?_, isLE_trans := ?_ }, fun a b _ _ h => ?_, fun keys keys' => ?_,
    fun a b => compare_eq_iff⟩
  · intro a b
    rw [hcmp, hcmp]
    exact Std.OrientedCmp.eq_swap
  · intro a b c
    rw [hcmp, hcmp, hcmp]
    exact Std.TransCmp.isLE_trans
  · cases a <;> cases b <;> simp [type] at h <;> rfl
  · rw [compare]
    induction keys generalizing keys' with
    | nil => cases keys' <;> rfl
    | cons key keys ih =>
      cases keys' with
      | nil => rfl
      | cons key' keys' => rw [compareArrays, ih, List.compareLex_cons_cons]

/-- +0 and -0 are equal, but their hashes are not. -/
theorem hash_zero_ne :
    (number 0).beq (number 0x8000000000000000) = true ∧
      (number 0).hash ≠ (number 0x8000000000000000).hash := by
  decide

/-- Comparison and equality agree. Equal keys have the same hash as long as not both +0 and -0
occur. -/
theorem coherent_and_hash_iff (D : Set UInt64) : Coherent D ∧
    ((∀ a b, Valid D a → Valid D b → a.beq b → a.hash = b.hash) ↔
      ¬(0 ∈ D ∧ 0x8000000000000000 ∈ D)) := by
  refine ⟨coherent D, ?_, fun hD a b ha hb h => by rw [eq_of_beq hD ha hb h]⟩
  rintro h ⟨h₀, h₁⟩
  have hz := h (number 0) (number 0x8000000000000000) ⟨h₀, rfl⟩ ⟨h₁, rfl⟩ (by decide)
  exact absurd hz (by decide)

end IDBKeyData

end WebKit.IndexedDB
