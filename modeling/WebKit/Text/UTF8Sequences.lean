import WebKit.Text.TextCodecUTF8

/-!
# UTF-8 sequences

What the decoding of a byte string is, in terms of the encodings of the Unicode scalar values, and
that the codec recognises exactly these encodings.
-/

namespace WebKit.Text

open List Nat UInt8

/-- The UTF-16 code units of a Unicode scalar value. -/
def utf16 (c : Char) : List UInt16 :=
  if c.toNat < 0x10000 then [UInt16.ofNat c.toNat]
  else [UInt16.ofNat (0xD800 + (c.toNat - 0x10000) / 0x400),
    UInt16.ofNat (0xDC00 + (c.toNat - 0x10000) % 0x400)]

/-- The decoding of a byte string: its text, and whether it has an error. A byte at which no
encoding of a character starts is an error. -/
inductive Decodes : List UInt8 → List UInt16 → Bool → Prop
  | nil : Decodes [] [] false
  | character {bytes : List UInt8} {text : List UInt16} {sawError : Bool} (c : Char) :
    Decodes bytes text sawError →
      Decodes (String.utf8EncodeChar c ++ bytes) (utf16 c ++ text) sawError
  | error {bytes : List UInt8} {text : List UInt16} {sawError : Bool} (b : UInt8) :
    (∀ c, ¬ String.utf8EncodeChar c <+: b :: bytes) → Decodes bytes text sawError →
      Decodes (b :: bytes) (replacementCharacter :: text) true

/-- The character and the length of the sequence that the codec finds at `b`. -/
def firstCharacter (b : UInt8) (bs : List UInt8) : Option (ℕ × ℕ) :=
  if isASCII b then some (b.toNat, 1)
  else
    let count := nonASCIISequenceLength b
    if count = 0 then none
    else if count > (b :: bs).length then none
    else (decodeNonASCIISequence ((b :: bs).take count)).map (·, count)

/-! ### The sequences of characters -/

lemma exists_char {n : ℕ} (h : n.isValidChar) : ∃ c : Char, c.toNat = n := by
  have hlt : n < 2 ^ 32 := by
    rcases h with h | h <;> omega
  have hval : (UInt32.ofNat n).toNat = n := mod_eq_of_lt hlt
  exact ⟨⟨UInt32.ofNat n, by rwa [UInt32.isValidChar, hval]⟩, hval⟩

lemma isASCII_iff (b : UInt8) : isASCII b = true ↔ b.toNat < 128 := by
  simp [isASCII, lt_iff_toNat_lt]

lemma sequenceLength_eq (b : UInt8) : nonASCIISequenceLength b =
    if b.toNat < 0x80 then 0 else if b.toNat < 0xE0 then 2 else if b.toNat < 0xF0 then 3
    else if b.toNat < 0xF5 then 4 else 0 := by
  simp [nonASCIISequenceLength, lt_iff_toNat_lt]

lemma sequenceLength_le (b : UInt8) : nonASCIISequenceLength b ≤ 4 := by
  rw [sequenceLength_eq]
  split_ifs <;> decide

lemma decodeSequence_two_iff (s0 s1 : UInt8) (c : ℕ) :
    decodeNonASCIISequence [s0, s1] = some c ↔
      0xC2 ≤ s0.toNat ∧ 0x80 ≤ s1.toNat ∧ s1.toNat ≤ 0xBF ∧
        c = s0.toNat * 64 + s1.toNat - 0x3080 := by
  simp only [decodeNonASCIISequence, lt_iff_toNat_lt]
  simp
  omega

lemma decodeSequence_three_iff (s0 s1 s2 : UInt8) (c : ℕ) :
    decodeNonASCIISequence [s0, s1, s2] = some c ↔
      (s0 = 0xE0 → 0xA0 ≤ s1.toNat) ∧ (s0 = 0xED → s1.toNat ≤ 0x9F) ∧
        0x80 ≤ s1.toNat ∧ s1.toNat ≤ 0xBF ∧ 0x80 ≤ s2.toNat ∧ s2.toNat ≤ 0xBF ∧
        c = s0.toNat * 4096 + s1.toNat * 64 + s2.toNat - 0xE2080 := by
  simp only [decodeNonASCIISequence, lt_iff_toNat_lt]
  by_cases h0 : s0 = 0xE0
  · simp [h0]
    omega
  by_cases h1 : s0 = 0xED
  · simp [h1]
    omega
  simp [h0, h1]
  omega

lemma decodeSequence_four_iff (s0 s1 s2 s3 : UInt8) (c : ℕ) :
    decodeNonASCIISequence [s0, s1, s2, s3] = some c ↔
      (s0 = 0xF0 → 0x90 ≤ s1.toNat) ∧ (s0 = 0xF4 → s1.toNat ≤ 0x8F) ∧
        0x80 ≤ s1.toNat ∧ s1.toNat ≤ 0xBF ∧ 0x80 ≤ s2.toNat ∧ s2.toNat ≤ 0xBF ∧
        0x80 ≤ s3.toNat ∧ s3.toNat ≤ 0xBF ∧
        c = s0.toNat * 262144 + s1.toNat * 4096 + s2.toNat * 64 + s3.toNat - 0x3C82080 := by
  simp only [decodeNonASCIISequence, lt_iff_toNat_lt]
  by_cases h0 : s0 = 0xF0
  · simp [h0]
    omega
  by_cases h1 : s0 = 0xF4
  · simp [h1]
    omega
  simp [h0, h1]
  omega

lemma sequenceLength_eq_two_iff (b : UInt8) :
    nonASCIISequenceLength b = 2 ↔ 0x80 ≤ b.toNat ∧ b.toNat < 0xE0 := by
  rw [sequenceLength_eq]
  split_ifs <;> simp <;> omega

lemma sequenceLength_eq_three_iff (b : UInt8) :
    nonASCIISequenceLength b = 3 ↔ 0xE0 ≤ b.toNat ∧ b.toNat < 0xF0 := by
  rw [sequenceLength_eq]
  split_ifs <;> simp <;> omega

lemma sequenceLength_eq_four_iff (b : UInt8) :
    nonASCIISequenceLength b = 4 ↔ 0xF0 ≤ b.toNat ∧ b.toNat < 0xF5 := by
  rw [sequenceLength_eq]
  split_ifs <;> simp <;> omega

variable {char : Char}

lemma utf8EncodeChar_one (h : char.toNat ≤ 0x7F) :
    String.utf8EncodeChar char = [UInt8.ofNat char.toNat] :=
  if_pos h

lemma utf8EncodeChar_two (h : 0x7F < char.toNat) (h' : char.toNat ≤ 0x7FF) :
    String.utf8EncodeChar char =
      [UInt8.ofNat (char.toNat / 64 % 32 + 192), UInt8.ofNat (char.toNat % 64 + 128)] :=
  (if_neg (Nat.not_le.mpr h)).trans (if_pos h')

lemma utf8EncodeChar_three (h : 0x7FF < char.toNat) (h' : char.toNat ≤ 0xFFFF) :
    String.utf8EncodeChar char =
      [UInt8.ofNat (char.toNat / 4096 % 16 + 224), UInt8.ofNat (char.toNat / 64 % 64 + 128),
        UInt8.ofNat (char.toNat % 64 + 128)] :=
  (if_neg (Nat.not_le.mpr (Nat.lt_trans (by decide) h))).trans <|
    (if_neg (Nat.not_le.mpr h)).trans (if_pos h')

lemma utf8EncodeChar_four (h : 0xFFFF < char.toNat) : String.utf8EncodeChar char =
      [UInt8.ofNat (char.toNat / 262144 % 8 + 240), UInt8.ofNat (char.toNat / 4096 % 64 + 128),
        UInt8.ofNat (char.toNat / 64 % 64 + 128), UInt8.ofNat (char.toNat % 64 + 128)] :=
  (if_neg (Nat.not_le.mpr (Nat.lt_trans (by decide) h))).trans <|
    (if_neg (Nat.not_le.mpr (Nat.lt_trans (by decide) h))).trans (if_neg (Nat.not_le.mpr h))

variable {b : UInt8} {bs : List UInt8}

section

variable {c : ℕ} (hcnt : nonASCIISequenceLength b = (b :: bs).length)
  (h : decodeNonASCIISequence (b :: bs) = some c)

include hcnt h

/-- A sequence that the codec accepts is the encoding of its character. -/
lemma exists_utf8EncodeChar :
    ∃ char : Char, char.toNat = c ∧ String.utf8EncodeChar char = b :: bs := by
  match bs with
  | [] =>
    simp only [decodeNonASCIISequence, reduceCtorEq] at h
  | [s1] =>
    obtain ⟨h0, h1, h1', hc⟩ := (decodeSequence_two_iff b s1 c).mp h
    obtain ⟨-, hb⟩ := (sequenceLength_eq_two_iff b).mp hcnt
    obtain ⟨char, hchar⟩ := exists_char (n := c) (.inl (by omega))
    refine ⟨char, hchar, ?_⟩
    rw [utf8EncodeChar_two (by omega) (by omega)]
    simp only [cons.injEq, ← UInt8.toNat_inj, toNat_ofNat', and_true]
    omega
  | [s1, s2] =>
    simp only [decodeSequence_three_iff, ← UInt8.toNat_inj, UInt8.reduceToNat] at h
    have hb := (sequenceLength_eq_three_iff b).mp hcnt
    obtain ⟨char, hchar⟩ := exists_char (n := c) (by rw [Nat.isValidChar]; omega)
    refine ⟨char, hchar, ?_⟩
    rw [utf8EncodeChar_three (by omega) (by omega)]
    simp only [cons.injEq, ← UInt8.toNat_inj, toNat_ofNat', and_true]
    omega
  | [s1, s2, s3] =>
    simp only [decodeSequence_four_iff, ← UInt8.toNat_inj, UInt8.reduceToNat] at h
    have hb := (sequenceLength_eq_four_iff b).mp hcnt
    obtain ⟨char, hchar⟩ := exists_char (n := c) (by rw [Nat.isValidChar]; omega)
    refine ⟨char, hchar, ?_⟩
    rw [utf8EncodeChar_four (by omega)]
    simp only [cons.injEq, ← UInt8.toNat_inj, toNat_ofNat', and_true]
    omega
  | _ :: _ :: _ :: _ :: _ =>
    simp only [decodeNonASCIISequence, reduceCtorEq] at h

/-- The codec finds a sequence that it accepts. -/
lemma firstCharacter_of_decode (rest : List UInt8) :
    firstCharacter b (bs ++ rest) = some (c, (b :: bs).length) := by
  have hasc : isASCII b = false := by
    rw [Bool.eq_false_iff, ne_eq, isASCII_iff]
    intro hb
    rw [sequenceLength_eq, if_pos hb] at hcnt
    simp at hcnt
  have htake : (b :: (bs ++ rest)).take (b :: bs).length = b :: bs := by simp
  rw [firstCharacter, hasc, if_neg Bool.false_ne_true]
  simp only [hcnt]
  simp [h]

end

/-- The codec accepts the encoding of every character. -/
lemma firstCharacter_encode (char : Char) (h : String.utf8EncodeChar char = b :: bs)
    (rest : List UInt8) : firstCharacter b (bs ++ rest) = some (char.toNat, (b :: bs).length) := by
  have hvld : char.toNat.isValidChar := char.valid
  by_cases h1 : char.toNat ≤ 0x7F
  · rw [utf8EncodeChar_one h1] at h
    obtain ⟨rfl, rfl⟩ := h
    have hnat : (UInt8.ofNat char.toNat).toNat = char.toNat := by
      rw [toNat_ofNat']
      omega
    rw [firstCharacter, if_pos ((isASCII_iff _).mpr (by omega)), hnat]
    rfl
  by_cases h2 : char.toNat ≤ 0x7FF
  · rw [utf8EncodeChar_two (by omega) h2] at h
    obtain ⟨rfl, rfl⟩ := h
    refine firstCharacter_of_decode ?_ ?_ rest
    · refine (sequenceLength_eq_two_iff _).mpr ?_
      rw [toNat_ofNat']
      omega
    · rw [decodeSequence_two_iff, toNat_ofNat', toNat_ofNat']
      omega
  by_cases h3 : char.toNat ≤ 0xFFFF
  · rw [utf8EncodeChar_three (by omega) h3] at h
    obtain ⟨rfl, rfl⟩ := h
    refine firstCharacter_of_decode ?_ ?_ rest
    · refine (sequenceLength_eq_three_iff _).mpr ?_
      rw [toNat_ofNat']
      omega
    · simp only [decodeSequence_three_iff, ← UInt8.toNat_inj]
      simp
      omega
  · rw [utf8EncodeChar_four (by omega)] at h
    obtain ⟨rfl, rfl⟩ := h
    refine firstCharacter_of_decode ?_ ?_ rest
    · refine (sequenceLength_eq_four_iff _).mpr ?_
      rw [toNat_ofNat']
      omega
    · simp only [decodeSequence_four_iff, ← UInt8.toNat_inj]
      simp
      omega

variable {c count : ℕ}

lemma firstCharacter_eq_some : firstCharacter b bs = some (c, count) ↔
      isASCII b = true ∧ b.toNat = c ∧ 1 = count ∨
      isASCII b = false ∧ nonASCIISequenceLength b = count ∧ 1 ≤ count ∧
        count ≤ (b :: bs).length ∧ decodeNonASCIISequence ((b :: bs).take count) = some c := by
  rw [firstCharacter]
  by_cases hasc : isASCII b = true
  · simp [hasc]
  dsimp only
  by_cases hzero : nonASCIISequenceLength b = 0
  · simp [hasc]
    omega
  by_cases hlong : nonASCIISequenceLength b > (b :: bs).length
  · rw [if_neg hasc, if_pos hlong]
    refine ⟨fun h => absurd h (by simp), ?_⟩
    rintro (⟨h, -⟩ | ⟨-, rfl, -, hle, -⟩)
    · exact absurd h hasc
    · exact absurd hle (Nat.not_le.mpr hlong)
  · rw [if_neg hasc, if_neg hzero, if_neg hlong]
    constructor
    · intro h
      obtain ⟨c, hdec, hc⟩ := Option.map_eq_some_iff.mp h
      obtain ⟨rfl, rfl⟩ := Prod.mk.inj hc
      exact .inr ⟨Bool.eq_false_iff.mpr hasc, rfl, one_le_iff_ne_zero.mpr hzero,
        Nat.not_lt.mp hlong, hdec⟩
    · rintro (⟨h, -⟩ | ⟨-, rfl, -, -, hdec⟩)
      · exact absurd h hasc
      · simp [hdec]

/-- What the codec finds is the encoding of a character. -/
lemma exists_of_firstCharacter (h : firstCharacter b bs = some (c, count)) :
    ∃ char : Char, char.toNat = c ∧ String.utf8EncodeChar char = (b :: bs).take count := by
  rcases firstCharacter_eq_some.mp h with ⟨hasc, rfl, rfl⟩ | ⟨-, hlen, hpos, hle, hdec⟩
  · rw [isASCII_iff] at hasc
    obtain ⟨char, hchar⟩ := exists_char (n := b.toNat) (.inl (by omega))
    refine ⟨char, hchar, ?_⟩
    rw [utf8EncodeChar_one (by omega), hchar, UInt8.ofNat_toNat]
    rfl
  · obtain ⟨n, rfl⟩ := Nat.exists_eq_add_of_le' hpos
    refine exists_utf8EncodeChar ?_ hdec
    simp [hlen, length_take_of_le (le_of_succ_le_succ hle)]

lemma pos_of_firstCharacter (h : firstCharacter b bs = some (c, count)) : 1 ≤ count := by
  rcases firstCharacter_eq_some.mp h with ⟨-, -, rfl⟩ | ⟨-, -, hpos, -⟩
  · exact Nat.le_refl 1
  · exact hpos

lemma utf8EncodeChar_ne_nil (char : Char) : String.utf8EncodeChar char ≠ [] := by
  rw [String.utf8EncodeChar]
  split_ifs <;> simp

/-- The codec finds nothing exactly where no encoding starts. -/
lemma firstCharacter_eq_none :
    firstCharacter b bs = none ↔ ∀ char, ¬ String.utf8EncodeChar char <+: b :: bs := by
  constructor
  · rintro hnone char ⟨rest, hrest⟩
    obtain ⟨b', bs', henc⟩ := exists_cons_of_ne_nil (utf8EncodeChar_ne_nil char)
    rw [henc] at hrest
    obtain ⟨rfl, rfl⟩ := hrest
    simp [firstCharacter_encode char henc rest] at hnone
  · intro hnone
    rw [Option.eq_none_iff_forall_not_mem]
    rintro ⟨c, count⟩ hsome
    obtain ⟨char, -, henc⟩ := exists_of_firstCharacter hsome
    exact hnone char (henc ▸ take_prefix count (b :: bs))

lemma appendCharacter_toNat (char : Char) : appendCharacter char.toNat = utf16 char := by
  rw [appendCharacter, utf16]
  by_cases h : char.toNat < 0x10000
  · rw [if_pos (by omega), if_pos h]
  · have hmask : char.toNat &&& 0x3FF = char.toNat % 0x400 :=
      and_two_pow_sub_one_eq_mod char.toNat 10
    have hor : char.toNat % 0x400 ||| 0xDC00 = 0xDC00 + char.toNat % 0x400 := by
      rw [Nat.or_comm]
      exact (two_pow_add_eq_or_of_lt (i := 10) (mod_lt _ (by decide)) 55).symm
    rw [if_neg (by omega), if_neg h, shiftRight_eq_div_pow, hmask, hor]
    have hlead : char.toNat / 2 ^ 10 + 0xD7C0 = 0xD800 + (char.toNat - 0x10000) / 0x400 := by omega
    have htrail : char.toNat % 0x400 = (char.toNat - 0x10000) % 0x400 := by omega
    rw [hlead, htrail]

/-! ### The decoding of the bytes -/

/-- The text that the codec's sequences give, and whether there is an error. -/
def decodeBytes (bytes : List UInt8) : List UInt16 × Bool :=
  match bytes with
  | [] => ([], false)
  | b :: bs =>
    match firstCharacter b bs with
    | some (c, count) =>
      (decodeBytes (bs.drop (count - 1))).map (appendCharacter c ++ ·) id
    | none => (decodeBytes bs).map (replacementCharacter :: ·) (fun _ => true)
termination_by bytes.length
decreasing_by
  · simp only [List.length_drop, List.length_cons]
    omega
  · simp

lemma decodeBytes_nil : decodeBytes [] = ([], false) := by
  rw [decodeBytes]

lemma decodeBytes_of_some (h : firstCharacter b bs = some (c, count)) :
    decodeBytes (b :: bs) =
      (decodeBytes ((b :: bs).drop count)).map (appendCharacter c ++ ·) id := by
  obtain ⟨n, rfl⟩ := Nat.exists_eq_add_of_le (pos_of_firstCharacter h)
  rw [decodeBytes, h, Nat.add_comm 1 n]
  rfl

lemma decodeBytes_of_none (h : firstCharacter b bs = none) :
    decodeBytes (b :: bs) = (decodeBytes bs).map (replacementCharacter :: ·) (fun _ => true) := by
  rw [decodeBytes, h]

variable {text : List UInt16} {bytes : List UInt8} {sawError : Bool}

/-- The decoding is unique. -/
theorem Decodes.eq_decodeBytes
    (h : Decodes bytes text sawError) : decodeBytes bytes = (text, sawError) := by
  induction h with
  | nil => exact decodeBytes_nil
  | @character bytes text sawError char _ ih =>
    obtain ⟨b, bs, henc⟩ := exists_cons_of_ne_nil (utf8EncodeChar_ne_nil char)
    rw [henc, cons_append, decodeBytes_of_some (firstCharacter_encode char henc bytes),
      appendCharacter_toNat, ← cons_append, drop_left, ih]
    rfl
  | error b hnone _ ih =>
    rw [decodeBytes_of_none (firstCharacter_eq_none.mpr hnone), ih]
    rfl

/-- Every byte string has a decoding. -/
theorem decodes_decodeBytes (bytes : List UInt8) :
    Decodes bytes (decodeBytes bytes).1 (decodeBytes bytes).2 := by
  induction hlen : bytes.length using Nat.strongRecOn generalizing bytes with
  | _ n ih =>
    subst hlen
    match bytes with
    | [] =>
      rw [decodeBytes_nil]
      exact .nil
    | b :: bs =>
      rcases hfst : firstCharacter b bs with _ | ⟨c, count⟩
      · rw [decodeBytes_of_none hfst]
        exact .error b (firstCharacter_eq_none.mp hfst) (ih _ (by simp) bs rfl)
      · obtain ⟨char, rfl, henc⟩ := exists_of_firstCharacter hfst
        have hpos := pos_of_firstCharacter hfst
        have hrest := ih _ (by simp; omega) ((b :: bs).drop count) rfl
        rw [decodeBytes_of_some hfst, appendCharacter_toNat]
        have hchar := Decodes.character char hrest
        rwa [henc, take_append_drop] at hchar

theorem decodes_iff : Decodes bytes text sawError ↔ decodeBytes bytes = (text, sawError) := by
  refine ⟨Decodes.eq_decodeBytes, fun h => ?_⟩
  have hdecodes := decodes_decodeBytes bytes
  rwa [h] at hdecodes

end WebKit.Text
