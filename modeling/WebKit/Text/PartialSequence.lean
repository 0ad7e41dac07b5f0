import WebKit.Text.DecodeSource

/-!
# The partial sequence

The codec reads the bytes of the partial sequence in their order, with one exception: when it finds
a sequence of two bytes in front of a third one, it goes on with the first byte again instead of the
third.
-/

namespace WebKit.Text

open List

/-- Two byte strings with the same text. -/
def SameText (bytes bytes' : List UInt8) : Prop :=
  ∃ text sawError sawError', Decodes bytes text sawError ∧ Decodes bytes' text sawError'

variable {bytes bytes' : List UInt8}

lemma sameText_iff : SameText bytes bytes' ↔ (decodeBytes bytes).1 = (decodeBytes bytes').1 := by
  constructor
  · rintro ⟨text, sawError, sawError', h, h'⟩
    rw [h.eq_decodeBytes, h'.eq_decodeBytes]
  · intro h
    refine ⟨_, _, (decodeBytes bytes').2, decodes_decodeBytes bytes, ?_⟩
    rw [h]
    exact decodes_decodeBytes bytes'

/-- Where the first byte of a sequence of four bytes is followed by a sequence of two bytes and one
more byte, that byte can be replaced by the first of the two. -/
def Harmless (bytes : List UInt8) : Prop :=
  ∀ (before after : List UInt8) (lead a b c : UInt8) (char : Char),
    bytes = before ++ lead :: a :: b :: c :: after → 0xF0 ≤ lead → lead ≤ 0xF4 →
      String.utf8EncodeChar char = [a, b] → SameText (a :: after) (c :: after)

lemma Harmless.of_suffix (h : Harmless bytes) (hsuf : bytes' <:+ bytes) : Harmless bytes' := by
  obtain ⟨start, rfl⟩ := hsuf
  intro before after lead a b c char hbyt
  apply h (start ++ before) after lead a b c char
  rw [hbyt, append_assoc]

/-- A byte that does not begin a sequence of four bytes can be put in front. -/
lemma Harmless.cons (h : Harmless bytes) {byte : UInt8}
    (hbyte : byte < 0xF0) : Harmless (byte :: bytes) := by
  rintro (_ | ⟨_, before⟩) after lead a b c char hbyt hlead
  · obtain ⟨rfl, -⟩ := cons.inj hbyt
    exact absurd hlead (UInt8.not_le.mpr hbyte)
  · exact h before after lead a b c char (cons.inj hbyt).2 hlead

/-- The bytes of a sequence of two bytes. -/
lemma toNat_of_encode {char : Char} {a b : UInt8} (h : String.utf8EncodeChar char = [a, b]) :
    0xC2 ≤ a.toNat ∧ a.toNat < 0xE0 ∧ nonASCIISequenceLength a = 2 := by
  have hfst := firstCharacter_encode char h []
  rcases firstCharacter_eq_some.mp hfst with ⟨-, -, h⟩ | ⟨-, hlen, -, -, hdec⟩
  · exact absurd h (by simp)
  · refine ⟨((decodeSequence_two_iff a b _).mp hdec).1, ?_, hlen⟩
    exact ((sequenceLength_eq_two_iff a).mp hlen).2

/-- The partial sequence has at most three bytes, or those of one sequence. -/
def Filled (partialSequence : List UInt8) : Prop :=
  partialSequence.length ≤ 3 ∨
    ∃ b bs, partialSequence = b :: bs ∧ nonASCIISequenceLength b = partialSequence.length

/-- The partial sequence `[a, b, c]` with a sequence of two bytes is reached after an error, and `a`
can take the place of `c`. -/
def SlipsUnseen (seen : Bool) (partialSequence after : List UInt8) : Prop :=
  ∀ a b c char, partialSequence = [a, b, c] → String.utf8EncodeChar char = [a, b] →
    seen = true ∧ (decodeBytes (a :: after)).1 = (decodeBytes (c :: after)).1

variable {held : List UInt8}

lemma slipsUnseen_of_length (h : held.length ≤ 2)
    (seen : Bool) (after : List UInt8) : SlipsUnseen seen held after := by
  rintro a b c char rfl
  simp at h

variable {b : UInt8} {bs : List UInt8}

lemma Filled.cons (h : Filled (b :: bs)) :
    (b :: bs).length ≤ 3 ∨ nonASCIISequenceLength b = (b :: bs).length := by
  rcases h with h | ⟨b', bs', hcons, h⟩
  · exact .inl h
  · exact .inr ((cons.inj hcons).1 ▸ h)

lemma sequenceLength_of_isASCII (h : isASCII b = true) : nonASCIISequenceLength b = 0 := by
  rw [sequenceLength_eq, if_pos ((isASCII_iff b).mp h)]

lemma one_lt_sequenceLength (h : nonASCIISequenceLength b ≠ 0) : 1 < nonASCIISequenceLength b := by
  rw [sequenceLength_eq] at h ⊢
  split_ifs at h ⊢ <;> simp at h ⊢

/-- After an error at the first byte. -/
lemma SlipsUnseen.tail {after : List UInt8}
    (hlen : (b :: bs).length ≤ 3 ∨ nonASCIISequenceLength b = (b :: bs).length)
    (h : Harmless (b :: bs ++ after)) : SlipsUnseen true bs after := by
  rintro a' b' c' char rfl hchar
  refine ⟨rfl, sameText_iff.mp (h [] after b a' b' c' char rfl ?_ ?_ hchar)⟩
  all_goals
    rcases hlen with hlen | hlen
    · simp at hlen
    have hb := (sequenceLength_eq_four_iff b).mp hlen
  · exact hb.1
  · exact Nat.le_of_lt_succ hb.2

/-- The partial sequence and what follows it while the codec goes on with it. -/
structure PartialState (seen : Bool) (partialSequence source rest : List UInt8) : Prop where
  filled : Filled partialSequence
  slips : SlipsUnseen seen partialSequence (source ++ rest)
  harmless : Harmless (partialSequence ++ source ++ rest)

/-- A step from a partial sequence to another one gives a text, and an error or none. -/
structure PartialStepTo (seen : Bool) (partialSequence source : List UInt8) (text : List UInt16)
    (sawError : Bool) (partialSequence' source' rest : List UInt8) : Prop where
  reads : Reads seen (partialSequence ++ source ++ rest) text sawError
    (partialSequence' ++ source' ++ rest)
  state : PartialState (seen || sawError) partialSequence' source' rest
  source_suffix : source' <:+ source
  length_lt : partialSequence'.length + source'.length < partialSequence.length + source.length

variable {seen : Bool} {rest src : List UInt8}

section

variable (h : PartialState seen (b :: bs) src rest)

include h

lemma PartialState.ascii (hasc : isASCII b = true) :
    PartialStepTo seen (b :: bs) src [b.toUInt16] false bs src rest := by
  have hlen : (b :: bs).length ≤ 3 := by
    refine h.filled.cons.resolve_right ?_
    rw [sequenceLength_of_isASCII hasc]
    exact (Nat.succ_ne_zero _).symm
  have hbs : bs.length ≤ 2 := Nat.le_of_succ_le_succ hlen
  have hrd := reads_of_some seen (firstCharacter_of_isASCII hasc (bs ++ src ++ rest))
  rw [appendCharacter_uint8] at hrd
  refine ⟨hrd, ⟨.inl (Nat.le_succ_of_le hbs), ?_, ?_⟩, suffix_rfl, ?_⟩
  · exact slipsUnseen_of_length hbs _ _
  · exact h.harmless.of_suffix (suffix_cons b _)
  · rw [length_cons]
    omega

variable {src' : List UInt8}

lemma PartialState.invalid {bs' : List UInt8} (happ : bs' ++ src' = bs ++ src) (hsrc : src' <:+ src)
    (hnone : firstCharacter b (bs ++ src ++ rest) = none)
    (hlen : b :: bs' = b :: bs ∨ (b :: bs').length = nonASCIISequenceLength b) :
    PartialStepTo seen (b :: bs) src [replacementCharacter] true bs' src' rest := by
  obtain ⟨hfil, -, hharm⟩ := h
  have hfil' : (b :: bs').length ≤ 3 ∨ nonASCIISequenceLength b = (b :: bs').length := by
    rcases hlen with hlen | hlen
    · rw [hlen]
      exact hfil.cons
    · exact .inr hlen.symm
  have hbs : bs'.length ≤ 3 := by
    have hle := sequenceLength_le b
    rw [length_cons] at hfil'
    omega
  have htotal := congrArg length happ
  rw [length_append, length_append] at htotal
  have hrd := reads_of_none seen hnone
  rw [cons_append, cons_append, ← happ] at hharm
  rw [← happ] at hrd
  refine ⟨?_, ⟨.inl hbs, ?_, hharm.of_suffix (suffix_cons b _)⟩, hsrc, ?_⟩
  · rwa [cons_append, ← happ]
  · rw [Bool.or_true]
    rw [append_assoc] at hharm
    exact .tail hfil' hharm
  · rw [length_cons]
    omega

/-- The sequence is all of the partial sequence. -/
lemma PartialState.character {P : List UInt8} {c : ℕ} (happ : P ++ src' = b :: bs ++ src)
    (hsrc : src' <:+ src) (hsome : firstCharacter b (bs ++ src ++ rest) = some (c, P.length)) :
    PartialStepTo seen (b :: bs) src (appendCharacter c) false [] src' rest := by
  have hharm := h.harmless
  have hpos := pos_of_firstCharacter hsome
  have htotal := congrArg length happ
  rw [length_append, length_append] at htotal
  have hrd := reads_of_some seen hsome
  rw [← cons_append, ← cons_append, ← happ, append_assoc, drop_left] at hrd
  rw [← happ, append_assoc] at hharm
  refine ⟨?_, ⟨.inl (by simp), slipsUnseen_of_length (by simp) _ _, ?_⟩, hsrc, ?_⟩
  · rwa [← happ, append_assoc]
  · exact hharm.of_suffix (suffix_append P (src' ++ rest))
  · rw [length_nil]
    omega

end

/-- The sequence has two bytes, and the partial sequence has one more. -/
lemma PartialState.slip {a b c : UInt8} {character : ℕ} (h : PartialState seen [a, b, c] src rest)
    (hsome : firstCharacter a ([b, c] ++ src ++ rest) = some (character, 2)) :
    PartialStepTo seen [a, b, c] src (appendCharacter character) false [a] src rest := by
  obtain ⟨char, -, hchar⟩ := exists_of_firstCharacter hsome
  obtain ⟨rfl, htext⟩ := h.slips a b c char rfl hchar
  have hrd := reads_of_some true hsome
  refine ⟨⟨?_, by simp⟩, ⟨.inl (by simp), slipsUnseen_of_length (by simp) _ _, ?_⟩,
    suffix_rfl, by simp⟩
  · exact hrd.1.trans (congrArg (appendCharacter character ++ ·) htext.symm)
  · have hsuf : src ++ rest <:+ [a, b, c] ++ src ++ rest := by
      rw [append_assoc]
      exact suffix_append _ _
    refine (h.harmless.of_suffix hsuf).cons ?_
    exact Nat.lt_trans (toNat_of_encode hchar).2.1 (by decide)

/-- What is left of the partial sequence when `bytes` have been read. -/
structure HandledPartialSequence (seen flush : Bool) (bytes source : List UInt8)
    (decoded : Decoded UInt16) (rest : List UInt8) : Prop where
  reads : Reads seen bytes decoded.output decoded.sawError
    (decoded.partialSequence ++ decoded.source ++ rest)
  pending : Pending decoded.partialSequence
  harmless : Harmless (decoded.partialSequence ++ decoded.source ++ rest)
  source_suffix : decoded.source <:+ source
  wait : decoded.partialSequence ≠ [] → decoded.source = [] ∧ flush = false

lemma HandledPartialSequence.refl {seen flush : Bool} (h : Harmless (src ++ rest)) :
    HandledPartialSequence seen flush (src ++ rest) src ⟨[], [], src, false⟩ rest :=
  ⟨.refl _ _, pending_nil, h, suffix_rfl, fun h => absurd rfl h⟩

lemma HandledPartialSequence.after {seen flush sawError : Bool} {text : List UInt16}
    {decoded : Decoded UInt16} (hrd : Reads seen bytes text sawError bytes') (hsrc : src' <:+ src)
    (h : HandledPartialSequence (seen || sawError) flush bytes' src' decoded rest) :
    HandledPartialSequence seen flush bytes src (decoded.after text sawError) rest :=
  ⟨hrd.trans h.reads, h.pending, h.harmless, h.source_suffix.trans hsrc, h.wait⟩

/-- The bytes of the partial sequence and of the source are read in their order, except for
harmless slips. -/
lemma handle16_spec {flush : Bool} (hrest : flush = true → rest = []) {rounds : ℕ}
    (hrnd : held.length + src.length ≤ rounds) (hstate : PartialState seen held src rest) :
    HandledPartialSequence seen flush (held ++ src ++ rest) src
      (handlePartialSequence16 flush false rounds held src) rest := by
  induction rounds generalizing seen held src with
  | zero =>
    obtain rfl : held = [] := length_eq_zero_iff.mp (by omega)
    exact .refl hstate.harmless
  | succ rounds ih =>
    match held with
    | [] => exact .refl hstate.harmless
    | b :: bs =>
      have hlast {n : ℕ} (hn : n < (b :: bs).length + src.length) : n ≤ rounds := by omega
      have hstep := partialStep_spec b bs src flush hrest
      rw [handlePartialSequence16]
      generalize partialStep b bs src flush = step at hstep ⊢
      -- ASCII, an incomplete sequence, an invalid one, a character
      rcases step with b' | P | ⟨P, src'⟩ | ⟨c, count, P, src'⟩
      · obtain ⟨rfl, hasc⟩ := hstep
        have hto := hstate.ascii hasc
        exact .after hto.reads hto.source_suffix (ih (hlast hto.length_lt) hto.state)
      · obtain ⟨rfl, rfl, hasc, hlt⟩ := hstep
        refine ⟨?_, ?_, ?_, nil_suffix, fun _ => ⟨rfl, rfl⟩⟩
        · rw [append_nil]
          exact .refl _ _
        · rintro b' bs' h
          obtain ⟨rfl, rfl⟩ := cons.inj h
          exact ⟨hasc, hlt⟩
        · rw [append_nil]
          exact hstate.harmless
      · obtain ⟨bs', rfl, happ, -, hsrc, hnone, hlen⟩ := hstep
        have hto := hstate.invalid (cons.inj happ).2 hsrc hnone hlen
        exact .after hto.reads hto.source_suffix (ih (hlast hto.length_lt) hto.state)
      · obtain ⟨bs', rfl, happ, -, hsrc, rfl, hsome, hlen⟩ := hstep
        dsimp only
        by_cases hle : (b :: bs).length ≤ nonASCIISequenceLength b
        · rw [Nat.max_eq_right hle] at hlen
          rw [hlen, Nat.sub_self]
          have hto := hstate.character happ hsrc (hlen ▸ hsome)
          exact .after hto.reads hto.source_suffix (ih (hlast hto.length_lt) hto.state)
        -- more bytes are held than the character has: three, for a sequence of two
        · have hthree : (b :: bs).length ≤ 3 := hstate.filled.cons.resolve_right (by omega)
          have hone := one_lt_sequenceLength
            (Nat.one_le_iff_ne_zero.mp (pos_of_firstCharacter hsome))
          rw [Nat.max_eq_left (by omega)] at hlen
          obtain ⟨hcons, rfl⟩ := append_inj happ hlen
          obtain rfl := (cons.inj hcons).2
          have htwo : nonASCIISequenceLength b = 2 := by omega
          rw [htwo] at hsome ⊢
          match bs' with
          | [x, y] =>
            have hto := hstate.slip hsome
            exact .after hto.reads hto.source_suffix (ih (hlast hto.length_lt) hto.state)
          | [] | [_] | _ :: _ :: _ :: _ =>
            simp only [length_cons, length_nil] at hthree hle
            omega

end WebKit.Text
