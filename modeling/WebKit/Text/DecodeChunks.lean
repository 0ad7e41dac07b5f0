import WebKit.Text.PartialSequence

/-!
# Decoding chunk by chunk

The text does not depend on the chunks where the bytes that the partial sequence confuses make no
difference, and only there.
-/

namespace WebKit.Text

open List

/-! ### Incomplete sequences -/

variable {held : List UInt8}

lemma Pending.filled (h : Pending held) : Filled held := .inl h.length_le

variable {b : UInt8} {bs : List UInt8}

/-- The bytes of one sequence do not begin with a shorter sequence of two bytes. -/
lemma slipsUnseen_of_le (h : (b :: bs).length ≤ nonASCIISequenceLength b) (seen : Bool)
    (after : List UInt8) : SlipsUnseen seen (b :: bs) after := by
  rintro a b' c char hcons hchar
  obtain ⟨rfl, rfl⟩ := cons.inj hcons
  rw [(toNat_of_encode hchar).2.2] at h
  exact absurd h (by simp)

lemma Pending.slipsUnseen (h : Pending held)
    (seen : Bool) (after : List UInt8) : SlipsUnseen seen held after := by
  match held, h with
  | [], _ => exact slipsUnseen_of_length (by simp) seen after
  | b :: bs, h => exact slipsUnseen_of_le (Nat.le_of_lt (h b bs rfl).2) seen after

variable {held src rest : List UInt8}

lemma Pending.partialState (h : Pending held) (hharm : Harmless (held ++ src ++ rest))
    (seen : Bool) : PartialState seen held src rest :=
  ⟨h.filled, h.slipsUnseen seen _, hharm⟩

/-! ### 16-bit characters -/

/-- What is left of a chunk. -/
structure DecodedChunk (seen flush : Bool) (bytes : List UInt8) (decoded : Decoded UInt16)
    (rest : List UInt8) : Prop where
  reads : Reads seen bytes decoded.output decoded.sawError (decoded.partialSequence ++ rest)
  pending : Pending decoded.partialSequence
  source : decoded.source = []
  harmless : Harmless (decoded.partialSequence ++ rest)
  flushed : flush = true → decoded.partialSequence = []

variable {bytes : List UInt8}

lemma DecodedChunk.after {seen flush sawError : Bool} {bytes' rest : List UInt8}
    {text : List UInt16} {decoded : Decoded UInt16} (hrd : Reads seen bytes text sawError bytes')
    (h : DecodedChunk (seen || sawError) flush bytes' decoded rest) :
    DecodedChunk seen flush bytes (decoded.after text sawError) rest :=
  ⟨hrd.trans h.reads, h.pending, h.source, h.harmless, h.flushed⟩

variable {seen flush : Bool}

/-- A round of the loop, given the next one if it is needed. -/
lemma decode16_round {stop rounds : ℕ} {held src rest : List UInt8}
    (hrest : flush = true → rest = [])
    (hhan : HandledPartialSequence seen flush bytes src (handlePartialSequence16 flush false
      (held.length + src.length) held src) rest)
    (hnext : src ≠ [] → ∀ seen P, Pending P → Harmless P →
      DecodedChunk seen true P (decode16 stop true false rounds P []) []) :
    DecodedChunk seen flush bytes (decode16 stop flush false (rounds + 1) held src) rest := by
  rw [decode16]
  generalize handlePartialSequence16 flush false (held.length + src.length)
    held src = handled at hhan ⊢
  dsimp only
  by_cases hemp : handled.partialSequence = []
  -- no bytes are held: the source is decoded, and a flush may need another round
  · obtain ⟨hdec, hsrc, hpend⟩ := decodeSource16_spec stop handled.source (Nat.le_refl _)
    have hnil : src = [] →
        (decodeSource16 stop false handled.source.length handled.source).partialSequence = [] := by
      rintro rfl
      rw [suffix_nil.mp hhan.source_suffix]
      rfl
    have hsuf := hdec.left
    have hrd := hdec.reads (seen || handled.sawError) rest
    have hharm := hhan.harmless
    rw [hsrc, append_nil] at hsuf hrd
    rw [hemp, nil_append] at hharm
    rw [hemp, if_neg (by decide)]
    generalize decodeSource16 stop false handled.source.length handled.source = decoded at *
    have hfst := hhan.reads
    rw [hemp] at hfst
    have hrd := hfst.trans hrd
    have hharm' : Harmless (decoded.partialSequence ++ rest) := by
      obtain ⟨start, hst⟩ := hsuf
      rw [← hst, append_assoc] at hharm
      exact hharm.of_suffix (suffix_append start _)
    split_ifs with hflush
    · rw [Bool.and_eq_true, Bool.not_eq_true', isEmpty_eq_false_iff] at hflush
      obtain ⟨rfl, hne⟩ := hflush
      obtain rfl := hrest rfl
      rw [append_nil decoded.partialSequence] at hrd hharm'
      rw [Decoded.after_source, hsrc]
      refine .after hrd (hnext ?_ _ _ hpend hharm')
      exact fun h => hne (hnil h)
    · refine ⟨hrd, hpend, hsrc, hharm', ?_⟩
      rintro rfl
      simpa using hflush
  · obtain ⟨hsrc, rfl⟩ := hhan.wait hemp
    rw [if_pos (by simpa using hemp)]
    have hrd := hhan.reads
    have hharm := hhan.harmless
    rw [hsrc, append_nil] at hrd hharm
    exact ⟨hrd, hhan.pending, hsrc, hharm, fun h => absurd h Bool.false_ne_true⟩

variable (stop rounds : ℕ)

/-- The rounds that follow one another. -/
lemma decode16_rounds {held src rest : List UInt8} (hrest : flush = true → rest = [])
    (hhan : HandledPartialSequence seen flush bytes src (handlePartialSequence16 flush false
      (held.length + src.length) held src) rest) :
    DecodedChunk seen flush bytes (decode16 stop flush false 2 held src) rest := by
  refine decode16_round hrest hhan fun _ seen P hpend hharm => ?_
  have hstate : PartialState seen P [] [] := hpend.partialState (by simpa using hharm) seen
  have hhan : HandledPartialSequence seen true (P ++ [] ++ []) []
      (handlePartialSequence16 true false (P.length + ([]).length) P []) [] :=
    handle16_spec (fun _ => rfl) (Nat.le_refl _) hstate
  rw [append_nil, append_nil] at hhan
  exact decode16_round (fun _ => rfl) hhan (fun h => absurd rfl h)

lemma decode16_spec (hrest : flush = true → rest = []) (hstate : PartialState seen held src rest) :
    DecodedChunk seen flush (held ++ src ++ rest) (decode16 stop flush false 2 held src) rest :=
  decode16_rounds stop hrest (handle16_spec hrest (Nat.le_refl _) hstate)

lemma handle16_nil (rounds : ℕ) :
    handlePartialSequence16 flush false rounds [] src = ⟨[], [], src, false⟩ := by
  cases rounds <;> rfl

/-- A chunk in the middle that begins without a partial sequence. -/
lemma decode16_nil :
    decode16 stop false false (rounds + 1) [] src = decodeSource16 stop false src.length src := by
  rw [decode16, handle16_nil]
  rfl

/-- Nothing comes after the partial sequence when the source is empty. -/
lemma decode16_rounds_nil (flush : Bool) (held : List UInt8) :
    decode16 stop flush false (rounds + 1) held [] = decode16 stop flush false 1 held [] := by
  have hsrc rounds : (handlePartialSequence16 flush false rounds held []).source = [] := by
    induction rounds generalizing held with
    | zero => cases held <;> rfl
    | succ rounds ih =>
      match held with
      | [] => rfl
      | b :: bs =>
        have hstep := partialStep_spec b bs [] flush fun _ => rfl
        rw [handlePartialSequence16]
        generalize partialStep b bs [] flush = step at hstep ⊢
        rcases step with b' | P | ⟨P, src'⟩ | ⟨c, count, P, src'⟩
        · exact ih bs
        · rfl
        · obtain ⟨bs', -, -, -, hsrc, -⟩ := hstep
          rw [suffix_nil.mp hsrc]
          exact ih _
        · obtain ⟨bs', -, -, -, hsrc, -⟩ := hstep
          rw [suffix_nil.mp hsrc]
          exact ih _
  rw [decode16, decode16]
  simp [hsrc, decodeSource16, Decoded.after]

/-! ### 8-bit characters -/

lemma handle8_nil (rounds : ℕ) :
    handlePartialSequence8 flush rounds [] src = (false, ⟨[], [], src, false⟩) := by
  cases rounds <;> rfl

/-- An incomplete sequence is handled with 8-bit characters as with 16-bit characters, or left to
them. -/
lemma handlePartialSequence8_spec (hpend : Pending held) (src : List UInt8) (flush : Bool) :
    let handle16 := fun held src : List UInt8 => handlePartialSequence16 flush false
      (held.length + src.length) held src
    match handlePartialSequence8 flush (held.length + src.length) held src with
    | (false, handled) => handle16 held src = handled.widen
    | (true, handled) => handled.sawError = false ∧
      handle16 handled.partialSequence handled.source = handle16 held src := by
  intro handle16
  match held with
  | [] =>
    rw [handle8_nil]
    exact handle16_nil _
  | b :: bs =>
    obtain ⟨hasc, hlt⟩ := hpend b bs rfl
    have hstep := partialStep_spec b bs src flush fun _ => rfl
    -- once the sequence has been filled up, the same step is made again
    have hagain {bs' src' : List UInt8} (happ : b :: bs' ++ src' = b :: bs ++ src)
        (hself : partialStep b bs' src' flush = partialStep b bs src flush) :
        handle16 (b :: bs') src' = handle16 (b :: bs) src := by
      have hlen : bs'.length + src'.length = bs.length + src.length := by
        simpa using congrArg length happ
      simp only [handle16, length_cons, Nat.add_right_comm _ 1, hlen]
      rw [handlePartialSequence16, handlePartialSequence16, hself]
      generalize partialStep b bs src flush = step at hstep
      cases step with
      | ascii b' => exact absurd hasc (by simp [hstep.2])
      | _ => rfl
    have hrnd : (b :: bs).length + src.length = bs.length + src.length + 1 := by
      simp [Nat.add_right_comm]
    rw [hrnd, handlePartialSequence8]
    rcases hself : partialStep b bs src flush with b' | P | ⟨P, src'⟩ | ⟨c, count, P, src'⟩
      <;> rw [hself] at hstep
    · exact absurd hasc (by simp [hstep.2])
    · simp only [handle16]
      rw [hrnd, handlePartialSequence16, hself]
      rfl
    · obtain ⟨bs', rfl, happ, hself', -⟩ := hstep
      exact ⟨rfl, hagain happ (hself'.trans hself.symm)⟩
    · obtain ⟨bs', rfl, happ, hself', -, rfl, -, hlen⟩ := hstep
      dsimp only
      split_ifs with hlrg
      · exact ⟨rfl, hagain happ (hself'.trans hself.symm)⟩
      · rw [Nat.max_eq_right (Nat.le_of_lt hlt)] at hlen
        simp only [handle16]
        rw [hrnd, handlePartialSequence16, hself]
        dsimp only
        rw [hlen, Nat.sub_self, take_zero, handle8_nil,
          handle16_nil, appendCharacter_of_le (Nat.not_lt.mp hlrg)]
        rfl

/-- An incomplete sequence at the end needs 16-bit characters. -/
lemma decode8_flush (h : Pending held) (hne : held ≠ []) :
    decode8 stop true false 1 held [] = (true, ⟨[], held, [], false⟩) := by
  obtain ⟨b, bs, rfl⟩ := exists_cons_of_ne_nil hne
  obtain ⟨hasc, hlt⟩ := h b bs rfl
  have hstep : partialStep b bs [] true = .invalid (b :: bs) [] := by
    rw [partialStep, hasc, if_neg Bool.false_ne_true]
    have hmiss : nonASCIISequenceLength b - (b :: bs).length > ([] : List UInt8).length :=
      Nat.sub_pos_of_lt hlt
    rw [if_neg (by omega), if_pos hmiss]
    rfl
  have hhan : handlePartialSequence8 true ((b :: bs).length + ([] : List UInt8).length)
      (b :: bs) [] = (true, ⟨[], b :: bs, [], false⟩) := by
    show handlePartialSequence8 true (bs.length + 1) (b :: bs) [] = _
    rw [handlePartialSequence8, hstep]
  rw [decode8, hhan]
  rfl

/-- A chunk is decoded as with the 16-bit loops alone. -/
lemma decode_eq_decode16 (chunk : Chunk) (hpend : Pending held) (flush : Bool) :
    decode held chunk flush false = decode16 chunk.endAddress flush false 2 held chunk.bytes := by
  have hhan := handlePartialSequence8_spec hpend chunk.bytes flush
  rw [decode, decode8]
  generalize handlePartialSequence8 flush (held.length + chunk.bytes.length)
    held chunk.bytes = result at hhan ⊢
  -- the 8-bit loops go through, or hand over to the 16-bit ones at the first other character
  obtain ⟨_ | _, handled⟩ := result <;> dsimp only at hhan ⊢
  · rw [if_neg Bool.false_ne_true, decode16, hhan]
    by_cases hemp : handled.partialSequence = []
    · obtain ⟨-, hsrc, hpend⟩ := decodeSource16_spec chunk.endAddress handled.source (Nat.le_refl _)
      have hwid := widens_decodeSource8 chunk.endAddress handled.source (Nat.le_refl _)
      generalize decodeSource8 chunk.endAddress false handled.source.length handled.source =
        result at hwid ⊢
      obtain ⟨_ | _, decoded⟩ := result
      · rw [Widens] at hwid
        rw [hwid] at hsrc hpend
        have hsrc : decoded.source = [] := hsrc
        have hpend : Pending decoded.partialSequence := hpend
        by_cases hflush : (flush && !decoded.partialSequence.isEmpty) = true
        · obtain ⟨rfl, hne⟩ : flush = true ∧ decoded.partialSequence ≠ [] := by
            simpa using hflush
          simp [Decoded.widen, Decoded.after, hemp, hwid, hne, hsrc,
            decode8_flush chunk.endAddress hpend hne, decode16_rounds_nil chunk.endAddress 1]
        · simp [Decoded.widen, Decoded.after, hemp, hwid, hflush]
      · obtain ⟨hnil, hwid⟩ := hwid
        have hrest : decode16 chunk.endAddress flush false 2 [] decoded.source =
            let rest := decodeSource16 chunk.endAddress false decoded.source.length decoded.source
            if flush && !rest.partialSequence.isEmpty then
              (decode16 chunk.endAddress flush false 1 rest.partialSequence rest.source).after
                rest.output rest.sawError
            else rest := by
          rw [decode16, handle16_nil]
          rfl
        have hwid := hwid _ (Nat.le_refl _)
        generalize decodeSource16 chunk.endAddress false decoded.source.length decoded.source =
          rest at hrest hwid
        by_cases hflush : (flush && !rest.partialSequence.isEmpty) = true <;>
          simp [Decoded.widen, Decoded.after, hemp, hnil, hwid, hrest, hflush, Bool.or_assoc]
    · rw [if_pos (by simpa using hemp), if_pos (by simpa [Decoded.widen] using hemp)]
  · rw [if_pos rfl, hhan.1]
    dsimp only
    rw [decode16, hhan.2]
    rfl

/-! ### Chunks -/

/-- A chunk is decoded up to an incomplete sequence. -/
lemma decode_spec (chunk : Chunk) (hrest : flush = true → rest = []) (hpend : Pending held)
    (hharm : Harmless (held ++ chunk.bytes ++ rest)) :
    DecodedChunk false flush (held ++ chunk.bytes ++ rest)
      (decode held chunk flush false) rest := by
  rw [decode_eq_decode16 chunk hpend]
  exact decode16_spec chunk.endAddress hrest (hpend.partialState hharm false)

/-- The bytes of the chunks. -/
def bytesOf (chunks : List Chunk) : List UInt8 :=
  chunks.flatMap Chunk.bytes

/-- Harmless bytes are decoded in their order. -/
theorem decodeChunks_eq_decodeBytes {chunks : List Chunk} (hpend : Pending held)
    (hne : chunks = [] → held = []) (hharm : Harmless (held ++ bytesOf chunks)) :
    decodeChunks false held chunks = decodeBytes (held ++ bytesOf chunks) := by
  induction chunks generalizing held with
  | nil =>
    rw [hne rfl]
    exact decodeBytes_nil.symm
  | cons chunk chunks ih =>
    have hbyt : held ++ bytesOf (chunk :: chunks) = held ++ chunk.bytes ++ bytesOf chunks := by
      rw [append_assoc]
      rfl
    rw [hbyt] at hharm ⊢
    have hrest : chunks.isEmpty = true → bytesOf chunks = [] := by
      intro h
      rw [isEmpty_iff.mp h]
      rfl
    have hdec := decode_spec chunk hrest hpend hharm
    have hih := ih hdec.pending (fun h => hdec.flushed (by rw [h]; rfl)) hdec.harmless
    rw [decodeChunks, hih]
    exact Prod.ext hdec.reads.1.symm (by simpa using hdec.reads.2.symm)

/-! ### Slips -/

variable {lead : UInt8}

lemma isASCII_eq_false (h : nonASCIISequenceLength lead = 4) : isASCII lead = false := by
  rw [Bool.eq_false_iff, ne_eq, isASCII_iff]
  have hlead := (sequenceLength_eq_four_iff lead).mp h
  omega

/-- The bytes after the first one of an encoding. -/
lemma toNat_lt_of_mem_tail (char : Char) :
    ∀ byte ∈ (String.utf8EncodeChar char).tail, byte.toNat < 0xC0 := by
  have hbyte n : (UInt8.ofNat (n % 64 + 128)).toNat < 0xC0 := by
    rw [UInt8.toNat_ofNat']
    omega
  intro byte hmem
  rw [String.utf8EncodeChar] at hmem
  split_ifs at hmem
  · simp at hmem
  all_goals
    simp only [tail_cons, mem_cons, not_mem_nil, or_false] at hmem
  · rw [hmem]
    exact hbyte _
  · rcases hmem with rfl | rfl <;> exact hbyte _
  · rcases hmem with rfl | rfl | rfl <;> exact hbyte _

lemma toNat_lt_of_firstCharacter {c count : ℕ} (h : firstCharacter b bs = some (c, count)) :
    ∀ byte ∈ bs.take (count - 1), byte.toNat < 0xC0 := by
  obtain ⟨char, -, henc⟩ := exists_of_firstCharacter h
  obtain ⟨n, rfl⟩ := Nat.exists_eq_add_of_le' (pos_of_firstCharacter h)
  have htail := toNat_lt_of_mem_tail char
  rwa [henc] at htail

variable {lead a b : UInt8}

/-- A list without `lead` in front of the source leaves the end of it. -/
lemma suffix_of_not_mem {start src : List UInt8} (h : lead ∉ start)
    (hsuf : [lead, a, b] <:+ start ++ src) : [lead, a, b] <:+ src := by
  induction start with
  | nil => exact hsuf
  | cons first start ih =>
    rw [mem_cons, not_or] at h
    rcases suffix_cons_iff.mp hsuf with heq | hsuf
    · exact absurd (cons.inj heq).1 h.1
    · exact ih h.2 hsuf

variable {a : UInt8}

/-- What a step on the source leaves when the source ends with the first three bytes of a longer
sequence. -/
lemma sourceStep_keeps {b first : UInt8}
    (hlead : nonASCIISequenceLength lead = 4) (hsuf : [lead, a, b] <:+ first :: bytes) :
    match sourceStep stop first bytes with
    | .ascii _ src => [lead, a, b] <:+ src
    | .incomplete => True
    | .invalid => [lead, a, b] <:+ bytes
    | .character _ count => [lead, a, b] <:+ (first :: bytes).drop count := by
  rcases suffix_cons_iff.mp hsuf with heq | hbyt
  · obtain ⟨rfl, rfl⟩ := cons.inj heq
    rw [sourceStep, isASCII_eq_false hlead]
    rw [hlead]
    trivial
  have hstep := sourceStep_spec stop first bytes []
  generalize sourceStep stop first bytes = step at hstep ⊢
  rcases step with ⟨copied, src⟩ | _ | _ | ⟨c, count⟩
  · obtain ⟨happ, hall, -⟩ := hstep
    rw [← happ] at hsuf
    refine suffix_of_not_mem (fun hmem => ?_) hsuf
    rw [all_eq_true] at hall
    exact absurd (hall lead hmem) (by simp [isASCII_eq_false hlead])
  · trivial
  · exact hbyt
  · obtain ⟨hsome, hle⟩ := hstep
    rw [append_nil] at hsome
    obtain ⟨n, rfl⟩ := Nat.exists_eq_add_of_le' (pos_of_firstCharacter hsome)
    rw [← take_append_drop n bytes] at hbyt
    refine suffix_of_not_mem (fun hmem => ?_) hbyt
    have hlt := toNat_lt_of_firstCharacter hsome lead hmem
    have hge := (sequenceLength_eq_four_iff lead).mp hlead
    omega

lemma decodeSource16_keeps (hlead : nonASCIISequenceLength lead = 4) (hsuf : [lead, a, b] <:+ src) :
    [lead, a, b] <:+ (decodeSource16 stop false rounds src).partialSequence ++
      (decodeSource16 stop false rounds src).source := by
  induction rounds generalizing src with
  | zero => exact hsuf
  | succ rounds ih =>
    match src with
    | [] => exact hsuf
    | first :: bytes =>
      have hstep := sourceStep_keeps stop hlead hsuf
      rw [decodeSource16]
      generalize sourceStep stop first bytes = step at hstep ⊢
      rcases step with ⟨copied, src⟩ | _ | _ | ⟨c, count⟩
      · exact ih hstep
      · simpa using hsuf
      · exact ih hstep
      · exact ih hstep

/-- A first chunk that ends with three bytes of a longer sequence leaves these bytes. -/
lemma decode_first (before : List UInt8) (a b : UInt8) (stop : ℕ)
    (hlead : nonASCIISequenceLength lead = 4) :
    ∃ text sawError, decode [] ⟨before ++ [lead, a, b], stop⟩ false false =
        ⟨text, [lead, a, b], [], sawError⟩ ∧
      ∀ rest, Reads false (before ++ [lead, a, b] ++ rest) text sawError
        ([lead, a, b] ++ rest) := by
  have hkp := decodeSource16_keeps stop (before ++ [lead, a, b]).length hlead
    (suffix_append before [lead, a, b])
  rw [decode_eq_decode16 _ pending_nil, decode16_nil]
  obtain ⟨hdec, hsrc, hpend⟩ := decodeSource16_spec stop (before ++ [lead, a, b]) (Nat.le_refl _)
  generalize decodeSource16 stop false (before ++ [lead, a, b]).length
    (before ++ [lead, a, b]) = decoded at *
  rw [hsrc, append_nil] at hkp
  have hinc := hkp.eq_of_length_le hpend.length_le
  refine ⟨decoded.output, decoded.sawError, ?_, fun rest => ?_⟩
  · rw [hinc, ← hsrc]
  · have hrd := hdec.reads false rest
    rwa [hsrc, ← hinc] at hrd

/-- No sequence begins with the first byte of a longer sequence than the next bytes give. -/
lemma firstCharacter_lead (hlead : nonASCIISequenceLength lead = 4)
    (ha : 0xC2 ≤ a.toNat) (bytes : List UInt8) : firstCharacter lead (a :: bytes) = none := by
  rw [Option.eq_none_iff_forall_ne_some]
  rintro ⟨c, count⟩ hsome
  have hcnt : nonASCIISequenceLength lead = count := by
    rcases firstCharacter_eq_some.mp hsome with ⟨hasc, -⟩ | ⟨-, hcnt, -⟩
    · exact absurd hasc (by simp [isASCII_eq_false hlead])
    · exact hcnt
  rw [hlead] at hcnt
  have hlt := toNat_lt_of_firstCharacter hsome a (by simp [← hcnt])
  omega

lemma decodeNonASCIISequence_lead (ha : 0xC2 ≤ a.toNat) (lead b c : UInt8) :
    decodeNonASCIISequence [lead, a, b, c] = none := by
  rw [Option.eq_none_iff_forall_ne_some]
  intro n hsome
  have hle := ((decodeSequence_four_iff lead a b c n).mp hsome).2.2.2.1
  omega

/-- The four bytes are no sequence. -/
lemma partialStep_lead {b c : UInt8} (hlead : nonASCIISequenceLength lead = 4)
    (ha : 0xC2 ≤ a.toNat) (after : List UInt8) :
    partialStep lead [a, b] (c :: after) true = .invalid [lead, a, b, c] after := by
  simp [partialStep, isASCII_eq_false hlead, hlead, decodeNonASCIISequence_lead ha]

variable {char : Char}

/-- The sequence of two bytes is found in the partial sequence. -/
lemma partialStep_two {b : UInt8} (hchar : String.utf8EncodeChar char = [a, b])
    (c : UInt8) (after : List UInt8) :
    partialStep a [b, c] after true = .character char.toNat 2 [a, b, c] after := by
  have hfst := firstCharacter_encode char hchar []
  rcases firstCharacter_eq_some.mp hfst with ⟨-, -, h⟩ | ⟨hasc, hlen, -, -, hdec⟩
  · exact absurd h (by simp)
  · have hdec : decodeNonASCIISequence [a, b] = some char.toNat := by simpa using hdec
    simp [partialStep, hasc, hlen, hdec]

section

variable (hlead : nonASCIISequenceLength lead = 4) (hchar : String.utf8EncodeChar char = [a, b])

include hlead hchar

variable (c : UInt8)

/-- After the sequence of two bytes, its first byte is left instead of the byte that follows. -/
lemma handlePartialSequence16_slip (after : List UInt8) (rounds : ℕ) :
    handlePartialSequence16 true false (rounds + 2) [lead, a, b] (c :: after) =
      ((handlePartialSequence16 true false rounds [a] after).after
        (appendCharacter char.toNat) false).after [replacementCharacter] true := by
  rw [handlePartialSequence16, partialStep_lead hlead (toNat_of_encode hchar).1 after]
  dsimp only
  rw [tail_cons, handlePartialSequence16, partialStep_two hchar c after]
  rfl

variable {after : List UInt8}

/-- The second chunk is decoded as if `a` stood in it instead of `c`. -/
lemma decode_second (hharm : Harmless after) (stop : ℕ) :
    DecodedChunk false true (lead :: a :: b :: a :: after)
      (decode [lead, a, b] ⟨c :: after, stop⟩ true false) [] := by
  obtain ⟨ha, ha', -⟩ := toNat_of_encode hchar
  have hpend : Pending [lead, a, b] := by
    rintro _ _ ⟨⟩
    exact ⟨isASCII_eq_false hlead, by simp [hlead]⟩
  have hstate : PartialState true [a] after [] := by
    refine ⟨.inl (by simp), slipsUnseen_of_length (by simp) _ _, ?_⟩
    rw [append_nil]
    refine hharm.cons ?_
    exact Nat.lt_trans ha' (by decide)
  have hrest := handle16_spec (fun _ : true = true => rfl)
    (Nat.add_comm 1 after.length ▸ Nat.le_succ _ : [a].length + after.length ≤ after.length + 2)
    hstate
  have hlen : [lead, a, b].length + (c :: after).length = after.length + 2 + 2 :=
    Nat.add_left_comm 3 after.length 1
  rw [decode_eq_decode16 _ hpend]
  refine decode16_rounds stop (fun _ => rfl) ?_
  rw [hlen, handlePartialSequence16_slip hlead hchar]
  refine .after (reads_of_none _ (firstCharacter_lead hlead ha _)) (suffix_cons c after) ?_
  refine .after (reads_of_some _ (firstCharacter_encode char hchar _)) suffix_rfl ?_
  simpa using hrest

/-- The bytes before the slip. -/
lemma reads_lead (seen : Bool) (bytes : List UInt8) :
    Reads seen (lead :: a :: b :: bytes) (replacementCharacter :: appendCharacter char.toNat) true
      bytes := by
  have ha := (toNat_of_encode hchar).1
  have hrd := reads_of_none seen (firstCharacter_lead hlead ha (b :: bytes))
  exact hrd.trans (reads_of_some _ (firstCharacter_encode char hchar bytes))

/-- The chunks that meet inside of the longer sequence are decoded as if `a` stood in the place of
`c`. -/
lemma decodeChunks_slip (before : List UInt8) (hharm : Harmless after) (stop stop' : ℕ) :
    ∃ text sawError,
      Reads false (before ++ lead :: a :: b :: c :: after) text sawError (c :: after) ∧
      (decodeChunks false [] [⟨before ++ [lead, a, b], stop⟩,
        ⟨c :: after, stop'⟩]).1 = text ++ (decodeBytes (a :: after)).1 := by
  obtain ⟨text, sawError, hfst, hrd⟩ := decode_first before a b stop hlead
  have hsnd := decode_second hlead hchar c hharm stop'
  have hbef := (hrd (c :: after)).trans (reads_lead hlead hchar _ (c :: after))
  rw [append_assoc] at hbef
  refine ⟨_, _, hbef, ?_⟩
  have houtput := hsnd.reads.1
  rw [hsnd.flushed rfl, append_nil, decodeBytes_nil,
    (reads_lead hlead hchar false (a :: after)).1] at houtput
  rw [decodeChunks, isEmpty_cons, hfst]
  simp [decodeChunks, ← houtput]

end

/-- The codec decodes the bytes in the same way however they are split into chunks, and gives their
decoding, exactly if the slips are harmless. -/
theorem decodeChunks_eq_iff_harmless (bytes : List UInt8) :
    (∀ chunks, bytesOf chunks = bytes →
      Decodes bytes (decodeChunks false [] chunks).1 (decodeChunks false [] chunks).2 ∧
      ∀ endAddress, decodeChunks false [] chunks = decodeChunks false [] [⟨bytes, endAddress⟩]) ↔
    Harmless bytes := by
  constructor
  · intro h
    have hsame n : ∀ (before after) (lead a b c) char,
        after.length = n → bytes = before ++ lead :: a :: b :: c :: after → 0xF0 ≤ lead →
          lead ≤ 0xF4 → String.utf8EncodeChar char = [a, b] →
            SameText (a :: after) (c :: after) := by
      -- The last slip shows, since none follows that does.
      induction n using Nat.strongRecOn with
      | _ n ih =>
        intro before after lead a b c char hn hbytes hle hge hchar
        have hharmless : Harmless after := by
          intro before' after' lead' a' b' c' char' hafter
          apply ih after'.length _ (before ++ lead :: a :: b :: c :: before') after' lead' a' b' c'
            char' rfl
          · rw [hbytes, hafter]
            simp
          · rw [← hn, hafter]
            simp
            omega
        have hlead : nonASCIISequenceLength lead = 4 := by
          exact (sequenceLength_eq_four_iff lead).mpr ⟨hle, Nat.lt_succ_of_le hge⟩
        obtain ⟨text, sawError, hreads, htext⟩ :=
          decodeChunks_slip hlead hchar c before hharmless 0 0
        rw [← hbytes] at hreads
        have hchunks := (h [⟨before ++ [lead, a, b], 0⟩, ⟨c :: after, 0⟩] (by
          simp [bytesOf, hbytes])).1.eq_decodeBytes
        rw [sameText_iff, ← append_cancel_left_eq text, ← htext, ← hreads.1, hchunks]
    intro before after lead a b c char
    exact hsame _ before after lead a b c char rfl
  · intro hharmless chunks hchunks
    have hdecode chunks (hchunks : bytesOf chunks = bytes) :
        decodeChunks false [] chunks = decodeBytes bytes := by
      rw [decodeChunks_eq_decodeBytes pending_nil (fun _ => rfl)] <;> simp [hchunks, hharmless]
    refine ⟨decodes_iff.mpr (hdecode chunks hchunks).symm, fun endAddress => ?_⟩
    rw [hdecode chunks hchunks, hdecode _ (by simp [bytesOf])]

theorem decodeChunks_two_bytes :
    Harmless [0xC3, 0xA9] ∧ ∀ chunks, bytesOf chunks = [0xC3, 0xA9] →
      Decodes [0xC3, 0xA9] (decodeChunks false [] chunks).1 (decodeChunks false [] chunks).2 ∧
      ∀ endAddress,
        decodeChunks false [] chunks = decodeChunks false [] [⟨[0xC3, 0xA9], endAddress⟩] := by
  have hharmless : Harmless [0xC3, 0xA9] := by
    intro before after lead a b c char h
    have hlength := congrArg length h
    simp at hlength
    omega
  exact ⟨hharmless, (decodeChunks_eq_iff_harmless [0xC3, 0xA9]).mpr hharmless⟩

/-- The last byte is lost when the first byte comes in a chunk of its own. -/
theorem decodeChunks_splits_lead : decodeChunks false [] [⟨[0xF0], 0⟩, ⟨[0xC3, 0xA9, 0x41], 0⟩] ≠
    decodeChunks false [] [⟨[0xF0, 0xC3, 0xA9, 0x41], 0⟩] := by
  decide

lemma Harmless.encode (h : Harmless bytes) (char : Char) :
    Harmless (String.utf8EncodeChar char ++ bytes) := by
  have htail := toNat_lt_of_mem_tail char
  obtain ⟨byte, bs, henc⟩ := exists_cons_of_ne_nil (utf8EncodeChar_ne_nil char)
  rw [henc] at htail ⊢
  rintro (_ | ⟨_, before⟩) after lead a b c d hbyt hlead hle hd
  all_goals obtain ⟨rfl, hbs⟩ := cons.inj hbyt
  · have hlen := (sequenceLength_eq_four_iff byte).mpr ⟨hlead, Nat.lt_succ_of_le hle⟩
    have hnone := firstCharacter_lead hlen (toNat_of_encode hd).1 (b :: c :: after)
    rw [← hbs] at hnone
    cases (firstCharacter_encode char henc bytes).symm.trans hnone
  · have hharm : Harmless (bs ++ bytes) := by
      clear henc hbs hbyt
      induction bs with
      | nil => exact h
      | cons _ bs ih =>
        rw [tail_cons, forall_mem_cons] at htail
        exact (ih htail.2).cons (htail.1.trans (by decide))
    exact hharm before after lead a b c d hbs hlead hle hd

/-- Encoded text is decoded to its characters, however it is cut. -/
theorem decodeChunks_encode (chars : List Char) :
    Decodes (chars.flatMap String.utf8EncodeChar) (chars.flatMap utf16) false ∧
    ∀ chunks, bytesOf chunks = chars.flatMap String.utf8EncodeChar →
      decodeChunks false [] chunks = (chars.flatMap utf16, false) := by
  suffices h : Decodes (chars.flatMap String.utf8EncodeChar) (chars.flatMap utf16) false ∧
      Harmless (chars.flatMap String.utf8EncodeChar) by
    refine ⟨h.1, fun chunks hbyt => ?_⟩
    rw [← hbyt] at h
    rw [decodeChunks_eq_decodeBytes pending_nil (fun _ => rfl) h.2]
    exact h.1.eq_decodeBytes
  induction chars with
  | nil => exact ⟨.nil, by rintro (_ | _) <;> simp⟩
  | cons char chars ih => exact ⟨.character char ih.1, ih.2.encode char⟩

end WebKit.Text
