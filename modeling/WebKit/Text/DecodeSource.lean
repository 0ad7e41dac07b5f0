import WebKit.Text.UTF8Sequences

/-!
# Decoding the source

What the codec's steps find at the beginning of the source and of the partial sequence, and what its
loops over the source read.
-/

namespace WebKit.Text

open List

/-- The beginning of a sequence that is not complete. -/
def Pending (partialSequence : List UInt8) : Prop :=
  ∀ b bs, partialSequence = b :: bs →
    isASCII b = false ∧ partialSequence.length < nonASCIISequenceLength b

lemma pending_nil : Pending [] := by
  intro b bs h
  cases h

lemma Pending.length_le {held : List UInt8} (h : Pending held) : held.length ≤ 3 := by
  match held, h with
  | [], _ => simp
  | b :: bs, h =>
    have hlt := (h b bs rfl).2
    have hle := sequenceLength_le b
    omega

/-! ### What a step finds -/

variable {b : UInt8}

lemma firstCharacter_of_isASCII (h : isASCII b = true) (bs : List UInt8) :
    firstCharacter b bs = some (b.toNat, 1) :=
  if_pos h

lemma appendCharacter_uint8 (b : UInt8) : appendCharacter b.toNat = [b.toUInt16] := by
  have hlt := b.toNat_lt
  rw [appendCharacter, if_pos (by omega), UInt16.ofNat_uInt8ToNat]

/-- A sequence is found when its bytes are there. -/
lemma firstCharacter_append (bs : List UInt8) (hasc : isASCII b = false)
    (hzero : nonASCIISequenceLength b ≠ 0) (h : nonASCIISequenceLength b ≤ (b :: bs).length)
    (rest : List UInt8) : firstCharacter b (bs ++ rest) =
      (decodeNonASCIISequence ((b :: bs).take (nonASCIISequenceLength b))).map
        (·, nonASCIISequenceLength b) := by
  have hlong : ¬ nonASCIISequenceLength b > (b :: (bs ++ rest)).length := by
    simp only [length_cons, length_append] at h ⊢
    omega
  rw [firstCharacter, hasc, if_neg Bool.false_ne_true]
  rw [if_neg hzero, if_neg hlong, ← cons_append, take_append_of_le_length h]

lemma firstCharacter_of_zero (hasc : isASCII b = false)
    (hzero : nonASCIISequenceLength b = 0) (bs : List UInt8) : firstCharacter b bs = none := by
  rw [firstCharacter, hasc]
  exact if_pos hzero

variable {bs : List UInt8}

lemma firstCharacter_of_lt (hasc : isASCII b = false)
    (h : (b :: bs).length < nonASCIISequenceLength b) : firstCharacter b bs = none := by
  rw [firstCharacter, hasc, if_neg Bool.false_ne_true]
  rw [if_neg (by omega), if_pos h]

/-- What a step on the partial sequence finds in the bytes that come, where `rest` follows the
source. -/
lemma partialStep_spec (b : UInt8) (bs src : List UInt8) (flush : Bool) {rest : List UInt8}
    (hrest : flush = true → rest = []) :
    match partialStep b bs src flush with
    | .ascii b' => b' = b ∧ isASCII b = true
    | .wait held =>
      held = b :: bs ++ src ∧ flush = false ∧ isASCII b = false ∧
        held.length < nonASCIISequenceLength b
    | .invalid held src' =>
      ∃ bs', held = b :: bs' ∧ held ++ src' = b :: bs ++ src ∧
        partialStep b bs' src' flush = .invalid held src' ∧
        src' <:+ src ∧ firstCharacter b (bs ++ src ++ rest) = none ∧
        (held = b :: bs ∨ held.length = nonASCIISequenceLength b)
    | .character c count held src' =>
      ∃ bs', held = b :: bs' ∧ held ++ src' = b :: bs ++ src ∧
        partialStep b bs' src' flush = .character c count held src' ∧
        src' <:+ src ∧ nonASCIISequenceLength b = count ∧
        firstCharacter b (bs ++ src ++ rest) = some (c, count) ∧
        held.length = max (b :: bs).length count := by
  generalize hself : partialStep b bs src flush = step
  have hstep := hself
  rw [partialStep] at hstep
  by_cases hasc : isASCII b = true
  · rw [if_pos hasc] at hstep
    subst hstep
    exact ⟨rfl, hasc⟩
  rw [if_neg hasc] at hstep
  rw [Bool.not_eq_true] at hasc
  dsimp only at hstep
  by_cases hzero : nonASCIISequenceLength b = 0
  · rw [if_pos hzero] at hstep
    subst hstep
    exact ⟨bs, rfl, rfl, hself, suffix_rfl, firstCharacter_of_zero hasc hzero _, .inl rfl⟩
  rw [if_neg hzero] at hstep
  -- the source may end before the sequence does: then the step waits, or gives up on a flush
  by_cases hmiss : nonASCIISequenceLength b - (b :: bs).length > src.length
  · rw [if_pos hmiss] at hstep
    have hshort : (b :: (bs ++ src)).length < nonASCIISequenceLength b := by
      simp only [length_cons, length_append] at hmiss ⊢
      omega
    cases flush with
    | true =>
      subst hstep
      refine ⟨bs, rfl, rfl, hself, suffix_rfl, ?_, .inl rfl⟩
      rw [hrest rfl, append_nil]
      exact firstCharacter_of_lt hasc hshort
    | false =>
      subst hstep
      exact ⟨rfl, rfl, hasc, hshort⟩
  · rw [if_neg hmiss] at hstep
    -- the missing bytes are taken from the source, and what follows them does not matter
    generalize hm : nonASCIISequenceLength b - (b :: bs).length = missing at hmiss hstep
    have hlen : (b :: bs ++ src.take missing).length =
        max (b :: bs).length (nonASCIISequenceLength b) := by
      simp only [length_append, length_take]
      omega
    have hfst := firstCharacter_append (bs ++ src.take missing) hasc hzero
      (by rw [← cons_append, hlen]; exact Nat.le_max_right _ _)
      (src.drop missing ++ rest)
    have happ : bs ++ src.take missing ++ (src.drop missing ++ rest) = bs ++ src ++ rest := by
      rw [← append_assoc, append_assoc bs, take_append_drop]
    have hall : b :: bs ++ src.take missing ++ src.drop missing = b :: bs ++ src := by
      simp
    -- a step on the filled sequence takes nothing more, so it decides the same
    have hagain : partialStep b (bs ++ src.take missing) (src.drop missing) flush = step := by
      have hnone : nonASCIISequenceLength b - (b :: bs ++ src.take missing).length = 0 := by
        omega
      rw [partialStep, hasc, if_neg Bool.false_ne_true]
      rw [if_neg hzero, ← cons_append, hnone, if_neg (Nat.not_lt_zero _), take_zero,
        drop_zero, append_nil, hstep]
    rw [happ] at hfst
    rcases hdec : decodeNonASCIISequence
      ((b :: bs ++ src.take missing).take (nonASCIISequenceLength b)) with _ | c <;>
      rw [hdec] at hstep <;> subst hstep
    · refine ⟨bs ++ src.take missing, rfl, hall, hagain, drop_suffix missing src,
        by rw [hfst, ← cons_append, hdec, Option.map_none], ?_⟩
      by_cases hle : nonASCIISequenceLength b ≤ (b :: bs).length
      · left
        rw [← hm, Nat.sub_eq_zero_of_le hle, take_zero, append_nil]
      · right
        omega
    · exact ⟨bs ++ src.take missing, rfl, hall, hagain, drop_suffix missing src, rfl,
        by rw [hfst, ← cons_append, hdec, Option.map_some], hlen⟩

/-! ### The source -/

lemma copyASCIIMachineWords_spec (rounds : ℕ) (src : List UInt8) :
    (copyASCIIMachineWords rounds src).1 ++ (copyASCIIMachineWords rounds src).2 = src ∧
      (copyASCIIMachineWords rounds src).1.all isASCII = true := by
  induction rounds generalizing src with
  | zero => exact ⟨rfl, rfl⟩
  | succ rounds ih =>
    rw [copyASCIIMachineWords]
    split_ifs with hword
    · obtain ⟨happ, hall⟩ := ih (src.drop machineWordSize)
      rw [Bool.and_eq_true] at hword
      constructor
      · simp [happ]
      · simp [hword.2, hall]
    · exact ⟨rfl, rfl⟩

variable (stop : ℕ) (src : List UInt8) (seen : Bool)

/-- The words of the fast path hold ASCII characters of the source, and at least one is copied. -/
lemma copyASCII_spec (hb : isASCII b = true) :
    (copyASCII stop b bs).1 ++ (copyASCII stop b bs).2 = b :: bs ∧
      (copyASCII stop b bs).1.all isASCII = true ∧ (copyASCII stop b bs).1 ≠ [] := by
  obtain ⟨happ, hall⟩ := copyASCIIMachineWords_spec (b :: bs).length (b :: bs)
  rw [copyASCII]
  split_ifs with halig
  · generalize copyASCIIMachineWords (b :: bs).length (b :: bs) = words at happ hall
    obtain ⟨copied, src⟩ := words
    match src with
    | [] =>
      refine ⟨happ, hall, ?_⟩
      rintro rfl
      cases happ
    | c :: cs =>
      dsimp only
      split_ifs with hc
      · refine ⟨by rw [← happ, append_assoc]; rfl, ?_, by simp⟩
        rw [all_append, hall, all_cons, hc]
        rfl
      · refine ⟨happ, hall, ?_⟩
        -- The first character is ASCII.
        rintro rfl
        rw [nil_append, cons.injEq] at happ
        exact hc (happ.1 ▸ hb)
  · exact ⟨rfl, by simp [hb], by simp⟩

/-- What a step on the source finds, where `rest` follows the source. -/
lemma sourceStep_spec (b : UInt8) (bs rest : List UInt8) : match sourceStep stop b bs with
    | .ascii copied src =>
      copied ++ src = b :: bs ∧ copied.all isASCII = true ∧ copied ≠ []
    | .incomplete => isASCII b = false ∧ (b :: bs).length < nonASCIISequenceLength b
    | .invalid => firstCharacter b (bs ++ rest) = none
    | .character c count =>
      firstCharacter b (bs ++ rest) = some (c, count) ∧ count ≤ (b :: bs).length := by
  rw [sourceStep]
  by_cases hasc : isASCII b = true
  · rw [if_pos hasc]
    exact copyASCII_spec stop hasc
  rw [if_neg hasc]
  rw [Bool.not_eq_true] at hasc
  by_cases hzero : nonASCIISequenceLength b = 0
  · rw [if_pos hzero]
    exact firstCharacter_of_zero hasc hzero _
  rw [if_neg hzero]
  by_cases hlong : nonASCIISequenceLength b > (b :: bs).length
  · rw [if_pos hlong]
    exact ⟨hasc, hlong⟩
  · rw [if_neg hlong]
    have hfst := firstCharacter_append bs hasc hzero (Nat.not_lt.mp hlong) rest
    rcases hdec : decodeNonASCIISequence ((b :: bs).take (nonASCIISequenceLength b)) with _ | c
    · simp [hfst, hdec]
    · rw [hfst, hdec]
      exact ⟨rfl, Nat.not_lt.mp hlong⟩

/-- Each step passes a byte. -/
lemma sourceStep_lt (b : UInt8) (bs : List UInt8) : match sourceStep stop b bs with
    | .ascii _ src => src.length < (b :: bs).length
    | .character _ count => ((b :: bs).drop count).length < (b :: bs).length
    | _ => True := by
  have hstep := sourceStep_spec stop b bs []
  generalize sourceStep stop b bs = step at hstep ⊢
  rcases step with ⟨copied, src⟩ | _ | _ | ⟨c, count⟩
  · obtain ⟨happ, -, hne⟩ := hstep
    have hpos := length_pos_iff.mpr hne
    rw [← happ, length_append]
    omega
  · trivial
  · trivial
  · have hpos := pos_of_firstCharacter hstep.1
    simp only [length_drop]
    omega

/-! ### What the bytes give -/

/-- The bytes give a text, and an error or none, before the rest of them. An error that was `seen`
before hides errors. -/
def Reads (seen : Bool) (bytes : List UInt8) (text : List UInt16) (sawError : Bool)
    (rest : List UInt8) : Prop :=
  (decodeBytes bytes).1 = text ++ (decodeBytes rest).1 ∧
    (seen || (decodeBytes bytes).2) = (seen || sawError || (decodeBytes rest).2)

lemma Reads.refl (bytes : List UInt8) : Reads seen bytes [] false bytes := by
  simp [Reads]

lemma Reads.trans {seen sawError sawError' : Bool} {bytes rest rest' : List UInt8}
    {text text' : List UInt16} (h : Reads seen bytes text sawError rest)
    (h' : Reads (seen || sawError) rest text' sawError' rest') :
    Reads seen bytes (text ++ text') (sawError || sawError') rest' := by
  refine ⟨by rw [h.1, h'.1, append_assoc], ?_⟩
  rw [h.2, h'.2, Bool.or_assoc seen]

lemma reads_of_some {c count : ℕ} (h : firstCharacter b bs = some (c, count)) :
    Reads seen (b :: bs) (appendCharacter c) false ((b :: bs).drop count) := by
  rw [Reads, decodeBytes_of_some h]
  simp

lemma reads_of_none
    (h : firstCharacter b bs = none) : Reads seen (b :: bs) [replacementCharacter] true bs := by
  rw [Reads, decodeBytes_of_none h]
  simp

lemma reads_ascii {copied : List UInt8} (h : copied.all isASCII = true) (src : List UInt8) :
    Reads seen (copied ++ src) (copied.map UInt8.toUInt16) false src := by
  induction copied with
  | nil => exact .refl seen src
  | cons b copied ih =>
    rw [all_cons, Bool.and_eq_true] at h
    have hfst := reads_of_some seen (firstCharacter_of_isASCII h.1 (copied ++ src))
    rw [appendCharacter_uint8] at hfst
    rw [← Bool.or_false seen] at ih
    exact hfst.trans (ih h.2)

/-! ### The loops over the source -/

variable {α : Type}

@[simp] lemma Decoded.after_source (decoded : Decoded α) (output : List α)
    (sawError : Bool) : (decoded.after output sawError).source = decoded.source := rfl

/-- What is left when the source has been decoded. -/
structure DecodedSource (source : List UInt8) (decoded : Decoded UInt16) : Prop where
  left : decoded.partialSequence ++ decoded.source <:+ source
  reads (seen : Bool) (rest : List UInt8) : Reads seen (source ++ rest) decoded.output
    decoded.sawError (decoded.partialSequence ++ decoded.source ++ rest)

lemma DecodedSource.refl : DecodedSource src ⟨[], [], src, false⟩ :=
  ⟨suffix_rfl, fun seen rest => .refl seen (src ++ rest)⟩

lemma DecodedSource.incomplete : DecodedSource src ⟨[], src, [], false⟩ :=
  ⟨by simp, fun seen rest => by simpa using Reads.refl seen (src ++ rest)⟩

lemma DecodedSource.after {bytes src : List UInt8} {text : List UInt16} {sawError : Bool}
    {decoded : Decoded UInt16} (hsrc : src <:+ bytes)
    (hrd : ∀ seen rest, Reads seen (bytes ++ rest) text sawError (src ++ rest))
    (h : DecodedSource src decoded) : DecodedSource bytes (decoded.after text sawError) :=
  ⟨h.left.trans hsrc, fun seen rest => (hrd seen rest).trans (h.reads _ rest)⟩

variable {rounds : ℕ}

/-- The 16-bit loop decodes the source up to an incomplete sequence. -/
lemma decodeSource16_spec (hrnd : src.length ≤ rounds) :
    DecodedSource src (decodeSource16 stop false rounds src) ∧
      (decodeSource16 stop false rounds src).source = [] ∧
      Pending (decodeSource16 stop false rounds src).partialSequence := by
  induction rounds generalizing src with
  | zero =>
    obtain rfl := length_eq_zero_iff.mp (Nat.le_zero.mp hrnd)
    exact ⟨.refl [], rfl, pending_nil⟩
  | succ rounds ih =>
    match src with
    | [] => exact ⟨.refl [], rfl, pending_nil⟩
    | b :: bs =>
      have hstep := sourceStep_spec stop b bs
      have hlt := sourceStep_lt stop b bs
      rw [decodeSource16]
      generalize sourceStep stop b bs = step at hstep hlt ⊢
      rcases step with ⟨copied, src⟩ | _ | _ | ⟨c, count⟩
      · obtain ⟨happ, hall, hne⟩ := hstep []
        obtain ⟨hdec, hnil, hpend⟩ := ih src (by omega)
        refine ⟨hdec.after (happ ▸ suffix_append copied src) ?_, hnil, hpend⟩
        intro seen rest
        rw [← happ, append_assoc]
        exact reads_ascii seen hall (src ++ rest)
      · refine ⟨.incomplete (b :: bs), rfl, ?_⟩
        rintro b' bs' h
        obtain ⟨rfl, rfl⟩ := cons.inj h
        exact hstep []
      · obtain ⟨hdec, hnil, hpend⟩ := ih bs (Nat.le_of_succ_le_succ hrnd)
        refine ⟨hdec.after (suffix_cons b bs) ?_, hnil, hpend⟩
        exact fun seen rest => reads_of_none seen (hstep rest)
      · obtain ⟨hdec, hnil, hpend⟩ := ih ((b :: bs).drop count) (by omega)
        refine ⟨hdec.after (drop_suffix count (b :: bs)) ?_, hnil, hpend⟩
        intro seen rest
        rw [← drop_append_of_le_length (hstep []).2]
        exact reads_of_some seen (hstep rest).1

lemma Decoded.widen_after (decoded : Decoded UInt8) (output : List UInt8) (sawError : Bool) :
    (decoded.after output sawError).widen =
      decoded.widen.after (output.map UInt8.toUInt16) sawError := by
  simp [Decoded.widen, Decoded.after]

lemma appendCharacter_of_le {c : ℕ} (h : c ≤ 0xFF) :
    appendCharacter c = [UInt8.ofNat c].map UInt8.toUInt16 := by
  have hnat : (UInt8.ofNat c).toNat = c := Nat.mod_eq_of_lt (by omega)
  simp [← appendCharacter_uint8, hnat]

lemma decodeSource16_rounds (rounds' : ℕ) (src : List UInt8) (h : src.length ≤ rounds)
    (h' : src.length ≤ rounds') :
    decodeSource16 stop false rounds src = decodeSource16 stop false rounds' src := by
  induction rounds generalizing src rounds' with
  | zero =>
    obtain rfl := length_eq_zero_iff.mp (Nat.le_zero.mp h)
    cases rounds' <;> rfl
  | succ rounds ih =>
    match src, rounds' with
    | [], rounds' => cases rounds' <;> rfl
    | b :: bs, rounds' + 1 =>
      have hlt := sourceStep_lt stop b bs
      rw [decodeSource16, decodeSource16]
      generalize sourceStep stop b bs = step at hlt ⊢
      rcases step with ⟨copied, src⟩ | _ | _ | ⟨c, count⟩ <;> dsimp only at hlt ⊢
      · rw [ih rounds' src (by omega) (by omega)]
      · rw [ih rounds' bs (Nat.le_of_succ_le_succ h) (Nat.le_of_succ_le_succ h')]
      · rw [ih rounds' _ (by omega) (by omega)]

/-- What the 8-bit loop gives widens to `decoded16`, once the 16-bit loop has decoded the source
that is left to it. -/
def Widens (endAddress : ℕ) (decoded16 : Decoded UInt16) : Bool × Decoded UInt8 → Prop
  | (false, decoded) => decoded16 = decoded.widen
  | (true, decoded) => decoded.partialSequence = [] ∧
    ∀ rounds, decoded.source.length ≤ rounds → decoded16 =
      (decodeSource16 endAddress false rounds decoded.source).after decoded.widen.output
        decoded.sawError

lemma Widens.after {stop : ℕ} {decoded16 : Decoded UInt16} {result : Bool × Decoded UInt8}
    (h : Widens stop decoded16 result) (output : List UInt8) :
    Widens stop (decoded16.after (output.map UInt8.toUInt16) false)
      (result.map id (·.after output false)) := by
  obtain ⟨_ | _, decoded⟩ := result
  · obtain rfl := h
    exact (decoded.widen_after output false).symm
  · refine ⟨h.1, fun rounds hrnd => ?_⟩
    rw [h.2 rounds hrnd]
    simp [Decoded.after, Decoded.widen]

/-- The 8-bit loop gives what the 16-bit loop gives. -/
lemma widens_decodeSource8 (hrnd : src.length ≤ rounds) :
    Widens stop (decodeSource16 stop false rounds src) (decodeSource8 stop false rounds src) := by
  induction rounds generalizing src with
  | zero =>
    rfl
  | succ rounds ih =>
    match src with
    | [] => rfl
    | b :: bs =>
      have hlt := sourceStep_lt stop b bs
      have hsame := fun rounds' => decodeSource16_rounds stop rounds' _ hrnd
      rw [decodeSource8]
      rcases hstep : sourceStep stop b bs with ⟨copied, src⟩ | _ | _ | ⟨c, count⟩ <;>
        rw [hstep] at hlt <;> dsimp only at hlt ⊢
      · rw [decodeSource16, hstep]
        exact (ih src (by omega)).after copied
      · rw [decodeSource16, hstep]
        rfl
      · refine ⟨rfl, fun rounds' h => ?_⟩
        obtain ⟨n, rfl⟩ : ∃ n, rounds' = n + 1 := ⟨rounds' - 1, by simp at h; omega⟩
        rw [hsame _ h, decodeSource16, hstep]
        rfl
      · split_ifs with hlrg
        · exact ⟨rfl, fun rounds' h => hsame rounds' h⟩
        · rw [decodeSource16, hstep]
          dsimp only
          rw [appendCharacter_of_le (Nat.not_lt.mp hlrg)]
          exact (ih _ (by omega)).after [UInt8.ofNat c]

end WebKit.Text
