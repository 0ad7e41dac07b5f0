import WebKit.Core.Codec

/-!
# Frames of a web socket

`makeFrameData` writes a frame and `parseFrame` reads one off the front of a buffer. The payload of
a masked frame is unmasked in the buffer. A `size_t` has 64 bits.
-/

namespace WebKit.WebSockets

open Codec List UInt8 Nat

def finalBit : UInt8 := 0x80

def compressBit : UInt8 := 0x40

def reserved2Bit : UInt8 := 0x20

def reserved3Bit : UInt8 := 0x10

def opCodeMask : UInt8 := 0xF

def maskBit : UInt8 := 0x80

def payloadLengthMask : UInt8 := 0x7F

def maxPayloadLengthWithoutExtendedLengthField : ℕ := 125

def payloadLengthWithTwoByteExtendedLengthField : ℕ := 126

def payloadLengthWithEightByteExtendedLengthField : ℕ := 127

def maskingKeyWidthInBytes : ℕ := 4

def maxPayloadLength : ℕ := 0x7FFFFFFFFFFFFFFF

/-- The largest `size_t`. -/
def sizeMax : ℕ := 0xFFFFFFFFFFFFFFFF

/-- A frame, with the bytes that its payload points to. -/
structure WebSocketFrame where
  opCode : UInt8
  final : Bool
  compress : Bool
  reserved2 : Bool
  reserved3 : Bool
  masked : Bool
  payload : List UInt8
deriving DecidableEq, Repr

inductive ParseFrameResult
  | frameOK (frame : WebSocketFrame) (frameEnd : ℕ)
  | frameIncomplete
  | frameError (errorString : String)
deriving DecidableEq, Repr

/-- The payload, with the masking key applied to it over and over. -/
def applyMask (maskingKey payload : List UInt8) : List UInt8 :=
  payload.mapIdx fun i b => b ^^^ maskingKey.getD (i % maskingKeyWidthInBytes) 0

/-! ### Parsing -/

/-- The extended payload length, in network byte order. -/
def readPayloadLength (bytes : List UInt8) : UInt64 :=
  bytes.foldl (fun payloadLength64 b => payloadLength64 <<< 8 ||| b.toUInt64) 0

/-- What follows the payload length. The buffer is `header ++ p`, and `p` is the part that has not
been read yet. -/
def parsePayload (firstByte secondByte : UInt8) (payloadLength64 : ℕ)
    (header p : List UInt8) : ParseFrameResult × List UInt8 :=
  let masked := secondByte &&& maskBit != 0
  let maskingKeyLength := if masked then maskingKeyWidthInBytes else 0
  if payloadLength64 > maxPayloadLength ∨ payloadLength64 + maskingKeyLength > sizeMax then
    (.frameError ("WebSocket frame length too large: " ++ toString payloadLength64 ++ " bytes"),
      header ++ p)
  else
    let payloadLength := payloadLength64
    if p.length < maskingKeyLength + payloadLength then (.frameIncomplete, header ++ p)
    else
      let maskingKey := p.take maskingKeyLength
      let payload := (p.drop maskingKeyLength).take payloadLength
      let payload := if masked then applyMask maskingKey payload else payload
      (.frameOK
        { opCode := firstByte &&& opCodeMask
          final := firstByte &&& finalBit != 0
          compress := firstByte &&& compressBit != 0
          reserved2 := firstByte &&& reserved2Bit != 0
          reserved3 := firstByte &&& reserved3Bit != 0
          masked
          payload }
        (header.length + maskingKeyLength + payloadLength),
        header ++ maskingKey ++ payload ++ p.drop (maskingKeyLength + payloadLength))

/-- Parse a frame at the front of the buffer. Gives the result and the buffer, in which the payload
has been unmasked. -/
def parseFrame (data : List UInt8) : ParseFrameResult × List UInt8 :=
  match data with
  | firstByte :: secondByte :: p =>
    let payloadLength64 := (secondByte &&& payloadLengthMask).toNat
    if payloadLength64 > maxPayloadLengthWithoutExtendedLengthField then
      let extendedPayloadLengthSize :=
        if payloadLength64 = payloadLengthWithTwoByteExtendedLengthField then 2 else 8
      if p.length < extendedPayloadLengthSize then (.frameIncomplete, data)
      else
        let payloadLength64 := (readPayloadLength (p.take extendedPayloadLengthSize)).toNat
        if extendedPayloadLengthSize = 2 ∧
            payloadLength64 ≤ maxPayloadLengthWithoutExtendedLengthField then
          (.frameError "The minimal number of bytes MUST be used to encode the length", data)
        else if extendedPayloadLengthSize = 8 ∧ payloadLength64 ≤ 0xFFFF then
          (.frameError "The minimal number of bytes MUST be used to encode the length", data)
        else
          parsePayload firstByte secondByte payloadLength64
            (firstByte :: secondByte :: p.take extendedPayloadLengthSize)
            (p.drop extendedPayloadLengthSize)
    else parsePayload firstByte secondByte payloadLength64 [firstByte, secondByte] p
  | _ => (.frameIncomplete, data)

/-! ### Making frames -/

namespace WebSocketFrame

variable (frame : WebSocketFrame)

/-- Append the payload, masked by the masking key, which is chosen at random. -/
def appendFramePayload (maskingKey frameData : List UInt8) : List UInt8 :=
  if frame.masked then frameData ++ maskingKey ++ applyMask maskingKey frame.payload
  else frameData ++ frame.payload

/-- The last `i` bytes of the length that remains, in network byte order. -/
def extendedPayloadLength : ℕ → ℕ → List UInt8
  | 0, _ => []
  | i + 1, remaining =>
    extendedPayloadLength i (remaining >>> 8) ++ [UInt8.ofNat (remaining &&& 0xFF)]

def makeFrameData (maskingKey : List UInt8) : List UInt8 :=
  let payloadLength := frame.payload.length
  let firstByte := (if frame.final then finalBit else 0) |||
    (if frame.compress then compressBit else 0) ||| frame.opCode
  let secondByte := if frame.masked then maskBit else 0
  frame.appendFramePayload maskingKey <|
    if payloadLength ≤ maxPayloadLengthWithoutExtendedLengthField then
      [firstByte, secondByte ||| UInt8.ofNat payloadLength]
    else if payloadLength ≤ 0xFFFF then
      [firstByte, secondByte ||| UInt8.ofNat payloadLengthWithTwoByteExtendedLengthField,
        UInt8.ofNat ((payloadLength &&& 0xFF00) >>> 8), UInt8.ofNat (payloadLength &&& 0xFF)]
    else
      [firstByte, secondByte ||| UInt8.ofNat payloadLengthWithEightByteExtendedLengthField] ++
        extendedPayloadLength 8 payloadLength

end WebSocketFrame

/-! ### Masking -/

@[simp] lemma length_applyMask (key payload : List UInt8) :
    (applyMask key payload).length = payload.length := length_mapIdx

/-- To mask twice is to unmask. -/
@[simp] lemma applyMask_applyMask (key payload : List UInt8) :
    applyMask key (applyMask key payload) = payload := by
  refine ext_getElem (by simp) fun i _ _ => ?_
  simp [applyMask]

/-! ### Length fields -/

/-- The number of bytes of the extended length field that the second byte announces. -/
def lengthFieldSize (secondByte : UInt8) : ℕ :=
  if (secondByte &&& payloadLengthMask).toNat ≤ maxPayloadLengthWithoutExtendedLengthField then 0
  else if (secondByte &&& payloadLengthMask).toNat = payloadLengthWithTwoByteExtendedLengthField
  then 2 else 8

/-- The payload length that the second byte and the extended length field give. -/
def lengthOf (secondByte : UInt8) (field : List UInt8) : ℕ :=
  if lengthFieldSize secondByte = 0 then (secondByte &&& payloadLengthMask).toNat
  else ofBytes field.reverse

/-- A length field of the size is needed for the length. -/
def NeedsField (size payloadLength : ℕ) : Prop :=
  (size = 2 → maxPayloadLengthWithoutExtendedLengthField < payloadLength) ∧
    (size = 8 → 0xFFFF < payloadLength)

instance (size payloadLength : ℕ) : Decidable (NeedsField size payloadLength) :=
  inferInstanceAs (Decidable (_ ∧ _))

lemma toNat_readPayloadLength {bytes : List UInt8} (h : bytes.length ≤ 8) :
    (readPayloadLength bytes).toNat = ofBytes bytes.reverse := by
  induction bytes using reverseRecOn with
  | nil => rfl
  | append_singleton bytes b ih =>
    rw [length_append, length_singleton] at h
    have hlt : ofBytes bytes.reverse < 256 ^ 7 := by
      refine (ofBytes_lt _).trans_le (Nat.pow_le_pow_right (by decide) ?_)
      rw [length_reverse]
      omega
    have hshift : ofBytes bytes.reverse <<< 8 < 2 ^ 64 := by
      omega
    have hread : readPayloadLength (bytes ++ [b]) =
        readPayloadLength bytes <<< 8 ||| b.toUInt64 := by
      simp [readPayloadLength]
    rw [hread, UInt64.toNat_or, UInt64.toNat_shiftLeft, ih (by omega), reverse_append]
    change (ofBytes bytes.reverse <<< 8) % 2 ^ 64 ||| b.toNat =
      b.toNat + 256 * ofBytes bytes.reverse
    rw [mod_eq_of_lt hshift, ← shiftLeft_add_eq_or_of_lt b.toNat_lt]
    omega

lemma lengthFieldSize_cases (b₂ : UInt8) :
    lengthFieldSize b₂ = 0 ∧
        (b₂ &&& payloadLengthMask).toNat ≤ maxPayloadLengthWithoutExtendedLengthField ∨
      lengthFieldSize b₂ = 2 ∧
        (b₂ &&& payloadLengthMask).toNat = payloadLengthWithTwoByteExtendedLengthField ∨
      lengthFieldSize b₂ = 8 ∧
        (b₂ &&& payloadLengthMask).toNat = payloadLengthWithEightByteExtendedLengthField := by
  have hmax : (b₂ &&& payloadLengthMask).toNat ≤ payloadLengthWithEightByteExtendedLengthField := by
    exact Nat.and_le_right
  unfold lengthFieldSize
  split_ifs with hshort htwo
  · exact Or.inl ⟨rfl, hshort⟩
  · exact Or.inr (Or.inl ⟨rfl, htwo⟩)
  · refine Or.inr (Or.inr ⟨rfl, hmax.antisymm ?_⟩)
    exact lt_of_le_of_ne (not_le.1 hshort) (Ne.symm htwo)

lemma lengthFieldSize_le (b₂ : UInt8) : lengthFieldSize b₂ ≤ 8 := by
  rcases lengthFieldSize_cases b₂ with ⟨hsize, -⟩ | ⟨hsize, -⟩ | ⟨hsize, -⟩ <;> simp [hsize]

variable {b₁ b₂ : UInt8}

/-- With an extended length field. -/
lemma parseFrame_extended (p : List UInt8)
    (h : maxPayloadLengthWithoutExtendedLengthField < (b₂ &&& payloadLengthMask).toNat) :
    parseFrame (b₁ :: b₂ :: p) =
      let size := lengthFieldSize b₂
      let length := (readPayloadLength (p.take size)).toNat
      if p.length < size then (.frameIncomplete, b₁ :: b₂ :: p)
      else if size = 2 ∧ length ≤ maxPayloadLengthWithoutExtendedLengthField then
        (.frameError "The minimal number of bytes MUST be used to encode the length", b₁ :: b₂ :: p)
      else if size = 8 ∧ length ≤ 0xFFFF then
        (.frameError "The minimal number of bytes MUST be used to encode the length", b₁ :: b₂ :: p)
      else parsePayload b₁ b₂ length (b₁ :: b₂ :: p.take size) (p.drop size) := by
  simp only [parseFrame, lengthFieldSize, if_neg (not_le.2 h), if_pos h]

variable {p : List UInt8}

/-- Where the length field is not complete, neither is the frame. -/
lemma parseFrame_of_length_lt (h : p.length < lengthFieldSize b₂) :
    parseFrame (b₁ :: b₂ :: p) = (.frameIncomplete, b₁ :: b₂ :: p) := by
  refine (parseFrame_extended p (not_le.1 fun hshort => ?_)).trans (if_pos h)
  rw [lengthFieldSize, if_pos hshort] at h
  exact not_lt_zero _ h

/-- The length field is read first. -/
lemma parseFrame_of_length_eq {field : List UInt8} (h : field.length = lengthFieldSize b₂) :
    parseFrame (b₁ :: b₂ :: (field ++ p)) =
      if NeedsField field.length (lengthOf b₂ field) then
        parsePayload b₁ b₂ (lengthOf b₂ field) (b₁ :: b₂ :: field) p
      else
        (.frameError "The minimal number of bytes MUST be used to encode the length",
          b₁ :: b₂ :: (field ++ p)) := by
  rcases Nat.lt_or_ge maxPayloadLengthWithoutExtendedLengthField
    (b₂ &&& payloadLengthMask).toNat with hlong | hshort
  swap
  · have hsize : lengthFieldSize b₂ = 0 := if_pos hshort
    obtain rfl := length_eq_zero_iff.1 (h.trans hsize)
    rw [lengthOf, if_pos hsize]
    exact if_neg (not_lt.2 hshort)
  · have hsize : lengthFieldSize b₂ ≠ 0 := by
      rw [lengthFieldSize, if_neg (not_le.2 hlong)]
      split_ifs <;> decide
    have hread : (readPayloadLength field).toNat = lengthOf b₂ field := by
      rw [toNat_readPayloadLength (h ▸ lengthFieldSize_le _), lengthOf, if_neg hsize]
    rw [parseFrame_extended _ hlong]
    rw [if_neg (by simp [h]), ← h, take_left, drop_left, hread]
    by_cases hneeds : NeedsField field.length (lengthOf b₂ field)
    · rw [if_pos hneeds, if_neg fun htwo => (hneeds.1 htwo.1).not_ge htwo.2,
        if_neg fun height => (hneeds.2 height.1).not_ge height.2]
    · split_ifs with htwo height
      · rfl
      · rfl
      · exact absurd ⟨fun hsize => not_le.1 fun hle => htwo ⟨hsize, hle⟩,
          fun hsize => not_le.1 fun hle => height ⟨hsize, hle⟩⟩ hneeds

/-! ### Frames on the wire -/

def isMasked (secondByte : UInt8) : Bool := secondByte &&& maskBit != 0

/-- The frame that the parts on the wire stand for. -/
def frameOf (firstByte secondByte : UInt8) (maskingKey payload : List UInt8) : WebSocketFrame where
  opCode := firstByte &&& opCodeMask
  final := firstByte &&& finalBit != 0
  compress := firstByte &&& compressBit != 0
  reserved2 := firstByte &&& reserved2Bit != 0
  reserved3 := firstByte &&& reserved3Bit != 0
  masked := isMasked secondByte
  payload := if isMasked secondByte then applyMask maskingKey payload else payload

@[simp] lemma length_payload_frameOf (key payload : List UInt8) :
    (frameOf b₁ b₂ key payload).payload.length = payload.length := by
  rw [frameOf, apply_ite length, length_applyMask, ite_self]

/-- The parts are those of a frame on the wire. -/
structure IsFrame (secondByte : UInt8) (field maskingKey payload : List UInt8) : Prop where
  length_field : field.length = lengthFieldSize secondByte
  needsField : NeedsField field.length payload.length
  lengthOf_eq : lengthOf secondByte field = payload.length
  length_le : payload.length ≤ maxPayloadLength
  length_maskingKey : maskingKey.length = if isMasked secondByte then maskingKeyWidthInBytes else 0

section

variable {b₁ b₂ : UInt8} {field key payload : List UInt8}

lemma add_maskingKeyLength_le {n : ℕ} (h : n ≤ maxPayloadLength) (masked : Bool) :
    n + (if masked then maskingKeyWidthInBytes else 0) ≤ sizeMax := by
  have hkey : (if masked then maskingKeyWidthInBytes else 0) ≤ 4 := by cases masked <;> decide
  exact (Nat.add_le_add h hkey).trans (by decide)

/-- A frame on the wire is parsed, whatever follows. -/
lemma IsFrame.parseFrame_append (h : IsFrame b₂ field key payload) (rest : List UInt8) :
    parseFrame (b₁ :: b₂ :: (field ++ (key ++ (payload ++ rest)))) =
      (.frameOK (frameOf b₁ b₂ key payload)
          (2 + field.length + key.length + payload.length),
        b₁ :: b₂ :: (field ++ (key ++ ((frameOf b₁ b₂ key payload).payload ++ rest)))) := by
  rw [parseFrame_of_length_eq h.length_field, h.lengthOf_eq, if_pos h.needsField, parsePayload]
  have hkey := h.length_maskingKey
  rw [isMasked] at hkey
  rw [if_neg (not_or.2 ⟨not_lt.2 h.length_le, not_lt.2 (add_maskingKeyLength_le h.length_le _)⟩),
    ← hkey]
  simp [frameOf, isMasked]
  omega

/-- The length of a frame at the front of the buffer is given by more bytes than it needs, or it
has more than 63 bits. -/
def BadLength (data : List UInt8) : Prop :=
  ∃ firstByte secondByte field rest, field.length = lengthFieldSize secondByte ∧
    data = firstByte :: secondByte :: (field ++ rest) ∧
    (¬ NeedsField field.length (lengthOf secondByte field) ∨
      maxPayloadLength < lengthOf secondByte field)

/-- In all frames at the front of a buffer the length field is the same. -/
lemma badLength_iff (hfield : field.length = lengthFieldSize b₂) :
    BadLength (b₁ :: b₂ :: (field ++ p)) ↔
      ¬ NeedsField field.length (lengthOf b₂ field) ∨ maxPayloadLength < lengthOf b₂ field := by
  constructor
  · rintro ⟨b₁', b₂', field', rest, hfield', heq, hbad⟩
    rw [cons.injEq, cons.injEq] at heq
    obtain ⟨rfl, rfl, heq⟩ := heq
    obtain ⟨rfl, -⟩ := append_inj heq (hfield.trans hfield'.symm)
    exact hbad
  · exact fun hbad => ⟨b₁, b₂, field, p, hfield, rfl, hbad⟩

/-- The parts of a frame on the wire. -/
structure Wire where
  firstByte : UInt8
  secondByte : UInt8
  field : List UInt8
  maskingKey : List UInt8
  payload : List UInt8
  isFrame : IsFrame secondByte field maskingKey payload

namespace Wire

variable (w : Wire)

def data : List UInt8 :=
  w.firstByte :: w.secondByte :: (w.field ++ (w.maskingKey ++ w.payload))

def frame : WebSocketFrame := frameOf w.firstByte w.secondByte w.maskingKey w.payload

lemma parseFrame_data_append (rest : List UInt8) :
    (parseFrame (w.data ++ rest)).1 = .frameOK w.frame w.data.length := by
  simp only [data, cons_append, append_assoc, w.isFrame.parseFrame_append, frame,
    ParseFrameResult.frameOK.injEq, true_and, length_cons, length_append]
  omega

end Wire

/-- A buffer is not complete, has a bad length, whatever follows, or starts with a frame. -/
lemma parseFrame_cases (data : List UInt8) :
    (¬ BadLength data ∧ parseFrame data = (.frameIncomplete, data)) ∨
    (BadLength data ∧ ∃ errorString, ∀ data', data <+: data' →
      parseFrame data' = (.frameError errorString, data')) ∨
    (¬ BadLength data ∧ ∃ (w : Wire) (rest : List UInt8), data = w.data ++ rest) := by
  match data with
  | [] | [_] => exact Or.inl ⟨by rintro ⟨_, _, _, _, -, ⟨⟩, -⟩, rfl⟩
  -- the checks in the order of the source: length field, shortest form, limit, payload
  | b₁ :: b₂ :: p =>
    rcases Nat.lt_or_ge p.length (lengthFieldSize b₂) with hlt | hle
    · refine Or.inl ⟨?_, parseFrame_of_length_lt hlt⟩
      rintro ⟨_, _, field, rest, hfield, ⟨⟩, -⟩
      rw [length_append] at hlt
      omega
    obtain ⟨field, p, rfl, hfield⟩ : ∃ field p', p = field ++ p' ∧
        field.length = lengthFieldSize b₂ :=
      ⟨_, _, (take_append_drop _ p).symm, length_take_of_le hle⟩
    rw [badLength_iff hfield]
    by_cases hneeds : NeedsField field.length (lengthOf b₂ field)
    swap
    · refine Or.inr (Or.inl ⟨Or.inl hneeds,
        "The minimal number of bytes MUST be used to encode the length", ?_⟩)
      rintro _ ⟨more, rfl⟩
      rw [cons_append, cons_append, append_assoc]
      exact (parseFrame_of_length_eq hfield).trans (if_neg hneeds)
    rcases Nat.lt_or_ge maxPayloadLength (lengthOf b₂ field) with hlrg | hsmall
    · refine Or.inr (Or.inl ⟨Or.inr hlrg, "WebSocket frame length too large: " ++
        toString (lengthOf b₂ field) ++ " bytes", ?_⟩)
      rintro _ ⟨more, rfl⟩
      rw [cons_append, cons_append, append_assoc]
      exact (parseFrame_of_length_eq hfield).trans ((if_pos hneeds).trans (if_pos (Or.inl hlrg)))
    have hgood := not_or.2 ⟨not_not.2 hneeds, not_lt.2 hsmall⟩
    obtain ⟨keyLength, hkeyLength⟩ :
        ∃ n, n = if isMasked b₂ then maskingKeyWidthInBytes else 0 := ⟨_, rfl⟩
    rcases Nat.lt_or_ge p.length (keyLength + lengthOf b₂ field) with hlt | hle
    · refine Or.inl ⟨hgood, ?_⟩
      rw [hkeyLength, isMasked] at hlt
      rw [parseFrame_of_length_eq hfield, if_pos hneeds, parsePayload]
      rw [if_neg (not_or.2 ⟨not_lt.2 hsmall, not_lt.2 (add_maskingKeyLength_le hsmall _)⟩),
        if_pos hlt]
      rfl
    · have hpay : ((p.drop keyLength).take (lengthOf b₂ field)).length =
          lengthOf b₂ field := length_take_of_le (by rw [length_drop]; omega)
      refine Or.inr (Or.inr ⟨hgood, ⟨b₁, b₂, field, p.take keyLength, _,
        hfield, ?_, hpay.symm, ?_, ?_⟩, (p.drop keyLength).drop (lengthOf b₂ field), ?_⟩)
      · rwa [hpay]
      · rwa [hpay]
      · rw [← hkeyLength]
        exact length_take_of_le (by omega)
      · simp only [Wire.data, cons_append, append_assoc, take_append_drop]

end

/-! ### The bytes of the header -/

/-- What the second byte says about the length, and the length field. -/
def lengthHeader (payloadLength : ℕ) : ℕ × List UInt8 :=
  if payloadLength ≤ maxPayloadLengthWithoutExtendedLengthField then (payloadLength, [])
  else if payloadLength ≤ 0xFFFF then
    (payloadLengthWithTwoByteExtendedLengthField, (toBytes 2 payloadLength).reverse)
  else (payloadLengthWithEightByteExtendedLengthField, (toBytes 8 payloadLength).reverse)

lemma extendedPayloadLength_eq (w n : ℕ) :
    WebSocketFrame.extendedPayloadLength w n = (toBytes w n).reverse := by
  induction w generalizing n with
  | zero => rfl
  | succ w ih =>
    have hbyte : UInt8.ofNat (n &&& 0xFF) = UInt8.ofNat n := by
      rw [← UInt8.toNat_inj, and_two_pow_sub_one_eq_mod n 8]
      exact mod_mod _ _
    rw [WebSocketFrame.extendedPayloadLength, ih, shiftRight_eq_div_pow, hbyte, toBytes,
      reverse_cons]

lemma firstByte_bits (opCode : UInt8) (final compress : Bool) (h : opCode &&& ~~~opCodeMask = 0) :
    let b₁ := (if final then finalBit else 0) ||| (if compress then compressBit else 0) |||
      opCode
    b₁ &&& opCodeMask = opCode ∧ (b₁ &&& finalBit != 0) = final ∧
      (b₁ &&& compressBit != 0) = compress ∧ (b₁ &&& reserved2Bit != 0) = false ∧
      (b₁ &&& reserved3Bit != 0) = false := by
  obtain ⟨b⟩ := opCode
  revert b final compress
  decide +kernel

lemma eq_firstByte (b₁ : UInt8) (h2 : (b₁ &&& reserved2Bit != 0) = false)
    (h3 : (b₁ &&& reserved3Bit != 0) = false) :
    (if b₁ &&& finalBit != 0 then finalBit else 0) |||
      (if b₁ &&& compressBit != 0 then compressBit else 0) ||| (b₁ &&& opCodeMask) = b₁ := by
  obtain ⟨b⟩ := b₁
  revert b
  decide +kernel

lemma secondByte_bits (masked : Bool) (n : Fin 128) :
    let b₂ := (if masked then maskBit else 0) ||| UInt8.ofNat n
    (b₂ &&& payloadLengthMask).toNat = n ∧ isMasked b₂ = masked := by
  revert masked n
  decide +kernel

lemma eq_secondByte (b₂ : UInt8) :
    (if isMasked b₂ then maskBit else 0) ||| UInt8.ofNat (b₂ &&& payloadLengthMask).toNat = b₂ := by
  obtain ⟨b⟩ := b₂
  revert b
  decide +kernel

lemma lengthHeader_fst_lt (n : ℕ) : (lengthHeader n).1 < 128 := by
  unfold lengthHeader
  split_ifs with hshort
  · exact lt_of_le_of_lt hshort (by decide)
  · exact (by decide : 126 < 128)
  · exact (by decide : 127 < 128)

/-- The parts are those of a frame just if the length is given by its header. -/
lemma isFrame_iff {b₂ : UInt8} {field key payload : List UInt8} :
    IsFrame b₂ field key payload ↔
      lengthHeader payload.length = ((b₂ &&& payloadLengthMask).toNat, field) ∧
        payload.length ≤ maxPayloadLength ∧
        key.length = if isMasked b₂ then maskingKeyWidthInBytes else 0 := by
  constructor
  · intro h
    refine ⟨?_, h.length_le, h.length_maskingKey⟩
    obtain ⟨hfield, hneeds, hlen, -, -⟩ := h
    have hlt := ofBytes_lt field.reverse
    have hbyt := toBytes_ofBytes field.reverse
    rw [length_reverse] at hlt hbyt
    rw [lengthOf] at hlen
    -- no length field, one of two bytes, one of eight
    rcases lengthFieldSize_cases b₂ with ⟨hsize, hm⟩ | ⟨hsize, hm⟩ | ⟨hsize, hm⟩
    · rw [if_pos hsize] at hlen
      rw [lengthHeader, if_pos (hlen ▸ hm), hlen, length_eq_zero_iff.1 (hfield.trans hsize)]
    · rw [if_neg (by simp [hsize])] at hlen
      rw [hfield, hsize] at hneeds hlt hbyt
      rw [hlen] at hlt hbyt
      rw [lengthHeader, if_neg (not_le.2 (hneeds.1 rfl)), if_pos (le_of_lt_succ hlt), hm,
        hbyt, reverse_reverse]
    · rw [if_neg (by simp [hsize])] at hlen
      rw [hfield, hsize] at hneeds hbyt
      rw [hlen] at hbyt
      have hlrg := hneeds.2 rfl
      rw [lengthHeader, if_neg (not_le.2 (lt_trans (by decide) hlrg)),
        if_neg (not_le.2 hlrg), hm, hbyt, reverse_reverse]
  · rintro ⟨hhdr, hle, hkey⟩
    unfold lengthHeader at hhdr
    split_ifs at hhdr with hshort htwo
    all_goals
      rw [Prod.mk.injEq] at hhdr
      obtain ⟨hm, rfl⟩ := hhdr
    · have hsize : lengthFieldSize b₂ = 0 := if_pos (hm ▸ hshort)
      exact ⟨hsize.symm, ⟨nofun, nofun⟩, by rw [lengthOf, if_pos hsize, hm], hle, hkey⟩
    · have hsize : lengthFieldSize b₂ = 2 := by
        rw [lengthFieldSize, ← hm]
        rfl
      refine ⟨by simp [hsize], ⟨fun _ => not_le.1 hshort, by simp⟩, ?_, hle, hkey⟩
      rw [lengthOf, if_neg (by simp [hsize]), reverse_reverse, ofBytes_toBytes]
      exact lt_succ_of_le htwo
    · have hsize : lengthFieldSize b₂ = 8 := by
        rw [lengthFieldSize, ← hm]
        rfl
      refine ⟨by simp [hsize], ⟨by simp, fun _ => not_le.1 htwo⟩, ?_, hle, hkey⟩
      rw [lengthOf, if_neg (by simp [hsize]), reverse_reverse, ofBytes_toBytes]
      exact hle.trans_lt (by decide)

namespace WebSocketFrame

variable {frame : WebSocketFrame} {key : List UInt8}

/-- The frame can be sent: its opcode fits in four bits, which `makeFrameData` asserts, its reserved
bits are clear, and its length fits in 63 bits. -/
structure Sendable (frame : WebSocketFrame) : Prop where
  opCode : frame.opCode &&& ~~~opCodeMask = 0
  reserved2 : frame.reserved2 = false
  reserved3 : frame.reserved3 = false
  length_lt : frame.payload.length < 2 ^ 63

/-- The parts that a frame is written with. -/
lemma makeFrameData_eq :
    frame.makeFrameData key =
      ((if frame.final then finalBit else 0) ||| (if frame.compress then compressBit else 0) |||
        frame.opCode) ::
      ((if frame.masked then maskBit else 0) |||
        UInt8.ofNat (lengthHeader frame.payload.length).1) ::
      ((lengthHeader frame.payload.length).2 ++
        ((if frame.masked then key else []) ++
          (if frame.masked then applyMask key frame.payload else frame.payload))) := by
  have htwo : ∀ n, [ofNat ((n &&& 0xFF00) >>> 8), ofNat (n &&& 0xFF)] = (toBytes 2 n).reverse := by
    intro n
    rw [← extendedPayloadLength_eq]
    simp [extendedPayloadLength, shiftRight_and_distrib]
  have hhdr : ∀ b₁ b₂ n,
      (if n ≤ maxPayloadLengthWithoutExtendedLengthField then
        [b₁, b₂ ||| ofNat n]
      else if n ≤ 0xFFFF then
        [b₁, b₂ ||| ofNat payloadLengthWithTwoByteExtendedLengthField,
          ofNat ((n &&& 0xFF00) >>> 8), ofNat (n &&& 0xFF)]
      else
        [b₁, b₂ ||| ofNat payloadLengthWithEightByteExtendedLengthField] ++
          extendedPayloadLength 8 n) =
        b₁ :: (b₂ ||| ofNat (lengthHeader n).1) :: (lengthHeader n).2 := by
    intro b₁ b₂ n
    rw [lengthHeader, ← htwo, ← extendedPayloadLength_eq]
    split_ifs <;> rfl
  rw [makeFrameData, hhdr, appendFramePayload]
  by_cases hmask : frame.masked = true
  · simp [hmask]
  · simp [hmask]

/-- A frame that can be sent is a frame on the wire. -/
lemma Sendable.exists_wire (h : frame.Sendable) (hkey : key.length = maskingKeyWidthInBytes) :
    ∃ w : Wire, frame.makeFrameData key = w.data ∧ w.frame = frame := by
  obtain ⟨hopCode, hfinal, hcompress, h2, h3⟩ :=
    firstByte_bits frame.opCode frame.final frame.compress h.opCode
  obtain ⟨hlen, hmask⟩ := secondByte_bits frame.masked ⟨_, lengthHeader_fst_lt frame.payload.length⟩
  refine ⟨⟨_, _, _, if frame.masked then key else [],
    if frame.masked then applyMask key frame.payload else frame.payload,
    isFrame_iff.2 ⟨?_, ?_, ?_⟩⟩, makeFrameData_eq, ?_⟩
  · rw [hlen]
    split_ifs <;> simp
  · rw [apply_ite length, length_applyMask, ite_self]
    exact le_of_lt_succ h.length_lt
  · rw [hmask]
    split_ifs <;> simp [hkey]
  · obtain ⟨opCode, final, compress, reserved2, reserved3, masked, payload⟩ := frame
    simp only [Wire.frame, frameOf, hopCode, hfinal, hcompress, h2, h3, hmask, mk.injEq, true_and]
    refine ⟨h.reserved2.symm, h.reserved3.symm, ?_⟩
    cases masked <;> simp

section

variable {w : Wire} (h2 : w.frame.reserved2 = false) (h3 : w.frame.reserved3 = false)

include h2 h3

/-- A frame on the wire with clear reserved bits is written by `makeFrameData`. A frame that is not
masked is written without the masking key. -/
lemma exists_makeFrameData_eq : ∃ maskingKey : List UInt8,
      maskingKey.length = maskingKeyWidthInBytes ∧ w.data = w.frame.makeFrameData maskingKey := by
  obtain ⟨hhdr, -, hkey⟩ := isFrame_iff.1 w.isFrame
  have hfst := eq_firstByte w.firstByte h2 h3
  have hsnd := eq_secondByte w.secondByte
  simp only [makeFrameData_eq, Wire.data, Wire.frame]
  by_cases hmask : isMasked w.secondByte = true
  · refine ⟨w.maskingKey, hkey.trans (if_pos hmask), ?_⟩
    simp_all [frameOf]
  · refine ⟨[0, 0, 0, 0], rfl, ?_⟩
    simp_all [frameOf]

lemma sendable_wire : w.frame.Sendable where
  opCode := by
    rw [Wire.frame, frameOf, UInt8.and_assoc]
    simp
  reserved2 := h2
  reserved3 := h3
  length_lt := by
    rw [Wire.frame, length_payload_frameOf]
    exact lt_succ_of_le w.isFrame.length_le

end

end WebSocketFrame

/-! ### Streams -/

variable {data : List UInt8}

/-- What has been parsed does not depend on what follows. -/
lemma parseFrame_append (h : (parseFrame data).1 ≠ .frameIncomplete) (more : List UInt8) :
    (parseFrame (data ++ more)).1 = (parseFrame data).1 := by
  rcases parseFrame_cases data with ⟨-, hinc⟩ | ⟨-, e, herr⟩ | ⟨-, w, rest, rfl⟩
  · exact absurd (congrArg Prod.fst hinc) h
  · rw [herr _ (prefix_append _ _), herr _ prefix_rfl]
  · simp [w.parseFrame_data_append]

variable {frameEnd : ℕ}

/-- The frame that was parsed is at the front of the buffer. -/
lemma parseFrame_frameOK {frame : WebSocketFrame}
    (h : (parseFrame data).1 = .frameOK frame frameEnd) : ∃ (w : Wire) (rest : List UInt8),
      data = w.data ++ rest ∧ frame = w.frame ∧ frameEnd = w.data.length := by
  rcases parseFrame_cases data with ⟨-, hinc⟩ | ⟨-, e, herr⟩ | ⟨-, w, rest, rfl⟩
  · simp [hinc] at h
  · simp [herr _ prefix_rfl] at h
  · rw [w.parseFrame_data_append] at h
    cases h
    exact ⟨w, rest, rfl, rfl, rfl⟩

lemma parseFrame_frameError_iff :
    (∃ errorString, (parseFrame data).1 = .frameError errorString) ↔ BadLength data := by
  rcases parseFrame_cases data with ⟨hgood, hinc⟩ | ⟨hbad, e, herr⟩ | ⟨hgood, w, rest, rfl⟩
  · simp [hgood, hinc]
  · simp [hbad, herr _ prefix_rfl]
  · simp [hgood, w.parseFrame_data_append]

/-- A buffer that is not complete is left as it is. -/
lemma parseFrame_of_frameIncomplete (h : (parseFrame data).1 = .frameIncomplete) :
    parseFrame data = (.frameIncomplete, data) := by
  rcases parseFrame_cases data with ⟨-, hinc⟩ | ⟨-, e, herr⟩ | ⟨-, w, rest, rfl⟩
  · exact hinc
  · simp [herr _ prefix_rfl] at h
  · simp [w.parseFrame_data_append] at h

variable {frame frame' : WebSocketFrame} {key : List UInt8}

/-- What was written is read, whatever follows. -/
lemma parseFrame_make_append (h : frame.Sendable)
    (hkey : key.length = maskingKeyWidthInBytes) (rest : List UInt8) :
    (parseFrame (frame.makeFrameData key ++ rest)).1 =
      .frameOK frame (frame.makeFrameData key).length := by
  obtain ⟨w, hdata, rfl⟩ := h.exists_wire hkey
  rw [hdata, w.parseFrame_data_append]

/-- What is read was written. -/
lemma exists_eq_makeFrameData (h : (parseFrame data).1 = .frameOK frame frameEnd)
    (h2 : frame.reserved2 = false) (h3 : frame.reserved3 = false) :
    frame.Sendable ∧ ∃ key : List UInt8, key.length = maskingKeyWidthInBytes ∧
      data.take frameEnd = frame.makeFrameData key := by
  obtain ⟨w, rest, rfl, rfl, rfl⟩ := parseFrame_frameOK h
  rw [take_left]
  exact ⟨WebSocketFrame.sendable_wire h2 h3, WebSocketFrame.exists_makeFrameData_eq h2 h3⟩

/-- What is written is parsed back, and nothing else is: whatever follows a frame it is parsed as
it was written, a part of a frame is incomplete and left in the buffer, and there is an error just
for a bad length. What is parsed was written, and in one way only. -/
theorem parseFrame_roundTrip :
    (∀ (frame : WebSocketFrame) (maskingKey rest : List UInt8), frame.Sendable →
      maskingKey.length = maskingKeyWidthInBytes →
      (parseFrame (frame.makeFrameData maskingKey ++ rest)).1 =
        .frameOK frame (frame.makeFrameData maskingKey).length) ∧
    (∀ (frame : WebSocketFrame) (maskingKey data : List UInt8), frame.Sendable →
      maskingKey.length = maskingKeyWidthInBytes → data <+: frame.makeFrameData maskingKey →
      data ≠ frame.makeFrameData maskingKey → parseFrame data = (.frameIncomplete, data)) ∧
    (∀ data, (∃ errorString, (parseFrame data).1 = .frameError errorString) ↔ BadLength data) ∧
    (∀ (data : List UInt8) (frame : WebSocketFrame) (frameEnd : ℕ),
      (parseFrame data).1 = .frameOK frame frameEnd → frame.reserved2 = false →
      frame.reserved3 = false →
      frame.Sendable ∧ ∃ maskingKey : List UInt8, maskingKey.length = maskingKeyWidthInBytes ∧
        data.take frameEnd = frame.makeFrameData maskingKey) ∧
    (∀ (frame frame' : WebSocketFrame) (maskingKey maskingKey' rest rest' : List UInt8),
      frame.Sendable → frame'.Sendable → maskingKey.length = maskingKeyWidthInBytes →
      maskingKey'.length = maskingKeyWidthInBytes →
      frame.makeFrameData maskingKey ++ rest = frame'.makeFrameData maskingKey' ++ rest' →
      frame = frame' ∧ rest = rest') := by
  refine ⟨fun frame maskingKey rest h hkey => parseFrame_make_append h hkey rest, ?_,
    fun data => parseFrame_frameError_iff, fun data frame frameEnd => exists_eq_makeFrameData, ?_⟩
  · rintro frame maskingKey data h hkey ⟨more, hmore⟩ hne
    by_contra hincomplete
    -- a part that is parsed would be parsed as the whole frame, which does not end in it
    have hparse := parseFrame_append (mt parseFrame_of_frameIncomplete hincomplete) more
    have hwhole := parseFrame_make_append h hkey []
    rw [append_nil, ← hmore] at hwhole
    rw [hwhole] at hparse
    obtain ⟨w, rest, rfl, -, hend⟩ := parseFrame_frameOK hparse.symm
    have hnil : more = [] := by
      rw [← length_eq_zero_iff]
      simp only [length_append] at hend
      omega
    exact hne (by simp [← hmore, hnil])
  · intro frame frame' maskingKey maskingKey' rest rest' h h' hkey hkey' heq
    have hparse := parseFrame_make_append h hkey rest
    rw [heq, parseFrame_make_append h' hkey' rest', ParseFrameResult.frameOK.injEq] at hparse
    exact ⟨hparse.1.symm, (append_inj heq hparse.2.symm).2⟩

/-- The masked text frame "Hi", with the first byte of another frame behind it. -/
theorem parseFrame_masked_text :
    (parseFrame ([0x81, 0x82, 0x01, 0x02, 0x03, 0x04, 0x49, 0x6B] ++ [0x81])).1 =
      .frameOK ⟨0x1, true, false, false, false, true, [0x48, 0x69]⟩ 8 :=
  parseFrame_roundTrip.1 ⟨0x1, true, false, false, false, true, [0x48, 0x69]⟩
    [0x01, 0x02, 0x03, 0x04] [0x81] ⟨by decide, rfl, rfl, by decide⟩ rfl

end WebKit.WebSockets
