import Mathlib

/-!
# Streaming UTF-8 decoding

The codec decodes one chunk after the other and keeps an incomplete sequence at the end of a chunk
for the next one. It starts with 8-bit characters and turns to 16-bit characters at the first one
that does not fit or at the first error.
-/

namespace WebKit.Text

def replacementCharacter : UInt16 := 0xFFFD

def machineWordSize : ℕ := 8

def isASCII (b : UInt8) : Bool := b < 0x80

def nonASCIISequenceLength (firstByte : UInt8) : ℕ :=
  if firstByte < 0x80 then 0
  else if firstByte < 0xE0 then 2
  else if firstByte < 0xF0 then 3
  else if firstByte < 0xF5 then 4
  else 0

/-- The character of a sequence, or `none` for `nonCharacter`. -/
def decodeNonASCIISequence (sequence : List UInt8) : Option ℕ :=
  match sequence with
  | [s0, s1] =>
    if s0 < 0xC2 then none
    else if s1 < 0x80 || s1 > 0xBF then none
    else some ((s0.toNat <<< 6) + s1.toNat - 0x3080)
  | [s0, s1, s2] =>
    if s0 = 0xE0 && (s1 < 0xA0 || s1 > 0xBF) then none
    else if s0 = 0xED && (s1 < 0x80 || s1 > 0x9F) then none
    else if s0 ≠ 0xE0 && s0 ≠ 0xED && (s1 < 0x80 || s1 > 0xBF) then none
    else if s2 < 0x80 || s2 > 0xBF then none
    else some ((s0.toNat <<< 12) + (s1.toNat <<< 6) + s2.toNat - 0xE2080)
  | [s0, s1, s2, s3] =>
    if s0 = 0xF0 && (s1 < 0x90 || s1 > 0xBF) then none
    else if s0 = 0xF4 && (s1 < 0x80 || s1 > 0x8F) then none
    else if s0 ≠ 0xF0 && s0 ≠ 0xF4 && (s1 < 0x80 || s1 > 0xBF) then none
    else if s2 < 0x80 || s2 > 0xBF then none
    else if s3 < 0x80 || s3 > 0xBF then none
    else some ((s0.toNat <<< 18) + (s1.toNat <<< 12) + (s2.toNat <<< 6) + s3.toNat - 0x3C82080)
  | _ => none

/-- The UTF-16 code units of a character. -/
def appendCharacter (character : ℕ) : List UInt16 :=
  if character ≤ 0xFFFF then [UInt16.ofNat character]
  else [UInt16.ofNat ((character >>> 10) + 0xD7C0), UInt16.ofNat (character &&& 0x3FF ||| 0xDC00)]

/-! ### The partial sequence -/

/-- What is found at the beginning of the partial sequence. -/
inductive PartialStep
  | ascii (b : UInt8)
  /-- There are not enough bytes yet. -/
  | wait (partialSequence : List UInt8)
  /-- There is an error at the first byte. -/
  | invalid (partialSequence source : List UInt8)
  | character (c count : ℕ) (partialSequence source : List UInt8)
deriving DecidableEq, Repr

/-- Looks at the partial sequence, and fills it up from the source if it has to. -/
def partialStep (b : UInt8) (bs source : List UInt8) (flush : Bool) : PartialStep :=
  if isASCII b then .ascii b
  else
    let count := nonASCIISequenceLength b
    let missing := count - (b :: bs).length
    if count = 0 then .invalid (b :: bs) source
    else if missing > source.length then
      if flush then .invalid (b :: bs) source else .wait (b :: bs ++ source)
    else
      let filled := b :: bs ++ source.take missing
      match decodeNonASCIISequence (filled.take count) with
      | none => .invalid filled (source.drop missing)
      | some c => .character c count filled (source.drop missing)

/-- Characters, the partial sequence and the source that are left, and whether there was an
error. -/
structure Decoded (α : Type) where
  output : List α
  partialSequence : List UInt8
  source : List UInt8
  sawError : Bool
deriving DecidableEq, Repr

/-- Characters in front. -/
def Decoded.after {α : Type} (decoded : Decoded α) (output : List α) (sawError : Bool) :
    Decoded α :=
  { decoded with output := output ++ decoded.output, sawError := sawError || decoded.sawError }

/-- The 8-bit characters as 16-bit characters. -/
def Decoded.widen (decoded : Decoded UInt8) : Decoded UInt16 :=
  { decoded with output := decoded.output.map UInt8.toUInt16 }

/-- With 16-bit characters. After a character the sequence gets shorter, but its bytes are not
moved. -/
def handlePartialSequence16 (flush stopOnError : Bool) :
    ℕ → List UInt8 → List UInt8 → Decoded UInt16
  | rounds + 1, b :: bs, source =>
    match partialStep b bs source flush with
    | .ascii b =>
      (handlePartialSequence16 flush stopOnError rounds bs source).after [b.toUInt16] false
    | .wait partialSequence => ⟨[], partialSequence, [], false⟩
    | .invalid partialSequence source =>
      if stopOnError then ⟨[], partialSequence, source, true⟩
      else
        (handlePartialSequence16 flush stopOnError rounds partialSequence.tail source).after
          [replacementCharacter] true
    | .character c count partialSequence source =>
      (handlePartialSequence16 flush stopOnError rounds
        (partialSequence.take (partialSequence.length - count)) source).after
          (appendCharacter c) false
  | _, partialSequence, source => ⟨[], partialSequence, source, false⟩

/-- With 8-bit characters. Also says whether there have to be 16-bit characters. -/
def handlePartialSequence8 (flush : Bool) :
    ℕ → List UInt8 → List UInt8 → Bool × Decoded UInt8
  | rounds + 1, b :: bs, source =>
    match partialStep b bs source flush with
    | .ascii b =>
      (handlePartialSequence8 flush rounds bs source).map id (·.after [b] false)
    | .wait partialSequence => (false, ⟨[], partialSequence, [], false⟩)
    | .invalid partialSequence source => (true, ⟨[], partialSequence, source, false⟩)
    | .character c count partialSequence source =>
      if c > 0xFF then (true, ⟨[], partialSequence, source, false⟩)
      else
        (handlePartialSequence8 flush rounds
          (partialSequence.take (partialSequence.length - count)) source).map id
            (·.after [UInt8.ofNat c] false)
  | _, partialSequence, source => (false, ⟨[], partialSequence, source, false⟩)

/-! ### The source -/

/-- Copies words while they are all ASCII. -/
def copyASCIIMachineWords : ℕ → List UInt8 → List UInt8 × List UInt8
  | rounds + 1, source =>
    if machineWordSize ≤ source.length && (source.take machineWordSize).all isASCII then
      (copyASCIIMachineWords rounds (source.drop machineWordSize)).map
        (source.take machineWordSize ++ ·) id
    else ([], source)
  | _, source => ([], source)

/-- Copies ASCII characters, the first of which is `b`: a word at a time where the address is
aligned, and then one. -/
def copyASCII (endAddress : ℕ) (b : UInt8) (bs : List UInt8) : List UInt8 × List UInt8 :=
  if (endAddress - (b :: bs).length) % machineWordSize = 0 then
    let (copied, source) := copyASCIIMachineWords (b :: bs).length (b :: bs)
    match source with
    | [] => (copied, [])
    | c :: cs => if isASCII c then (copied ++ [c], cs) else (copied, c :: cs)
  else ([b], bs)

/-- What is found at the beginning of the source. -/
inductive SourceStep
  | ascii (copied source : List UInt8)
  /-- There are not enough bytes for the sequence. -/
  | incomplete
  | invalid
  | character (c count : ℕ)
deriving DecidableEq, Repr

def sourceStep (endAddress : ℕ) (b : UInt8) (bs : List UInt8) : SourceStep :=
  if isASCII b then
    let (copied, source) := copyASCII endAddress b bs
    .ascii copied source
  else
    let count := nonASCIISequenceLength b
    if count = 0 then .invalid
    else if count > (b :: bs).length then .incomplete
    else
      match decodeNonASCIISequence ((b :: bs).take count) with
      | none => .invalid
      | some c => .character c count

def decodeSource16 (endAddress : ℕ) (stopOnError : Bool) : ℕ → List UInt8 → Decoded UInt16
  | rounds + 1, b :: bs =>
    match sourceStep endAddress b bs with
    | .ascii copied source =>
      (decodeSource16 endAddress stopOnError rounds source).after (copied.map UInt8.toUInt16) false
    | .incomplete => ⟨[], b :: bs, [], false⟩
    | .invalid =>
      if stopOnError then ⟨[], [], b :: bs, true⟩
      else
        (decodeSource16 endAddress stopOnError rounds bs).after [replacementCharacter] true
    | .character c count =>
      (decodeSource16 endAddress stopOnError rounds ((b :: bs).drop count)).after
        (appendCharacter c) false
  | _, source => ⟨[], [], source, false⟩

def decodeSource8 (endAddress : ℕ) (stopOnError : Bool) : ℕ → List UInt8 → Bool × Decoded UInt8
  | rounds + 1, b :: bs =>
    match sourceStep endAddress b bs with
    | .ascii copied source =>
      (decodeSource8 endAddress stopOnError rounds source).map id (·.after copied false)
    | .incomplete => (false, ⟨[], b :: bs, [], false⟩)
    | .invalid => (!stopOnError, ⟨[], [], b :: bs, true⟩)
    | .character c count =>
      if c > 0xFF then (true, ⟨[], [], b :: bs, false⟩)
      else
        (decodeSource8 endAddress stopOnError rounds ((b :: bs).drop count)).map id
          (·.after [UInt8.ofNat c] false)
  | _, source => (false, ⟨[], [], source, false⟩)

/-! ### Decoding a chunk -/

def decode16 (endAddress : ℕ) (flush stopOnError : Bool) :
    ℕ → List UInt8 → List UInt8 → Decoded UInt16
  | rounds + 1, partialSequence, source =>
    let handled := handlePartialSequence16 flush stopOnError
      (partialSequence.length + source.length) partialSequence source
    if !handled.partialSequence.isEmpty then handled
    else
      let decoded := (decodeSource16 endAddress stopOnError handled.source.length
        handled.source).after handled.output handled.sawError
      if flush && !decoded.partialSequence.isEmpty then
        (decode16 endAddress flush stopOnError rounds decoded.partialSequence decoded.source).after
          decoded.output decoded.sawError
      else decoded
  | _, partialSequence, source => ⟨[], partialSequence, source, false⟩

/-- When 16-bit characters are needed for the partial sequence, the characters that it gave so far
are dropped. -/
def decode8 (endAddress : ℕ) (flush stopOnError : Bool) :
    ℕ → List UInt8 → List UInt8 → Bool × Decoded UInt8
  | rounds + 1, partialSequence, source =>
    let (upConvert, handled) := handlePartialSequence8 flush
      (partialSequence.length + source.length) partialSequence source
    if upConvert then (true, { handled with output := [] })
    else if !handled.partialSequence.isEmpty then (false, handled)
    else
      let (upConvert, decoded) := decodeSource8 endAddress stopOnError handled.source.length
        handled.source
      let decoded := decoded.after handled.output handled.sawError
      if upConvert then (true, decoded)
      else if flush && !decoded.partialSequence.isEmpty then
        (decode8 endAddress flush stopOnError rounds decoded.partialSequence decoded.source).map id
          (·.after decoded.output decoded.sawError)
      else (false, decoded)
  | _, partialSequence, source => (false, ⟨[], partialSequence, source, false⟩)

/-- Bytes that end at an address. -/
structure Chunk where
  bytes : List UInt8
  endAddress : ℕ
deriving DecidableEq, Repr

/-- Decode a chunk with the partial sequence that is left from the chunks before. The loops end
after the partial sequence has been flushed. -/
def decode (partialSequence : List UInt8) (chunk : Chunk) (flush stopOnError : Bool) :
    Decoded UInt16 :=
  match decode8 chunk.endAddress flush stopOnError 2 partialSequence chunk.bytes with
  | (false, decoded) => decoded.widen
  | (true, decoded) =>
    (decode16 chunk.endAddress flush stopOnError 2 decoded.partialSequence decoded.source).after
      decoded.widen.output decoded.sawError

/-- Decode the chunks one after the other and flush the last one. Gives the text and whether there
was an error. -/
def decodeChunks (stopOnError : Bool) : List UInt8 → List Chunk → List UInt16 × Bool
  | _, [] => ([], false)
  | partialSequence, chunk :: chunks =>
    let decoded := decode partialSequence chunk chunks.isEmpty stopOnError
    (decodeChunks stopOnError decoded.partialSequence chunks).map (decoded.output ++ ·)
      (decoded.sawError || ·)

end WebKit.Text
