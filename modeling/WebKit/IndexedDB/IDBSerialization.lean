import WebKit.Core.Codec

/-!
# The serialization of IndexedDB keys

`encodeKey`, `decodeKey` and the two functions over them of `IDBSerialization.cpp`. Keys have no
value of type `Invalid` here, at which encoding stops the process. Allocations do not fail.
-/

namespace WebKit.IndexedDB

open Codec List Option

/-- A key. A number or a date is the pattern of its double, a string its code units, and a binary
key its buffer, if it has one. -/
inductive IDBKeyData
  | minimum
  | maximum
  | number (bits : UInt64)
  | date (bits : UInt64)
  | string (units : List UInt16)
  | binary (data : Option (List UInt8))
  | array (keys : List IDBKeyData)

def SIDBKeyVersion : UInt8 := 0x00

namespace SIDBKeyType

def Min : UInt8 := 0x00

def Number : UInt8 := 0x20

def Date : UInt8 := 0x40

def String : UInt8 := 0x60

def Binary : UInt8 := 0x80

def Array : UInt8 := 0xA0

def Max : UInt8 := 0xFF

end SIDBKeyType

/-! ### Encoding -/

mutual

def encodeKey : IDBKeyData → List UInt8
  | .minimum => [SIDBKeyType.Min]
  | .maximum => [SIDBKeyType.Max]
  | .number bits => SIDBKeyType.Number :: toBytes 8 bits.toNat
  | .date bits => SIDBKeyType.Date :: toBytes 8 bits.toNat
  | .string units =>
    SIDBKeyType.String :: (toBytes 4 units.length ++ units.flatMap fun c => toBytes 2 c.toNat)
  | .binary none => SIDBKeyType.Binary :: toBytes 8 0
  | .binary (some data) => SIDBKeyType.Binary :: (toBytes 8 data.length ++ data)
  | .array keys => SIDBKeyType.Array :: (toBytes 8 keys.length ++ encodeKeys keys)

/-- The loop over the keys of an array. -/
def encodeKeys : List IDBKeyData → List UInt8
  | [] => []
  | key :: keys => encodeKey key ++ encodeKeys keys

end

def serializeIDBKeyData (key : IDBKeyData) : List UInt8 := SIDBKeyVersion :: encodeKey key

/-! ### Decoding -/

/-- `g_variant_is_normal_form` for a dictionary from strings to variants. The first key of one that
starts with a zero byte is the empty string, and zero bytes follow it up to the value, which is
aligned to eight bytes. -/
structure VariantCheck where
  isNormalForm : List UInt8 → Bool
  padded {data : List UInt8} (h : isNormalForm (0 :: data)) : ∃ rest, data = 0 :: rest ∧ rest ≠ []

/-- How the build tells the keys in the format before this one: by the character that begins a
property list, by the form of a dictionary, or not at all. -/
inductive LegacyCheck
  | propertyList
  | variant (check : VariantCheck)
  | never

def LegacyCheck.isLegacySerializedIDBKeyData : LegacyCheck → List UInt8 → Bool
  | propertyList, data => data.head? == some 0x62
  | variant check, data => check.isNormalForm data
  | never, _ => false

/-- What the build decides: the largest `size_t`, and how keys in the format before this one are
told and decoded. -/
structure Port where
  maxSize : ℕ
  maxSize_lt : maxSize < 2 ^ 64
  legacyCheck : LegacyCheck
  decodeLegacy : List UInt8 → Option IDBKeyData

def readDouble (data : List UInt8) : Option (UInt64 × List UInt8) :=
  (readBytes 8 data).map fun r => (UInt64.ofNat r.1, r.2)

def readUnit (data : List UInt8) : Option (UInt16 × List UInt8) :=
  (readBytes 2 data).map fun r => (UInt16.ofNat r.1, r.2)

/-- `decodeKey`, with a bound on the depth of the recursion. The check of the length of a string is
made on 32 bits. -/
def decodeKey (maxSize : ℕ) : ℕ → List UInt8 → Option (IDBKeyData × List UInt8)
  | 0, _ => none
  | _ + 1, [] => none
  | fuel + 1, type :: data =>
    if type = SIDBKeyType.Min then some (.minimum, data)
    else if type = SIDBKeyType.Max then some (.maximum, data)
    else if type = SIDBKeyType.Number then do
      let (bits, data) ← readDouble data
      return (.number bits, data)
    else if type = SIDBKeyType.Date then do
      let (bits, data) ← readDouble data
      return (.date bits, data)
    else if type = SIDBKeyType.String then do
      let (length, data) ← readBytes 4 data
      if data.length < length * 2 % 2 ^ 32 then none
      else do
        let (units, data) ← decodeMany readUnit length data
        return (.string units, data)
    else if type = SIDBKeyType.Binary then do
      let (size, data) ← readBytes 8 data
      if data.length < size then none
      else if size > maxSize then none
      else return (.binary (some (data.take size)), data.drop size)
    else if type = SIDBKeyType.Array then do
      let (size, data) ← readBytes 8 data
      if size > maxSize then none
      else do
        let (keys, data) ← decodeMany (decodeKey maxSize fuel) size data
        return (.array keys, data)
    else none

/-- `deserializeIDBKeyData`. Every key takes a byte, so the recursion is no deeper than the input
is long. -/
def deserializeIDBKeyData (port : Port) (data : List UInt8) : Option IDBKeyData :=
  match data with
  | [] => none
  | version :: current =>
    if port.legacyCheck.isLegacySerializedIDBKeyData data then port.decodeLegacy data
    else if version ≠ SIDBKeyVersion then none
    else
      match decodeKey port.maxSize current.length current with
      | some (result, rest) => if rest = [] then some result else none
      | none => none

/-! ### The decoder inverts the encoder -/

/-- A key that can be held: its length, and those of the keys in it, are of the types they have in
the source. -/
inductive IDBKeyData.IsValid (maxSize : ℕ) : IDBKeyData → Prop
  | minimum : IsValid maxSize .minimum
  | maximum : IsValid maxSize .maximum
  | number (bits : UInt64) : IsValid maxSize (.number bits)
  | date (bits : UInt64) : IsValid maxSize (.date bits)
  | string {units : List UInt16} (h : units.length < 2 ^ 32) : IsValid maxSize (.string units)
  | binary {data : List UInt8} (h : data.length ≤ maxSize) : IsValid maxSize (.binary (some data))
  | array {keys : List IDBKeyData} (h : keys.length ≤ maxSize)
      (hkeys : ∀ key ∈ keys, IsValid maxSize key) : IsValid maxSize (.array keys)

/-- A valid key that is nested less deep than the bound. -/
def ValidWithin (maxSize : ℕ) : ℕ → IDBKeyData → Prop
  | 0, _ => False
  | _ + 1, .string units => units.length < 2 ^ 32
  | _ + 1, .binary data => ∃ bytes, data = some bytes ∧ bytes.length ≤ maxSize
  | depth + 1, .array keys => keys.length ≤ maxSize ∧ ∀ key ∈ keys, ValidWithin maxSize depth key
  | _ + 1, _ => True

lemma encodeKeys_eq (keys : List IDBKeyData) : encodeKeys keys = keys.flatMap encodeKey := by
  induction keys with
  | nil => rfl
  | cons key keys ih => simp [encodeKeys, ih]

lemma inverts_readDouble :
    Inverts (fun _ => True) (fun bits : UInt64 => toBytes 8 bits.toNat) readDouble :=
  (inverts_readBytes 8).map (fun _ => UInt64.ofNat_toNat)
    (fun _ hn => UInt64.toNat_ofNat_of_lt' hn) fun bits => bits.toNat_lt

lemma inverts_readUnit : Inverts (fun _ => True) (fun c : UInt16 => toBytes 2 c.toNat) readUnit :=
  (inverts_readBytes 2).map (fun _ => UInt16.ofNat_toNat)
    (fun _ hn => UInt16.toNat_ofNat_of_lt' hn) fun c => c.toNat_lt

variable {maxSize : ℕ}

/-! Each type of key has its own branch of the decoder. -/

section

variable (fuel : ℕ) (data : List UInt8)

lemma decodeKey_number : decodeKey maxSize (fuel + 1) (SIDBKeyType.Number :: data) =
    (readDouble data).bind fun r => some (.number r.1, r.2) := rfl

lemma decodeKey_date : decodeKey maxSize (fuel + 1) (SIDBKeyType.Date :: data) =
    (readDouble data).bind fun r => some (.date r.1, r.2) := rfl

lemma decodeKey_string : decodeKey maxSize (fuel + 1) (SIDBKeyType.String :: data) =
    (readBytes 4 data).bind fun r =>
      if r.2.length < r.1 * 2 % 2 ^ 32 then none
      else (decodeMany readUnit r.1 r.2).bind fun r => some (.string r.1, r.2) := rfl

lemma decodeKey_binary : decodeKey maxSize (fuel + 1) (SIDBKeyType.Binary :: data) =
    (readBytes 8 data).bind fun r =>
      if r.2.length < r.1 then none
      else if r.1 > maxSize then none
      else some (.binary (some (r.2.take r.1)), r.2.drop r.1) := rfl

lemma decodeKey_array : decodeKey maxSize (fuel + 1) (SIDBKeyType.Array :: data) =
    (readBytes 8 data).bind fun r =>
      if r.1 > maxSize then none
      else (decodeMany (decodeKey maxSize fuel) r.1 r.2).bind fun r => some (.array r.1, r.2) := rfl

end

variable {key : IDBKeyData}

lemma decodeKey_encodeKey (hmax : maxSize < 2 ^ 64) {fuel : ℕ}
    (ih : Inverts (ValidWithin maxSize fuel) encodeKey (decodeKey maxSize fuel))
    (hkey : ValidWithin maxSize (fuel + 1) key) (rest : List UInt8) :
    decodeKey maxSize (fuel + 1) (encodeKey key ++ rest) = some (key, rest) := by
  cases key with
  | minimum => rfl
  | maximum => rfl
  | number bits =>
    rw [encodeKey, cons_append, decodeKey_number, inverts_readDouble.decode_encode trivial]
    rfl
  | date bits =>
    rw [encodeKey, cons_append, decodeKey_date, inverts_readDouble.decode_encode trivial]
    rfl
  | string units =>
    have hlen : ((units.flatMap fun c => toBytes 2 c.toNat) ++ rest).length =
        units.length * 2 + rest.length := by
      simp
    rw [encodeKey, cons_append, append_assoc, decodeKey_string,
      (inverts_readBytes 4).decode_encode hkey, bind_some, if_neg (by rw [hlen]; omega),
      (inverts_readUnit.many _).decode_encode ⟨rfl, fun _ _ => trivial⟩]
    rfl
  | binary data =>
    obtain ⟨bytes, rfl, hlen⟩ := hkey
    rw [encodeKey, cons_append, append_assoc, decodeKey_binary,
      (inverts_readBytes 8).decode_encode (hlen.trans_lt hmax), bind_some,
      if_neg (by simp), if_neg (not_lt.2 hlen), take_left, drop_left]
  | array keys =>
    rw [encodeKey, cons_append, append_assoc, decodeKey_array,
      (inverts_readBytes 8).decode_encode (hkey.1.trans_lt hmax), bind_some,
      if_neg (not_lt.2 hkey.1), encodeKeys_eq, (ih.many _).decode_encode ⟨rfl, hkey.2⟩]
    rfl

lemma eq_encodeKey_of_decodeKey {fuel : ℕ}
    (ih : Inverts (ValidWithin maxSize fuel) encodeKey (decodeKey maxSize fuel))
    {input rest : List UInt8} (h : decodeKey maxSize (fuel + 1) input = some (key, rest)) :
    ValidWithin maxSize (fuel + 1) key ∧ input = encodeKey key ++ rest := by
  cases input with
  | nil => cases h
  | cons type data =>
    rw [decodeKey] at h
    -- one case for each type byte; what was read is the encoding by the codec of the part
    split_ifs at h with hmin hmax hnum hdate hstring hbinary harray
    · obtain ⟨rfl, rfl⟩ := Prod.mk.inj (some.inj h)
      rw [hmin]
      exact ⟨trivial, rfl⟩
    · obtain ⟨rfl, rfl⟩ := Prod.mk.inj (some.inj h)
      rw [hmax]
      exact ⟨trivial, rfl⟩
    · obtain ⟨⟨bits, data'⟩, hread, hr⟩ := bind_eq_some_iff.1 h
      obtain ⟨rfl, rfl⟩ := Prod.mk.inj (some.inj hr)
      rw [(inverts_readDouble.eq_encode hread).2, hnum]
      exact ⟨trivial, rfl⟩
    · obtain ⟨⟨bits, data'⟩, hread, hr⟩ := bind_eq_some_iff.1 h
      obtain ⟨rfl, rfl⟩ := Prod.mk.inj (some.inj hr)
      rw [(inverts_readDouble.eq_encode hread).2, hdate]
      exact ⟨trivial, rfl⟩
    · obtain ⟨⟨length, data'⟩, hread, hr⟩ := bind_eq_some_iff.1 h
      obtain ⟨hlength, rfl⟩ := (inverts_readBytes 4).eq_encode hread
      dsimp only at hr
      split_ifs at hr
      obtain ⟨⟨units, rest'⟩, hmany, hr⟩ := bind_eq_some_iff.1 hr
      obtain ⟨rfl, rfl⟩ := Prod.mk.inj (some.inj hr)
      obtain ⟨⟨rfl, -⟩, rfl⟩ := (inverts_readUnit.many _).eq_encode hmany
      rw [hstring, encodeKey]
      exact ⟨hlength, rfl⟩
    · obtain ⟨⟨size, data'⟩, hread, hr⟩ := bind_eq_some_iff.1 h
      obtain ⟨-, rfl⟩ := (inverts_readBytes 8).eq_encode hread
      dsimp only at hr
      split_ifs at hr with hlen hsize
      obtain ⟨rfl, rfl⟩ := Prod.mk.inj (some.inj hr)
      have htake : (data'.take size).length = size := length_take_of_le (not_lt.1 hlen)
      rw [hbinary, encodeKey, cons_append, append_assoc, htake, take_append_drop]
      exact ⟨⟨_, rfl, htake.trans_le (not_lt.1 hsize)⟩, rfl⟩
    · obtain ⟨⟨size, data'⟩, hread, hr⟩ := bind_eq_some_iff.1 h
      obtain ⟨-, rfl⟩ := (inverts_readBytes 8).eq_encode hread
      dsimp only at hr
      split_ifs at hr with hsize
      obtain ⟨⟨keys, rest'⟩, hmany, hr⟩ := bind_eq_some_iff.1 hr
      obtain ⟨rfl, rfl⟩ := Prod.mk.inj (some.inj hr)
      obtain ⟨⟨rfl, hkeys⟩, rfl⟩ := (ih.many _).eq_encode hmany
      rw [harray, encodeKey, encodeKeys_eq]
      exact ⟨⟨not_lt.1 hsize, hkeys⟩, rfl⟩

/-- The decoder inverts the encoder on the keys that are not nested too deep for it. -/
lemma inverts_decodeKey (hmax : maxSize < 2 ^ 64) (fuel : ℕ) :
    Inverts (ValidWithin maxSize fuel) encodeKey (decodeKey maxSize fuel) := by
  induction fuel with
  | zero => exact ⟨fun h => h.elim, fun h => by cases h⟩
  | succ fuel ih =>
    exact ⟨fun h rest => decodeKey_encodeKey hmax ih h rest, eq_encodeKey_of_decodeKey ih⟩

lemma ValidWithin.mono {depth depth' : ℕ} (h : ValidWithin maxSize depth key)
    (hle : depth ≤ depth') : ValidWithin maxSize depth' key := by
  induction depth generalizing depth' key with
  | zero => exact h.elim
  | succ depth ih =>
    obtain ⟨depth', rfl⟩ : ∃ n, depth' = n + 1 := Nat.exists_eq_succ_of_ne_zero (by omega)
    cases key with
    | array keys => exact ⟨h.1, fun key hkey => ih (h.2 key hkey) (Nat.le_of_succ_le_succ hle)⟩
    | _ => exact h

lemma ValidWithin.isValid {depth : ℕ} (h : ValidWithin maxSize depth key) :
    key.IsValid maxSize := by
  induction depth generalizing key with
  | zero => exact h.elim
  | succ depth ih =>
    cases key with
    | minimum => exact .minimum
    | maximum => exact .maximum
    | number bits => exact .number bits
    | date bits => exact .date bits
    | string units => exact .string h
    | binary data =>
      obtain ⟨bytes, rfl, hlen⟩ := h
      exact .binary hlen
    | array keys => exact .array h.1 fun key hkey => ih (h.2 key hkey)

/-- A key is nested no deeper than its encoding is long. -/
lemma validWithin_length (h : key.IsValid maxSize) :
    ValidWithin maxSize (encodeKey key).length key := by
  induction h with
  | minimum => trivial
  | maximum => trivial
  | number => trivial
  | date => trivial
  | string h => exact h
  | binary h => exact ⟨_, rfl, h⟩
  | @array keys h hkeys ih =>
    refine ⟨h, fun key hkey => (ih key hkey).mono ?_⟩
    have hsub : (encodeKey key).length ≤ (keys.flatMap encodeKey).length := by
      rw [length_flatMap]
      exact single_le_sum (fun _ _ => Nat.zero_le _) _ (mem_map_of_mem hkey)
    rw [encodeKeys_eq, length_append]
    omega

/-! ### Keys and their serializations -/

variable {data : List UInt8}

/-- Only the smallest key begins with a zero byte. -/
lemma eq_minimum_of_cons_eq {rest : List UInt8}
    (h : encodeKey key ++ rest = SIDBKeyType.Min :: data) : key = .minimum := by
  cases key with
  | minimum => rfl
  | binary bytes => cases bytes <;> exact absurd (cons.inj h).1 (by decide)
  | _ => exact absurd (cons.inj h).1 (by decide)

/-- An input with the version byte that is taken for a key in the format before this one goes on
after the smallest key. -/
lemma exists_of_isLegacy {check : LegacyCheck}
    (h : check.isLegacySerializedIDBKeyData (SIDBKeyVersion :: data)) :
    ∃ rest, data = SIDBKeyType.Min :: rest ∧ rest ≠ [] := by
  cases check with
  | propertyList => exact absurd h (by simp [LegacyCheck.isLegacySerializedIDBKeyData,
      SIDBKeyVersion])
  | variant check => exact check.padded h
  | never => cases h

variable {port : Port}

lemma deserialize_of_not_legacy
    (h : ¬port.legacyCheck.isLegacySerializedIDBKeyData (SIDBKeyVersion :: data)) :
    deserializeIDBKeyData port (SIDBKeyVersion :: data) =
      match decodeKey port.maxSize data.length data with
      | some (result, rest) => if rest = [] then some result else none
      | none => none := by
  rw [deserializeIDBKeyData, if_neg h, if_neg (by simp)]

/-- What is left of the input after the key decides between success and failure. -/
lemma deserialize_append (hkey : key.IsValid port.maxSize) (rest : List UInt8)
    (h : ¬port.legacyCheck.isLegacySerializedIDBKeyData (serializeIDBKeyData key ++ rest)) :
    deserializeIDBKeyData port (serializeIDBKeyData key ++ rest) =
      if rest = [] then some key else none := by
  have hvld := (validWithin_length hkey).mono (show (encodeKey key).length ≤
    (encodeKey key ++ rest).length by simp)
  rw [serializeIDBKeyData, cons_append] at h ⊢
  rw [deserialize_of_not_legacy h, (inverts_decodeKey port.maxSize_lt _).decode_encode hvld]

/-- An input that is accepted is the serialization of the key it gives. -/
lemma serialize_of_deserialize (hver : data.head? = some SIDBKeyVersion)
    (hleg : ¬port.legacyCheck.isLegacySerializedIDBKeyData data)
    (h : deserializeIDBKeyData port data = some key) :
    key.IsValid port.maxSize ∧ serializeIDBKeyData key = data := by
  obtain ⟨data, rfl⟩ := head?_eq_some_iff.1 hver
  rw [deserialize_of_not_legacy hleg] at h
  split at h
  next result rest hdec =>
    split_ifs at h with hrest
    obtain ⟨rfl⟩ := some.inj h
    obtain ⟨hvld, heq⟩ := (inverts_decodeKey port.maxSize_lt _).eq_encode hdec
    rw [hrest, append_nil] at heq
    exact ⟨hvld.isValid, by rw [serializeIDBKeyData, ← heq]⟩
  next => cases h

section

variable {key : IDBKeyData} {data : List UInt8} (hkey : key.IsValid port.maxSize)
  (hne : data ≠ serializeIDBKeyData key)

include hkey hne

/-- No shorter part from the front of a serialization is accepted. -/
lemma deserialize_of_append
    (h : data <+: serializeIDBKeyData key) : deserializeIDBKeyData port data = none := by
  cases data with
  | nil => rfl
  | cons version data =>
    obtain ⟨rfl, rest, hrest⟩ := cons_prefix_cons.1 h
    have hleg : ¬port.legacyCheck.isLegacySerializedIDBKeyData (SIDBKeyVersion :: data) := by
      intro hleg
      obtain ⟨data, rfl, hdata⟩ := exists_of_isLegacy hleg
      have hmin := eq_minimum_of_cons_eq (by rw [append_nil, ← hrest]; rfl)
      rw [hmin] at hrest
      exact hdata (append_eq_nil_iff.1 (cons.inj hrest).2).1
    by_contra hacc
    obtain ⟨key', hkey'⟩ := ne_none_iff_exists'.1 hacc
    obtain ⟨hvld, heq⟩ := serialize_of_deserialize rfl hleg hkey'
    -- the two encodings would be told apart by the decoder for the deeper key
    obtain ⟨-, hdata⟩ := cons.inj heq
    have huniq := (inverts_decodeKey port.maxSize_lt
      (max (encodeKey key').length (encodeKey key).length)).unique
      ((validWithin_length hvld).mono (le_max_left _ _))
      ((validWithin_length hkey).mono (le_max_right _ _))
      (show encodeKey key' ++ rest = encodeKey key ++ [] by simp [hdata, hrest])
    exact hne (by rw [serializeIDBKeyData, ← huniq.1, hdata])

lemma deserialize_of_extension (h : serializeIDBKeyData key <+: data)
    (hleg : ¬port.legacyCheck.isLegacySerializedIDBKeyData data ∨ key ≠ .minimum) :
    deserializeIDBKeyData port data = none := by
  obtain ⟨rest, rfl⟩ := h
  have hrest : rest ≠ [] := fun hnil => hne (by rw [hnil, append_nil])
  rw [deserialize_append hkey rest, if_neg hrest]
  rcases hleg with hleg | hmin
  · exact hleg
  · intro h
    obtain ⟨data, hdata, -⟩ := exists_of_isLegacy h
    exact hmin (eq_minimum_of_cons_eq hdata)

end

/-- Serializations are unambiguous: every key is given back from its serialization, an input that
is accepted is the serialization of the key it gives, and neither a shorter part from the front of
a serialization nor a continuation of one is accepted. A continuation of the smallest key could
still be taken for a key in the format before this one. -/
theorem serialization_unambiguous (port : Port) :
    (∀ key : IDBKeyData, key.IsValid port.maxSize →
      deserializeIDBKeyData port (serializeIDBKeyData key) = some key) ∧
    (∀ data key, data.head? = some SIDBKeyVersion →
      ¬port.legacyCheck.isLegacySerializedIDBKeyData data →
      deserializeIDBKeyData port data = some key → serializeIDBKeyData key = data) ∧
    (∀ key : IDBKeyData, key.IsValid port.maxSize → ∀ data, data ≠ serializeIDBKeyData key →
      (data <+: serializeIDBKeyData key → deserializeIDBKeyData port data = none) ∧
      (serializeIDBKeyData key <+: data →
        ¬port.legacyCheck.isLegacySerializedIDBKeyData data ∨ key ≠ .minimum →
        deserializeIDBKeyData port data = none)) := by
  refine ⟨fun key hkey => ?_, fun data key hversion hlegacy h => ?_,
    fun key hkey data hne => ⟨deserialize_of_append hkey hne, deserialize_of_extension hkey hne⟩⟩
  · have hlegacy : ¬port.legacyCheck.isLegacySerializedIDBKeyData (serializeIDBKeyData key) := by
      intro hlegacy
      obtain ⟨rest, hrest, hne⟩ := exists_of_isLegacy hlegacy
      have hmin := eq_minimum_of_cons_eq ((append_nil _).trans hrest)
      rw [hmin] at hrest
      exact hne (cons.inj hrest).2.symm
    have h := deserialize_append hkey [] (by rwa [append_nil])
    rwa [append_nil] at h
  · exact (serialize_of_deserialize hversion hlegacy h).2

/-- A check that takes an input for a dictionary if it begins with the empty string as the first key
and the zero bytes that follow it. -/
def emptyKeyCheck : VariantCheck where
  isNormalForm data := (replicate 8 0).isPrefixOf data
  padded {data} h := by
    obtain ⟨rest, hrest⟩ := isPrefixOf_iff_prefix.1 h
    exact ⟨_, (cons.inj hrest).2.symm, cons_ne_nil _ _⟩

/-- A build that tells legacy keys by the form of a dictionary. -/
def variantPort : Port := ⟨2 ^ 64 - 1, by norm_num, .variant emptyKeyCheck, fun _ => none⟩

theorem deserialize_serialize_nested :
    (IDBKeyData.array [.string [97], .array []]).IsValid variantPort.maxSize ∧
      deserializeIDBKeyData variantPort
        (serializeIDBKeyData (.array [.string [97], .array []])) =
        some (.array [.string [97], .array []]) := by
  have hvalid : (IDBKeyData.array [.string [97], .array []]).IsValid variantPort.maxSize := by
    refine .array (by decide) fun key hkey => ?_
    rcases mem_pair.1 hkey with rfl | rfl
    · exact .string (by decide)
    · exact .array (by decide) (by simp)
  exact ⟨hvalid, (serialization_unambiguous variantPort).1 _ hvalid⟩

end WebKit.IndexedDB
