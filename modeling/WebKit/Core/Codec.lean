import Mathlib

/-!
# Codecs

A decoder takes a value off the front of its input. It inverts an encoder if it gives every valid
value back from its encoding, whatever follows, and accepts nothing but encodings of valid values.
Such encodings are free of prefixes. The bytes of a number, the least significant one first, and a
fixed number of encodings in a row are two instances.
-/

namespace WebKit.Codec

open List Option

variable {α β γ : Type*}

structure Inverts (valid : α → Prop) (enc : α → List β) (dec : List β → Option (α × List β)) :
    Prop where
  decode_encode {a : α} (ha : valid a) (rest : List β) : dec (enc a ++ rest) = some (a, rest)
  eq_encode {input rest : List β} {a : α} (h : dec input = some (a, rest)) :
    valid a ∧ input = enc a ++ rest

namespace Inverts

variable {valid : α → Prop} {enc : α → List β} {dec : List β → Option (α × List β)}

/-- No encoding continues another one. -/
lemma unique (h : Inverts valid enc dec) {a a' : α} (ha : valid a) (ha' : valid a')
    {rest rest' : List β} (heq : enc a ++ rest = enc a' ++ rest') : a = a' ∧ rest = rest' := by
  have hdec := h.decode_encode ha rest
  rw [heq, h.decode_encode ha' rest', some_inj, Prod.mk.injEq] at hdec
  exact ⟨hdec.1.symm, hdec.2.symm⟩

/-- The same encoding read as another type. -/
lemma map (h : Inverts valid enc dec) {f : α → γ} {g : γ → α} (hf : ∀ c, f (g c) = c)
    (hg : ∀ a, valid a → g (f a) = a) (hvld : ∀ c, valid (g c)) :
    Inverts (fun _ => True) (fun c => enc (g c))
      (fun input => (dec input).map fun r => (f r.1, r.2)) where
  decode_encode {c} _ rest := by
    rw [h.decode_encode (hvld c), map_some, hf]
  eq_encode {input rest c} heq := by
    obtain ⟨⟨a, rest'⟩, hdec, hr⟩ := map_eq_some_iff.1 heq
    obtain ⟨rfl, rfl⟩ := Prod.mk.inj hr
    obtain ⟨ha, rfl⟩ := h.eq_encode hdec
    exact ⟨trivial, by rw [hg a ha]⟩

end Inverts

/-! ### Little-endian numbers -/

/-- The lowest `w` bytes of a number. -/
def toBytes : ℕ → ℕ → List UInt8
  | 0, _ => []
  | w + 1, n => UInt8.ofNat n :: toBytes w (n / 256)

def ofBytes : List UInt8 → ℕ
  | [] => 0
  | b :: bs => b.toNat + 256 * ofBytes bs

/-- Reads a number of `w` bytes. -/
def readBytes (w : ℕ) (input : List UInt8) : Option (ℕ × List UInt8) :=
  if input.length < w then none else some (ofBytes (input.take w), input.drop w)

@[simp] lemma length_toBytes (w n : ℕ) : (toBytes w n).length = w := by
  induction w generalizing n with
  | zero => rfl
  | succ w ih => rw [toBytes, length_cons, ih]

lemma ofBytes_toBytes {w n : ℕ} (h : n < 256 ^ w) : ofBytes (toBytes w n) = n := by
  induction w generalizing n with
  | zero =>
    rw [pow_zero, Nat.lt_one_iff] at h
    rw [toBytes, ofBytes, h]
  | succ w ih =>
    rw [pow_succ] at h
    rw [toBytes, ofBytes, ih (Nat.div_lt_of_lt_mul (by linarith))]
    exact Nat.mod_add_div n 256

lemma ofBytes_lt (bs : List UInt8) : ofBytes bs < 256 ^ bs.length := by
  induction bs with
  | nil => simp [ofBytes]
  | cons b bs ih =>
    have hb := b.toNat_lt
    rw [ofBytes, length_cons]
    omega

lemma toBytes_ofBytes (bs : List UInt8) : toBytes bs.length (ofBytes bs) = bs := by
  induction bs with
  | nil => rfl
  | cons b bs ih =>
    have hb := b.toNat_lt
    have hdiv : (b.toNat + 256 * ofBytes bs) / 256 = ofBytes bs := by omega
    have hmod : UInt8.ofNat (b.toNat + 256 * ofBytes bs) = b := by
      rw [← UInt8.toNat_inj, UInt8.toNat_ofNat']
      omega
    rw [length_cons, ofBytes, toBytes, hdiv, hmod, ih]

lemma inverts_readBytes (w : ℕ) : Inverts (· < 256 ^ w) (toBytes w) (readBytes w) where
  decode_encode {n} h rest := by
    have hlen := length_toBytes w n
    simp [readBytes, ofBytes_toBytes h]
  eq_encode {input rest n} h := by
    rw [readBytes] at h
    split_ifs at h with hlen
    obtain ⟨rfl, rfl⟩ := h
    have htake : (input.take w).length = w := length_take_of_le (not_lt.1 hlen)
    have hlt := ofBytes_lt (input.take w)
    have hbyt := toBytes_ofBytes (input.take w)
    rw [htake] at hlt hbyt
    rw [hbyt, take_append_drop]
    exact ⟨hlt, rfl⟩

/-! ### Repetition -/

/-- Decodes `n` values one after the other. -/
def decodeMany (dec : List β → Option (α × List β)) : ℕ → List β → Option (List α × List β)
  | 0, input => some ([], input)
  | n + 1, input => do
    let (a, input) ← dec input
    let (as, input) ← decodeMany dec n input
    return (a :: as, input)

lemma Inverts.many {valid : α → Prop} {enc : α → List β} {dec : List β → Option (α × List β)}
    (h : Inverts valid enc dec) (n : ℕ) :
    Inverts (fun as => as.length = n ∧ ∀ a ∈ as, valid a) (List.flatMap enc)
      (decodeMany dec n) := by
  induction n with
  | zero =>
    refine ⟨fun {as} has rest => ?_, fun {input rest as} heq => ?_⟩
    · rw [length_eq_zero_iff.1 has.1]
      rfl
    · obtain ⟨rfl, rfl⟩ := heq
      simp
  | succ n ih =>
    refine ⟨fun {as} has rest => ?_, fun {input rest as} heq => ?_⟩
    · obtain ⟨hlen, hvld⟩ := has
      obtain ⟨a, as, rfl⟩ := exists_cons_of_length_eq_add_one hlen
      rw [forall_mem_cons] at hvld
      rw [flatMap_cons, append_assoc, decodeMany, h.decode_encode hvld.1]
      simp [ih.decode_encode ⟨by simpa using hlen, hvld.2⟩]
    · simp only [decodeMany, bind_eq_bind, bind_eq_some_iff, Prod.exists] at heq
      obtain ⟨a, input', ha, as', input'', has, rfl, rfl⟩ := heq
      obtain ⟨hvld, rfl⟩ := h.eq_encode ha
      obtain ⟨⟨hlen, hvalids⟩, rfl⟩ := ih.eq_encode has
      exact ⟨⟨by simp [hlen], forall_mem_cons.2 ⟨hvld, hvalids⟩⟩, by simp⟩

end WebKit.Codec
