import Mathlib

/-!
# Relocatable code

Little-endian numbers in byte strings, and code whose jump distances are filled in once the
positions of all targets are known. A piece of code is a string of bytes followed by one distance
for each of its targets; distances are relative to the start of the piece.
-/

namespace WebKit

open List

namespace Bytes

/-- The `w` lowest bytes of `n`, least significant first. -/
def split : ℕ → ℕ → List ℕ
  | 0, _ => []
  | w + 1, n => n % 256 :: split w (n / 256)

def join : List ℕ → ℕ
  | [] => 0
  | b :: bs => b + 256 * join bs

/-- The number in the `w` bytes from position `i`. -/
def readNat (w : ℕ) (bytes : List ℕ) (i : ℕ) : ℕ := join ((bytes.drop i).take w)

/-- The two's complement of `z` in `w` bytes. -/
def splitInt (w : ℕ) (z : ℤ) : List ℕ := split w (z % 256 ^ w).toNat

/-- The signed number in the `w` bytes from position `i`. -/
def readInt (w : ℕ) (bytes : List ℕ) (i : ℕ) : ℤ := (readNat w bytes i : ℤ).bmod (256 ^ w)

/-- Overwrite the bytes from position `i`. -/
def write (bytes : List ℕ) (i : ℕ) (v : List ℕ) : List ℕ :=
  bytes.take i ++ v ++ bytes.drop (i + v.length)

/-- `z` is representable in `w` bytes. -/
def Fits (w : ℕ) (z : ℤ) : Prop := -256 ^ w ≤ 2 * z ∧ 2 * z < 256 ^ w

variable {bytes rest : List ℕ} {w i n : ℕ} {z : ℤ}

@[simp] lemma length_split (w n : ℕ) : (split w n).length = w := by
  induction w generalizing n with
  | zero => rfl
  | succ w ih => simp [split, ih]

@[simp] lemma length_splitInt : (splitInt w z).length = w := length_split w _

lemma join_split (w n : ℕ) : join (split w n) = n % 256 ^ w := by
  induction w generalizing n with
  | zero => simp [split, join, Nat.mod_one]
  | succ w ih => rw [split, join, ih, pow_succ', Nat.mod_mul]

lemma readNat_of_drop (h : bytes.drop i = split w n ++ rest) : readNat w bytes i = n % 256 ^ w := by
  rw [readNat, h, take_left' (length_split w n), join_split]

lemma readInt_of_drop (hz : Fits w z) (h : bytes.drop i = splitInt w z ++ rest) :
    readInt w bytes i = z := by
  have hpos : (0 : ℤ) < 256 ^ w := Int.pow_pos (by decide)
  have hlt : (z % 256 ^ w).toNat < 256 ^ w := by
    rw [Int.toNat_lt (Int.emod_nonneg z hpos.ne')]
    exact_mod_cast Int.emod_lt_of_pos z hpos
  rw [readInt, readNat_of_drop h, Nat.mod_eq_of_lt hlt,
    Int.toNat_of_nonneg (Int.emod_nonneg z hpos.ne')]
  have hcast : ((256 ^ w : ℕ) : ℤ) = 256 ^ w := by push_cast; rfl
  rw [← hcast, Int.emod_bmod]
  obtain ⟨hlo, hhi⟩ := hz
  apply Int.bmod_eq_of_le <;> rw [hcast] <;> omega

lemma Fits.mono {v : ℕ} (hvw : v ≤ w) (h : Fits v z) : Fits w z := by
  have : (256 : ℤ) ^ v ≤ 256 ^ w := by exact_mod_cast Nat.pow_le_pow_right (by decide) hvw
  obtain ⟨hlo, hhi⟩ := h
  constructor <;> omega

lemma write_append {p q r v : List ℕ} (h : v.length = q.length) :
    write (p ++ (q ++ r)) p.length v = p ++ (v ++ r) := by
  rw [write, take_left, h, ← drop_drop, drop_left, drop_left, append_assoc]

lemma length_write {v : List ℕ} (h : i + v.length ≤ bytes.length) :
    (write bytes i v).length = bytes.length := by
  simp only [write, length_append, length_take, length_drop]
  omega

/-- Writing two strings one after the other. -/
lemma write_write {v v' : List ℕ} (h : i + v.length + v'.length ≤ bytes.length) :
    write (write bytes i v) (i + v.length) v' = write bytes i (v ++ v') := by
  have hi : (bytes.take i).length = i := by rw [length_take]; omega
  have hdrop : bytes.drop (i + v.length) =
      (bytes.drop (i + v.length)).take v'.length ++ bytes.drop (i + v.length + v'.length) := by
    have hspl := take_append_drop v'.length (bytes.drop (i + v.length))
    rw [drop_drop] at hspl
    exact hspl.symm
  have hlen : v'.length = ((bytes.drop (i + v.length)).take v'.length).length := by
    rw [length_take, length_drop]
    omega
  have hpos : i + v.length = (bytes.take i ++ v).length := by rw [length_append, hi]
  calc write (write bytes i v) (i + v.length) v'
      = write (bytes.take i ++ v ++ ((bytes.drop (i + v.length)).take v'.length ++
          bytes.drop (i + v.length + v'.length))) (bytes.take i ++ v).length v' := by
        rw [← hdrop, ← hpos]
        rfl
    _ = bytes.take i ++ v ++ (v' ++ bytes.drop (i + v.length + v'.length)) := write_append hlen
    _ = write bytes i (v ++ v') := by
        rw [write, Nat.add_assoc]
        simp

end Bytes

namespace Linking

open Bytes

/-- Bytes followed by one distance for each target. -/
structure Piece (σ : Type*) where
  head : List ℕ
  size : σ
  targets : List ℕ

/-- The place of a distance. -/
structure Reference (σ : Type*) where
  size : σ
  /-- The start of the piece. -/
  origin : ℕ
  place : ℕ
  target : ℕ

variable {σ : Type*} (width : σ → ℕ)

namespace Piece

def length (p : Piece σ) : ℕ := p.head.length + width p.size * p.targets.length

/-- The piece before it is linked. -/
def blank (p : Piece σ) : List ℕ :=
  p.head ++ List.replicate (width p.size * p.targets.length) 0

/-- The piece at a location, when the positions of the targets are known. -/
def encode (starts : ℕ → ℕ) (location : ℕ) (p : Piece σ) : List ℕ :=
  p.head ++ p.targets.flatMap fun t => splitInt (width p.size) ((starts t : ℤ) - location)

end Piece

/-- The references of a list of targets whose distances stand from `place` on. -/
def referencesFrom (size : σ) (origin : ℕ) : ℕ → List ℕ → List (Reference σ)
  | _, [] => []
  | place, t :: ts =>
    ⟨size, origin, place, t⟩ :: referencesFrom size origin (place + width size) ts

def length (code : List (Piece σ)) : ℕ := (code.map (Piece.length width)).sum

def blank (code : List (Piece σ)) : List ℕ := code.flatMap (Piece.blank width)

def references : ℕ → List (Piece σ) → List (Reference σ)
  | _, [] => []
  | location, p :: code =>
    referencesFrom width p.size location (location + p.head.length) p.targets ++
      references (location + p.length width) code

def encode (starts : ℕ → ℕ) : ℕ → List (Piece σ) → List ℕ
  | _, [] => []
  | location, p :: code =>
    p.encode width starts location ++ encode starts (location + p.length width) code

/-- Fill in one distance. -/
def patch (starts : ℕ → ℕ) (bytes : List ℕ) (r : Reference σ) : List ℕ :=
  write bytes r.place (splitInt (width r.size) ((starts r.target : ℤ) - r.origin))

variable {width} {starts : ℕ → ℕ} {p : Piece σ} {code code' : List (Piece σ)} {loc : ℕ}

@[simp] lemma length_nil : length width ([] : List (Piece σ)) = 0 := rfl

@[simp] lemma length_cons : length width (p :: code) = p.length width + length width code := rfl

@[simp] lemma length_append :
    length width (code ++ code') = length width code + length width code' := by
  simp [length]

@[simp] lemma blank_append :
    blank width (code ++ code') = blank width code ++ blank width code' := by
  simp [blank]

@[simp] lemma length_blank : (blank width code).length = length width code := by
  simp only [blank, length, length_flatMap]
  congr 2
  ext p
  simp [Piece.blank, Piece.length]

lemma references_append : references width loc (code ++ code') =
    references width loc code ++ references width (loc + length width code) code' := by
  induction code generalizing loc with
  | nil => rfl
  | cons p code ih => simp [references, ih, Nat.add_assoc]

lemma length_piece_encode : (p.encode width starts loc).length = p.length width := by
  rw [Piece.encode, Piece.length]
  simp [Nat.mul_comm]

lemma length_encode : (encode width starts loc code).length = length width code := by
  induction code generalizing loc with
  | nil => rfl
  | cons p code ih => rw [encode, List.length_append, ih, length_piece_encode, length_cons]

lemma encode_append : encode width starts loc (code ++ code') =
    encode width starts loc code ++ encode width starts (loc + length width code) code' := by
  induction code generalizing loc with
  | nil => rfl
  | cons p code ih => simp [encode, ih, Nat.add_assoc]

/-! ### Properties of every piece -/

/-- `P` holds of every piece and its location. -/
def ForallFrom (width : σ → ℕ) (P : ℕ → Piece σ → Prop) : ℕ → List (Piece σ) → Prop
  | _, [] => True
  | location, p :: code => P location p ∧ ForallFrom width P (location + p.length width) code

variable {P Q : ℕ → Piece σ → Prop}

lemma forallFrom_append : ForallFrom width P loc (code ++ code') ↔
    ForallFrom width P loc code ∧ ForallFrom width P (loc + length width code) code' := by
  induction code generalizing loc with
  | nil => simp [ForallFrom]
  | cons p code ih => simp [ForallFrom, ih, and_assoc, Nat.add_assoc]

lemma ForallFrom.imp (h : ForallFrom width P loc code)
    (himp : ∀ l p, loc ≤ l → l + p.length width ≤ loc + length width code → P l p → Q l p) :
    ForallFrom width Q loc code := by
  induction code generalizing loc with
  | nil => trivial
  | cons p code ih =>
    rw [length_cons] at himp
    refine ⟨himp loc p le_rfl (by omega) h.1, ih h.2 ?_⟩
    intro l p' hl hle
    exact himp l p' (by omega) (by omega)

lemma ForallFrom.and (h : ForallFrom width P loc code) (h' : ForallFrom width Q loc code) :
    ForallFrom width (fun l p => P l p ∧ Q l p) loc code := by
  induction code generalizing loc with
  | nil => trivial
  | cons p code ih => exact ⟨⟨h.1, h'.1⟩, ih h.2 h'.2⟩

/-- All distances are representable. -/
def InRange (width : σ → ℕ) (starts : ℕ → ℕ) (location : ℕ) (code : List (Piece σ)) : Prop :=
  ForallFrom width (fun l p => ∀ t ∈ p.targets, Fits (width p.size) ((starts t : ℤ) - l))
    location code

variable {r : Reference σ} {ts : List ℕ}

/-- The distance of a reference is the `k`-th one of its piece. -/
lemma mem_referencesFrom_cases {size : σ} {origin place : ℕ}
    (h : r ∈ referencesFrom width size origin place ts) :
    r.size = size ∧ r.origin = origin ∧
      ∃ k, ts[k]? = some r.target ∧ r.place = place + k * width size := by
  induction ts generalizing place with
  | nil => cases h
  | cons t ts ih =>
    rw [referencesFrom, mem_cons] at h
    obtain rfl | h := h
    · exact ⟨rfl, rfl, 0, by simp⟩
    · obtain ⟨hsize, horigin, k, hk, hplace⟩ := ih h
      exact ⟨hsize, horigin, k + 1, hk, by rw [hplace, Nat.succ_mul]; omega⟩

lemma mem_referencesFrom {size : σ} {origin place : ℕ}
    (h : r ∈ referencesFrom width size origin place ts) :
    r.size = size ∧ r.origin = origin ∧ r.target ∈ ts ∧
      r.place + width size ≤ place + width size * ts.length := by
  obtain ⟨hsize, horigin, k, hk, hplace⟩ := mem_referencesFrom_cases h
  obtain ⟨hlt, -⟩ := List.getElem?_eq_some_iff.1 hk
  have hle : (k + 1) * width size ≤ ts.length * width size := Nat.mul_le_mul_right _ hlt
  rw [Nat.succ_mul, Nat.mul_comm ts.length] at hle
  exact ⟨hsize, horigin, mem_of_getElem? hk, by omega⟩

lemma ForallFrom.mem_references {R : ℕ → σ → ℕ → Prop}
    (h : ForallFrom width (fun l p => ∀ t ∈ p.targets, R l p.size t) loc code)
    (hr : r ∈ references width loc code) :
    R r.origin r.size r.target ∧ r.place + width r.size ≤ loc + length width code := by
  induction code generalizing loc with
  | nil => cases hr
  | cons p code ih =>
    rw [references, mem_append] at hr
    rw [length_cons]
    rcases hr with hr | hr
    · obtain ⟨hsize, horigin, htgt, hplace⟩ := mem_referencesFrom hr
      rw [hsize, horigin]
      refine ⟨h.1 _ htgt, ?_⟩
      rw [Piece.length]
      omega
    · obtain ⟨hR, hplace⟩ := ih h.2 hr
      exact ⟨hR, by omega⟩

lemma le_place_of_mem (h : r ∈ references width loc code) : loc ≤ r.place := by
  induction code generalizing loc with
  | nil => cases h
  | cons p code ih =>
    rw [references, mem_append] at h
    rcases h with h | h
    · obtain ⟨-, -, k, -, hplace⟩ := mem_referencesFrom_cases h
      omega
    · exact le_trans (Nat.le_add_right _ _) (ih h)

/-- No two distances share a byte. -/
lemma pairwise_references (loc : ℕ) (code : List (Piece σ)) : (references width loc code).Pairwise
    fun r r' => r.place + width r.size ≤ r'.place := by
  have hfrom : ∀ (size : σ) (origin place : ℕ) (ts : List ℕ),
      (referencesFrom width size origin place ts).Pairwise
        fun r r' => r.place + width r.size ≤ r'.place := by
    intro size origin place ts
    induction ts generalizing place with
    | nil => exact .nil
    | cons t ts ih =>
      refine pairwise_cons.2 ⟨fun r' hr' => ?_, ih _⟩
      obtain ⟨-, -, k, -, hplace⟩ := mem_referencesFrom_cases hr'
      dsimp only
      omega
  induction code generalizing loc with
  | nil => exact .nil
  | cons p code ih =>
    refine pairwise_append.2 ⟨hfrom _ _ _ _, ih _, fun r hr r' hr' => ?_⟩
    obtain ⟨hsize, -, -, hle⟩ := mem_referencesFrom hr
    have hle' := le_place_of_mem hr'
    rw [Piece.length] at hle'
    rw [hsize]
    omega

/-- A reference stands at zeroes before the code is linked. -/
lemma drop_blank (h : r ∈ references width loc code) :
    ∃ rest, (blank width code).drop (r.place - loc) = List.replicate (width r.size) 0 ++ rest := by
  induction code generalizing loc with
  | nil => cases h
  | cons p code ih =>
    rw [references, mem_append] at h
    rw [blank, flatMap_cons]
    rcases h with h | h
    · obtain ⟨hsize, -, k, hk, hplace⟩ := mem_referencesFrom_cases h
      obtain ⟨hlt, -⟩ := List.getElem?_eq_some_iff.1 hk
      obtain ⟨n, hn⟩ := Nat.exists_eq_add_of_lt hlt
      have hlen : width p.size * p.targets.length =
          k * width p.size + (width p.size + n * width p.size) := by rw [hn]; ring
      rw [Piece.blank, hplace, hsize, hlen, replicate_add, replicate_add, Nat.add_assoc,
        Nat.add_sub_cancel_left, append_assoc, append_assoc, append_assoc, ← drop_drop, drop_left,
        drop_left' length_replicate]
      exact ⟨_, rfl⟩
    · have hle := le_place_of_mem h
      have hlen : (p.blank width).length = p.length width := by simp [Piece.blank, Piece.length]
      have hplace : r.place - loc = p.length width + (r.place - (loc + p.length width)) := by omega
      rw [hplace, ← drop_drop, drop_left' hlen]
      exact ih h

/-! ### Linking -/

lemma foldl_patch_referencesFrom (width : σ → ℕ) (starts : ℕ → ℕ) (size : σ)
    (origin : ℕ) (ts pre post : List ℕ) :
    (referencesFrom width size origin pre.length ts).foldl (patch width starts)
        (pre ++ (List.replicate (width size * ts.length) 0 ++ post)) =
      pre ++ (ts.flatMap (fun t => splitInt (width size) ((starts t : ℤ) - origin)) ++ post) := by
  induction ts generalizing pre with
  | nil => rfl
  | cons t ts ih =>
    have hpatch : patch width starts
        (pre ++ (List.replicate (width size * (t :: ts).length) 0 ++ post))
          ⟨size, origin, pre.length, t⟩ =
        (pre ++ splitInt (width size) ((starts t) - origin)) ++
          (List.replicate (width size * ts.length) 0 ++ post) := by
      rw [List.length_cons, Nat.mul_succ, Nat.add_comm, replicate_add, append_assoc,
        patch, write_append (by simp), append_assoc]
    have hlen : pre.length + width size =
        (pre ++ splitInt (width size) ((starts t) - origin)).length := by simp
    rw [referencesFrom, foldl_cons, hpatch, hlen, ih]
    simp

/-- Patching all references of blank code links it. -/
theorem foldl_patch (width : σ → ℕ) (starts : ℕ → ℕ) (pre post : List ℕ) (code : List (Piece σ)) :
    (references width pre.length code).foldl (patch width starts)
        (pre ++ (blank width code ++ post)) =
      pre ++ (encode width starts pre.length code ++ post) := by
  induction code generalizing pre with
  | nil => rfl
  | cons p code ih =>
    have hpiece : (referencesFrom width p.size pre.length (pre.length + p.head.length)
          p.targets).foldl (patch width starts) (pre ++ (blank width (p :: code) ++ post)) =
        (pre ++ p.encode width starts pre.length) ++ (blank width code ++ post) := by
      have h := foldl_patch_referencesFrom width starts p.size pre.length p.targets
        (pre ++ p.head) (blank width code ++ post)
      simpa [blank, Piece.blank, Piece.encode] using h
    have hlen : pre.length + p.length width = (pre ++ p.encode width starts pre.length).length := by
      simp [length_piece_encode]
    rw [references, foldl_append, hpiece, hlen, ih, encode, ← hlen]
    simp

/-! ### Code in memory -/

lemma drop_flatMap {f : ℕ → List ℕ} {w : ℕ} (hf : ∀ t, (f t).length = w) (rest : List ℕ) {k t : ℕ}
    (ht : ts[k]? = some t) : ∃ rest', (ts.flatMap f ++ rest).drop (k * w) = f t ++ rest' := by
  induction ts generalizing k with
  | nil => cases ht
  | cons t' ts ih =>
    rw [flatMap_cons, append_assoc]
    cases k with
    | zero =>
      obtain rfl : t' = t := by simpa using ht
      rw [Nat.zero_mul]
      exact ⟨_, rfl⟩
    | succ k =>
      obtain ⟨rest', h⟩ := ih (by simpa using ht)
      refine ⟨rest', ?_⟩
      rw [Nat.succ_mul, Nat.add_comm, ← drop_drop, drop_left' (hf t'), h]

/-- The linked code stands in the bytes from `location` on, and all its distances are
representable. -/
structure CodeAt (width : σ → ℕ) (starts : ℕ → ℕ) (bytes : List ℕ) (location : ℕ)
    (code : List (Piece σ)) : Prop where
  drop : ∃ rest, bytes.drop location = encode width starts location code ++ rest
  inRange : InRange width starts location code

/-- Distances do not change when everything is moved. -/
lemma encode_add (base : ℕ) :
    encode width (fun t => base + starts t) (base + loc) code = encode width starts loc code := by
  induction code generalizing loc with
  | nil => rfl
  | cons p code ih =>
    rw [encode, encode, Nat.add_assoc, ih, Piece.encode, Piece.encode]
    simp only [Nat.cast_add, add_sub_add_left_eq_sub]

lemma InRange.add (base : ℕ) (h : InRange width starts loc code) :
    InRange width (fun t => base + starts t) (base + loc) code := by
  induction code generalizing loc with
  | nil => trivial
  | cons p code ih =>
    refine ⟨fun t ht => ?_, ?_⟩
    · simpa only [Nat.cast_add, add_sub_add_left_eq_sub] using h.1 t ht
    · rw [Nat.add_assoc]
      exact ih h.2

namespace CodeAt

variable {bytes : List ℕ}

/-- Code with other bytes before and after it. -/
lemma append (h : CodeAt width starts bytes loc code) (before after : List ℕ) :
    CodeAt width (fun t => before.length + starts t) (before ++ (bytes ++ after))
      (before.length + loc) code := by
  obtain ⟨rest, hdrop⟩ := h.drop
  refine ⟨⟨rest ++ after.drop (loc - bytes.length), ?_⟩, h.inRange.add before.length⟩
  rw [← drop_drop, drop_left, drop_append, hdrop, encode_add, append_assoc]

lemma left (h : CodeAt width starts bytes loc (code ++ code')) :
    CodeAt width starts bytes loc code := by
  obtain ⟨rest, hdrop⟩ := h.drop
  refine ⟨?_, (forallFrom_append.1 h.inRange).1⟩
  rw [hdrop, encode_append, append_assoc]
  exact ⟨_, rfl⟩

lemma right (h : CodeAt width starts bytes loc (code ++ code')) :
    CodeAt width starts bytes (loc + length width code) code' := by
  obtain ⟨rest, hdrop⟩ := h.drop
  refine ⟨⟨rest, ?_⟩, (forallFrom_append.1 h.inRange).2⟩
  rw [← drop_drop, hdrop, encode_append, append_assoc, drop_left' length_encode]

section

variable (h : CodeAt width starts bytes loc (p :: code))

include h

lemma tail : CodeAt width starts bytes (loc + p.length width) code := by
  have h' : CodeAt width starts bytes loc ([p] ++ code) := h
  simpa using h'.right

lemma head : ∃ rest, bytes.drop loc = p.head ++ rest := by
  obtain ⟨rest, hdrop⟩ := h.drop
  rw [hdrop, encode, Piece.encode, append_assoc, append_assoc]
  exact ⟨_, rfl⟩

/-- The distance of the `k`-th target is found behind the head of the piece. -/
lemma target {k t : ℕ} (ht : p.targets[k]? = some t) :
    Fits (width p.size) ((starts t : ℤ) - loc) ∧
    ∃ rest, bytes.drop (loc + p.head.length + k * width p.size) =
      splitInt (width p.size) ((starts t : ℤ) - loc) ++ rest := by
  obtain ⟨rest, hdrop⟩ := h.drop
  refine ⟨h.inRange.1 t (mem_of_getElem? ht), ?_⟩
  rw [encode, Piece.encode, append_assoc, append_assoc] at hdrop
  rw [← drop_drop, ← drop_drop, hdrop, drop_left]
  exact drop_flatMap (f := fun t => splitInt (width p.size) (starts t - loc))
    (fun t => length_splitInt) _ ht

end

/-- The distance of every reference can be read. -/
lemma reference {r : Reference σ} (h : CodeAt width starts bytes loc code)
    (hr : r ∈ references width loc code) :
    Fits (width r.size) ((starts r.target : ℤ) - r.origin) ∧
    ∃ rest, bytes.drop r.place =
      splitInt (width r.size) ((starts r.target : ℤ) - r.origin) ++ rest := by
  induction code generalizing loc with
  | nil => cases hr
  | cons p code ih =>
    rw [references, mem_append] at hr
    rcases hr with hr | hr
    · obtain ⟨hsize, horigin, k, hk, hplace⟩ := mem_referencesFrom_cases hr
      rw [hsize, horigin, hplace]
      exact h.target hk
    · exact ih h.tail hr

end CodeAt

end Linking

end WebKit
