import WebKit.Core.Records
import WebKit.WTF.WString

/-!
# Serialized actions

An action is one byte for its type. A `CSSDisplayNoneSelector` is followed by its selector: the
length in four bytes, a flag for wide characters, and the characters. The machine is little
endian.
-/

namespace WebKit.ContentExtensions

open WTF Records List

inductive ActionType where
  | blockLoad
  | blockCookies
  | cssDisplayNoneSelector
  | cssDisplayNoneStyleSheet
  | ignorePreviousRules
  | makeHTTPS
  | invalidAction
  deriving DecidableEq, Inhabited

/-- The value of the enumerator. -/
def ActionType.toByte : ActionType → ℕ
  | .blockLoad => 0
  | .blockCookies => 1
  | .cssDisplayNoneSelector => 2
  | .cssDisplayNoneStyleSheet => 3
  | .ignorePreviousRules => 4
  | .makeHTTPS => 5
  | .invalidAction => 6

/-- An action as `deserialize` returns it, with the characters of its string. -/
structure Action where
  type : ActionType
  actionID : ℕ
  stringArgument : List ℕ

/-- The bytes of an `unsigned`. -/
def unsignedBytes (n : ℕ) : List ℕ :=
  [n % 256, n / 2 ^ 8 % 256, n / 2 ^ 16 % 256, n / 2 ^ 24 % 256]

/-- The bytes of a `UChar`. -/
def wideBytes (c : ℕ) : List ℕ := [c % 256, c / 2 ^ 8 % 256]

/-- The bytes that `serializeSelector` appends. -/
def selectorBytes (selector : WString) : List ℕ :=
  let wideCharacters := !selector.is8Bit
  [ActionType.cssDisplayNoneSelector.toByte] ++ unsignedBytes selector.characters.length ++
    [if wideCharacters then 1 else 0] ++
    if wideCharacters then selector.characters.flatMap wideBytes
    else selector.characters.map (· % 256)

def serializeSelector (actions : List ℕ) (selector : WString) : List ℕ :=
  actions ++ selectorBytes selector

namespace Action

/-- Read an `unsigned`. -/
def readUnsigned (actions : List ℕ) (i : ℕ) : ℕ :=
  actions.getD i 0 + 2 ^ 8 * actions.getD (i + 1) 0 + 2 ^ 16 * actions.getD (i + 2) 0 +
    2 ^ 24 * actions.getD (i + 3) 0

/-- Read `length` characters of one byte. -/
def readCharacters (actions : List ℕ) (start length : ℕ) : List ℕ :=
  (List.range length).map fun i => actions.getD (start + i) 0

/-- Read `length` characters of two bytes. -/
def readWideCharacters (actions : List ℕ) (start length : ℕ) : List ℕ :=
  (List.range length).map fun i =>
    actions.getD (start + 2 * i) 0 + 2 ^ 8 * actions.getD (start + 2 * i + 1) 0

/-- `none` when an assertion fails. -/
def deserialize (actions : List ℕ) (location : ℕ) : Option Action :=
  let actionsLength := actions.length
  if location < actionsLength then
    match actions.getD location 0 with
    | 1 => some ⟨.blockCookies, location, []⟩
    | 0 => some ⟨.blockLoad, location, []⟩
    | 4 => some ⟨.ignorePreviousRules, location, []⟩
    | 5 => some ⟨.makeHTTPS, location, []⟩
    | 2 =>
      let stringStartIndex := (location + 6) % 2 ^ 32
      if actionsLength ≥ stringStartIndex then
        let selectorLength := readUnsigned actions (location + 1)
        let wideCharacters := actions.getD (location + 5) 0 ≠ 0
        if wideCharacters then
          if actionsLength ≥ stringStartIndex + selectorLength * 2 then
            some ⟨.cssDisplayNoneSelector, location,
              readWideCharacters actions stringStartIndex selectorLength⟩
          else none
        else if actionsLength ≥ stringStartIndex + selectorLength then
          some ⟨.cssDisplayNoneSelector, location,
            readCharacters actions stringStartIndex selectorLength⟩
        else none
      else none
    | _ => none
  else none

end Action

/-! ### Reading back what was written -/

/-- What is serialized for a rule, or for several rules together. -/
inductive Entry where
  | plain (type : ActionType)
  | selector (selector : WString)

namespace Entry

def type : Entry → ActionType
  | plain type => type
  | selector _ => .cssDisplayNoneSelector

def characters : Entry → List ℕ
  | plain _ => []
  | selector s => s.characters

def bytes : Entry → List ℕ
  | plain type => [type.toByte]
  | selector s => selectorBytes s

/-- An entry that can be read back. -/
def Readable : Entry → Prop
  | plain type => type = .blockLoad ∨ type = .blockCookies ∨ type = .ignorePreviousRules ∨
      type = .makeHTTPS
  | selector _ => True

end Entry

section

open WebKit.ContentExtensions.Action

variable {actions : List ℕ} {loc : ℕ}

lemma getD_of_drop {bytes rest : List ℕ} (h : actions.drop loc = bytes ++ rest) {i : ℕ}
    (hi : i < bytes.length) : actions.getD (loc + i) 0 = bytes[i] := by
  have hget : actions[loc + i]? = some bytes[i] := by
    rw [← getElem?_drop, h, getElem?_append_left hi, getElem?_eq_getElem hi]
  simp [hget]

lemma length_of_drop {bytes rest : List ℕ} (h : actions.drop loc = bytes ++ rest)
    (hne : bytes ≠ []) : loc + bytes.length ≤ actions.length := by
  have hlen := congrArg length h
  have hpos := length_pos_iff.mpr hne
  rw [length_drop, length_append] at hlen
  omega

variable {rest : List ℕ}

lemma readUnsigned_of_drop {n : ℕ} (hn : n < 2 ^ 32)
    (h : actions.drop loc = unsignedBytes n ++ rest) : readUnsigned actions loc = n := by
  have h₀ := getD_of_drop (i := 0) h (by simp [unsignedBytes])
  have h₁ := getD_of_drop (i := 1) h (by simp [unsignedBytes])
  have h₂ := getD_of_drop (i := 2) h (by simp [unsignedBytes])
  have h₃ := getD_of_drop (i := 3) h (by simp [unsignedBytes])
  rw [Nat.add_zero] at h₀
  rw [readUnsigned, h₀, h₁, h₂, h₃]
  simp only [unsignedBytes, getElem_cons_zero, getElem_cons_succ]
  omega

lemma readCharacters_of_drop {cs rest : List ℕ} (hcs : ∀ c ∈ cs, c < 2 ^ 8)
    (h : actions.drop loc = cs.map (· % 256) ++ rest) :
    readCharacters actions loc cs.length = cs := by
  apply ext_getElem
  · simp [readCharacters]
  · intro i hi hi'
    have hget := getD_of_drop h (by simpa using hi')
    have hlt := hcs cs[i] (getElem_mem hi')
    simp only [readCharacters, getElem_map, getElem_range]
    rw [hget, getElem_map]
    omega

lemma readWideCharacters_of_drop {cs rest : List ℕ} (hcs : ∀ c ∈ cs, c < 2 ^ 16)
    (h : actions.drop loc = cs.flatMap wideBytes ++ rest) :
    readWideCharacters actions loc cs.length = cs := by
  induction cs generalizing loc with
  | nil => simp [readWideCharacters]
  | cons c cs ih =>
    have htail : actions.drop (loc + 2) = cs.flatMap wideBytes ++ rest := by
      rw [← drop_drop, h]
      simp [wideBytes]
    have hc := hcs c mem_cons_self
    have h₀ := getD_of_drop (i := 0) h (by simp [wideBytes])
    have h₁ := getD_of_drop (i := 1) h (by simp [wideBytes])
    have hrest := ih (fun d hd => hcs d (mem_cons_of_mem _ hd)) htail
    simp only [flatMap_cons, wideBytes, cons_append, getElem_cons_zero,
      getElem_cons_succ, Nat.add_zero] at h₀ h₁
    rw [readWideCharacters, length_cons, range_succ_eq_map, map_cons]
    refine congrArg₂ cons ?_ ?_
    · rw [Nat.add_zero]
      omega
    · conv_rhs => rw [← hrest]
      rw [map_map]
      refine map_congr_left fun i _ => ?_
      simp only [Function.comp_apply]
      rw [show loc + 2 * (i + 1) = loc + 2 + 2 * i by omega]

lemma deserialize_plain {type : ActionType} (hread : (Entry.plain type).Readable)
    (h : actions.drop loc = [type.toByte] ++ rest) :
    deserialize actions loc = some ⟨type, loc, []⟩ := by
  have hlen := length_of_drop h (by simp)
  have hbyte := getD_of_drop (i := 0) h (by simp)
  rw [length_singleton] at hlen
  rw [Nat.add_zero] at hbyte
  rw [deserialize, if_pos (by omega), hbyte]
  rcases hread with rfl | rfl | rfl | rfl <;> rfl

lemma deserialize_selector {selector : WString} (hsize : actions.length < 2 ^ 32)
    (h : actions.drop loc = selectorBytes selector ++ rest) :
    deserialize actions loc = some ⟨.cssDisplayNoneSelector, loc, selector.characters⟩ := by
  have hlen := length_of_drop h (by simp [selectorBytes])
  have hbyte : actions.getD loc 0 = 2 := by
    have := getD_of_drop (i := 0) h (by simp [selectorBytes])
    simpa [selectorBytes, ActionType.toByte] using this
  have hbyt : (selectorBytes selector).length = 6 +
      if selector.is8Bit then selector.characters.length
      else selector.characters.length * 2 := by
    cases hw : selector.is8Bit <;> simp [selectorBytes, hw, unsignedBytes, wideBytes] <;> omega
  have hst : (loc + 6) % 2 ^ 32 = loc + 6 := Nat.mod_eq_of_lt (by omega)
  have hchs : selector.characters.length < 2 ^ 32 := by
    split_ifs at hbyt <;> omega
  have hunsigned : readUnsigned actions (loc + 1) = selector.characters.length := by
    obtain ⟨rest', hrest'⟩ : ∃ rest', actions.drop (loc + 1) =
        unsignedBytes selector.characters.length ++ rest' :=
      ⟨_, by rw [← drop_drop, h]; rfl⟩
    exact readUnsigned_of_drop hchs hrest'
  have hflag : actions.getD (loc + 5) 0 = if selector.is8Bit then 0 else 1 := by
    have := getD_of_drop (i := 5) h (by rw [hbyt]; omega)
    cases hw : selector.is8Bit <;> simpa [selectorBytes, hw, unsignedBytes] using this
  have htail : actions.drop (loc + 6) = (if selector.is8Bit then
      selector.characters.map (· % 256) else selector.characters.flatMap wideBytes) ++ rest := by
    rw [← drop_drop, h]
    cases hw : selector.is8Bit <;> simp [selectorBytes, hw, unsignedBytes]
  rw [deserialize, if_pos (by omega), hbyte]
  rw [hst, if_pos (by omega), hunsigned, hflag]
  cases hw : selector.is8Bit
  · simp only [hw, Bool.false_eq_true, if_false] at hbyt htail ⊢
    rw [if_pos (by omega), if_pos (by omega)]
    rw [readWideCharacters_of_drop (fun c hc => selector.lt_of_mem hc) htail]
  · simp only [hw, if_true] at hbyt htail ⊢
    rw [if_neg (by omega), if_pos (by omega)]
    rw [readCharacters_of_drop (fun c hc => by simpa [hw] using selector.fits c hc) htail]

/-- An entry is read back at its offset. -/
theorem deserialize_offset {entries : List Entry} {k : ℕ} {e : Entry} (hread : e.Readable)
    (h : entries[k]? = some e) (hsize : (concat Entry.bytes entries).length < 2 ^ 32) :
    deserialize (concat Entry.bytes entries) (offset Entry.bytes entries k) =
      some ⟨e.type, offset Entry.bytes entries k, e.characters⟩ := by
  obtain ⟨rest, hrest⟩ := drop_offset Entry.bytes h
  cases e with
  | plain type => exact deserialize_plain hread hrest
  | selector s => exact deserialize_selector hsize hrest

end

end WebKit.ContentExtensions
