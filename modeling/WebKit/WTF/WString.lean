import Mathlib

/-!
# Strings and `StringBuilder`

A string stores its characters with eight or with sixteen bits each.
-/

namespace WebKit.WTF

open List

structure WString where
  is8Bit : Bool
  characters : List ℕ
  fits : ∀ c ∈ characters, c < if is8Bit then 2 ^ 8 else 2 ^ 16

namespace WString

def emptyString : WString := ⟨true, [], by simp⟩

def comma : WString := ⟨true, [44], by simp⟩

lemma lt_of_mem (s : WString) {c : ℕ} (hc : c ∈ s.characters) : c < 2 ^ 16 := by
  have h := s.fits c hc
  split_ifs at h <;> omega

/-- `StringBuilder::append` of a string. The first string is kept as it is, and a single
character of a string with sixteen bits may be stored with eight. -/
def append (b s : WString) : WString :=
  if s.characters = [] then b
  else if b.characters = [] then s
  else if h : b.is8Bit = true ∧
      (s.is8Bit = true ∨ s.characters.length = 1 ∧ ∀ c ∈ s.characters, c < 2 ^ 8) then
    ⟨true, b.characters ++ s.characters, by
      intro c hc
      rcases List.mem_append.mp hc with hc | hc
      · simpa [h.1] using b.fits c hc
      · rcases h.2 with h8 | ⟨-, h8⟩
        · simpa [h8] using s.fits c hc
        · simpa using h8 c hc⟩
  else ⟨false, b.characters ++ s.characters, by
    intro c hc
    rcases List.mem_append.mp hc with hc | hc
    · simpa using b.lt_of_mem hc
    · simpa using s.lt_of_mem hc⟩

@[simp] lemma characters_append (b s : WString) :
    (b.append s).characters = b.characters ++ s.characters := by
  unfold append
  split_ifs with h₁ h₂
  · simp [h₁]
  · simp [h₂]
  · rfl
  · rfl

/-- The strings with commas between them. -/
def joinWithCommas (strings : List WString) : WString :=
  strings.zipIdx.foldl
    (fun b entry => (if entry.2 ≠ 0 then b.append comma else b).append entry.1) emptyString

/-- The parts of a string between its commas. -/
def commaParts : List ℕ → List (List ℕ)
  | [] => [[]]
  | c :: cs =>
    if c = 44 then [] :: commaParts cs
    else
      match commaParts cs with
      | [] => [[c]]
      | part :: parts => (c :: part) :: parts

lemma commaParts_ne_nil (cs : List ℕ) : commaParts cs ≠ [] := by
  cases cs with
  | nil => simp [commaParts]
  | cons c cs =>
    unfold commaParts
    split_ifs
    · simp
    · split <;> simp

/-- A comma separates the parts on both sides of it. -/
lemma commaParts_append (cs ds : List ℕ) :
    commaParts (cs ++ 44 :: ds) = commaParts cs ++ commaParts ds := by
  induction cs with
  | nil => simp [commaParts]
  | cons c cs ih =>
    rw [cons_append, commaParts, ih]
    conv_rhs => rw [commaParts]
    split_ifs with hc
    · rfl
    · obtain ⟨part, parts, hparts⟩ := exists_cons_of_ne_nil (commaParts_ne_nil cs)
      rw [hparts]
      rfl

lemma characters_foldl_append (strings : List WString) (k : ℕ) (b : WString) :
    ((strings.zipIdx (k + 1)).foldl
      (fun b entry => (if entry.2 ≠ 0 then b.append comma else b).append entry.1) b).characters =
    b.characters ++ strings.flatMap fun s => 44 :: s.characters := by
  induction strings generalizing k b with
  | nil => simp
  | cons s strings ih =>
    rw [zipIdx_cons, foldl_cons, ih]
    simp [comma]

lemma commaParts_flatMap (cs : List ℕ) (strings : List WString) :
    commaParts (cs ++ strings.flatMap fun s => 44 :: s.characters) =
      commaParts cs ++ strings.flatMap fun s => commaParts s.characters := by
  induction strings generalizing cs with
  | nil => simp
  | cons s strings ih =>
    simp [commaParts_append, ih]

/-- The parts of joined strings are the parts of the strings. -/
theorem commaParts_joinWithCommas {strings : List WString} (h : strings ≠ []) :
    commaParts (joinWithCommas strings).characters =
      strings.flatMap fun s => commaParts s.characters := by
  obtain ⟨s, strings, rfl⟩ := exists_cons_of_ne_nil h
  have hjoin : (joinWithCommas (s :: strings)).characters =
      s.characters ++ strings.flatMap fun s => 44 :: s.characters := by
    rw [joinWithCommas, zipIdx_cons, foldl_cons, characters_foldl_append]
    simp [emptyString]
  simp [hjoin, commaParts_flatMap]

end WString

end WebKit.WTF
