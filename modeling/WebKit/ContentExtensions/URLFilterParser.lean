import WebKit.Core.Run

/-!
# URL filters that match everything

`PatternParser` builds terms from the callbacks of Yarr's parser. When the pattern is complete,
it rewrites the terms and asks whether one of them must consume a character. A filter without such
a term is reported as one that matches everything.
-/

namespace WebKit.ContentExtensions

open WebKit.Core Relation List Bool
open Option hiding any_eq_false

/-! ### Terms -/

inductive AtomQuantifier where
  | one
  | zeroOrOne
  | zeroOrMore
  | oneOrMore
deriving DecidableEq, Repr

structure CharacterSet where
  characters : Finset (Fin 128) := ∅
  inverted : Bool := false

/-- Without the term that is not valid. -/
inductive Term where
  | characterSet (set : CharacterSet) (quantifier : AtomQuantifier)
  | group (terms : List Term) (quantifier : AtomQuantifier)

def CharacterSet.toASCIIUpper (c : Fin 128) : Fin 128 := if 97 ≤ c ∧ c ≤ 122 then c - 32 else c

def CharacterSet.toASCIILower (c : Fin 128) : Fin 128 := if 65 ≤ c ∧ c ≤ 90 then c + 32 else c

/-- A character without case is its own upper and lower case. -/
def CharacterSet.addCharacter (s : CharacterSet) (isCaseSensitive : Bool) (c : Fin 128) :
    CharacterSet :=
  if isCaseSensitive then { s with characters := insert c s.characters }
  else { s with characters := insert (toASCIILower c) (insert (toASCIIUpper c) s.characters) }

namespace Term

def universalTransition (quantifier : AtomQuantifier) : Term :=
  characterSet { characters := Finset.univ.erase 0 } quantifier

def canonicalDotStar : Term := universalTransition .zeroOrMore

def endOfLineAssertion : Term := characterSet { characters := {0} } .one

def quantifier : Term → AtomQuantifier
  | characterSet _ q | group _ q => q

def quantify (q : AtomQuantifier) : Term → Term
  | characterSet s _ => characterSet s q
  | group ts _ => group ts q

def isEndOfLineAssertion : Term → Bool
  | characterSet s _ => s.characters.card == 1 && 0 ∈ s.characters
  | group _ _ => false

mutual

def matchesAtLeastOneCharacter : Term → Bool
  | characterSet s q =>
    q != .zeroOrOne && q != .zeroOrMore && !(characterSet s q).isEndOfLineAssertion
  | group ts q => q != .zeroOrOne && q != .zeroOrMore && anyMatchesAtLeastOneCharacter ts

def anyMatchesAtLeastOneCharacter : List Term → Bool
  | [] => false
  | t :: ts => t.matchesAtLeastOneCharacter || anyMatchesAtLeastOneCharacter ts

end

/-- The quantifiers do not matter. -/
def isUniversalTransition : Term → Bool
  | characterSet s _ =>
    (s.inverted && s.characters.card == 0) ||
      (!s.inverted && s.characters.card == 127 && 0 ∉ s.characters)
  | group [t] _ => t.isUniversalTransition
  | group _ _ => false

def isKnownToMatchAnyString : Term → Bool
  | characterSet s q => (characterSet s q).isUniversalTransition && q == .zeroOrMore
  | group [t] q => t.isKnownToMatchAnyString || t.isUniversalTransition &&
      (q == .zeroOrMore || (q == .zeroOrOne && t.quantifier == .oneOrMore) ||
        (q == .oneOrMore && t.quantifier == .zeroOrOne))
  | group _ _ => false

end Term

/-! ### The parser -/

inductive ParseStatus where
  | ok
  | matchesEverything
  | nonASCII
  | unsupportedCharacterClass
  | backReference
  | misplacedStartOfLine
  | wordBoundary
  | atomCharacter
  | group
  | disjunction
  | misplacedEndOfLine
  | invalidQuantifier
deriving DecidableEq, Repr

/-- A term for the null character could not be told from `$`. The same is true of the character
class `[\0]`, which is read as `$`. -/
abbrev PatternCharacter := { c : ℕ // c ≠ 0 }

inductive FilterCallback where
  | atomPatternCharacter (character : PatternCharacter)
  | atomBuiltInCharacterClass (isNewlineClass inverted : Bool)
  | quantifyAtom (minimum : ℕ) (maximum : Option ℕ)
  | atomBackReference
  | assertionBOL
  | assertionEOL
  | assertionWordBoundary
  | atomCharacterClassBegin (inverted : Bool)
  | atomCharacterClassAtom (character : ℕ)
  | atomCharacterClassRange (a b : ℕ)
  | atomCharacterClassBuiltIn
  | atomParenthesesSubpatternBegin
  | atomParentheticalAssertionBegin
  | atomParenthesesEnd
  | disjunction

structure PatternParser where
  patternIsCaseSensitive : Bool
  /-- The innermost group comes first. -/
  openGroups : List (List Term) := []
  sunkTerms : List Term := []
  floatingTerm : Option Term := none
  hasBeginningOfLineAssertion : Bool := false
  hasProcessedEndOfLineAssertion : Bool := false
  parseStatus : ParseStatus := .ok

namespace PatternParser

def fail (p : PatternParser) (reason : ParseStatus) : PatternParser :=
  if p.parseStatus = .ok then { p with parseStatus := reason } else p

def sinkFloatingTermIfNecessary (p : PatternParser) : PatternParser :=
  match p.floatingTerm with
  | none => p
  | some term =>
    if p.hasProcessedEndOfLineAssertion then
      { p.fail .misplacedEndOfLine with floatingTerm := none }
    else
      let p := { p with
        floatingTerm := none
        hasProcessedEndOfLineAssertion := term.isEndOfLineAssertion }
      match p.openGroups with
      | terms :: groups => { p with openGroups := (terms ++ [term]) :: groups }
      | [] => { p with sunkTerms := p.sunkTerms ++ [term] }

/-- A new floating term. -/
def float (p : PatternParser) (term : Term) : PatternParser :=
  { p.sinkFloatingTermIfNecessary with floatingTerm := some term }

/-- The characters from `a` on. The release assertion of `CharacterSet` fails for those that are not
ASCII. -/
def addCharacters (p : PatternParser) (a count : ℕ) : Option PatternParser :=
  match p.floatingTerm with
  | some (.characterSet s q) =>
    if a + count ≤ 128 then
      let set := (List.range' a count).foldl
        (fun s c => s.addCharacter p.patternIsCaseSensitive (Fin.ofNat 128 c)) s
      some { p with floatingTerm := some (.characterSet set q) }
    else none
  | _ => none

def atomQuantifier : ℕ → Option ℕ → Option AtomQuantifier
  | 0, some 1 => some .zeroOrOne
  | 0, none => some .zeroOrMore
  | 1, none => some .oneOrMore
  | _, _ => none

/-- `none` where an assertion fails. Yarr's parser rules that out, but not in a character class with
a character that is not ASCII, such as `[\u00ff]`. -/
def step (p : PatternParser) (callback : FilterCallback) : Option PatternParser :=
  if p.parseStatus ≠ .ok then some p
  else
    match callback with
    | .atomPatternCharacter c =>
      some <| if c.1 < 128 then
        p.float (.characterSet
          (({} : CharacterSet).addCharacter p.patternIsCaseSensitive (Fin.ofNat 128 c)) .one)
      else p.fail .nonASCII
    | .atomBuiltInCharacterClass isNewlineClass inverted =>
      some <| if isNewlineClass && inverted then p.float (.universalTransition .one)
        else p.sinkFloatingTermIfNecessary.fail .unsupportedCharacterClass
    | .quantifyAtom minimum maximum =>
      p.floatingTerm.bind fun term =>
        match atomQuantifier minimum maximum with
        | some q =>
          if term.quantifier = .one then some { p with floatingTerm := some (term.quantify q) }
          else none
        | none => some (p.fail .invalidQuantifier)
    | .atomBackReference => some (p.fail .backReference)
    | .assertionBOL =>
      some <| if p.floatingTerm.isSome || !p.sunkTerms.isEmpty || !p.openGroups.isEmpty then
        p.fail .misplacedStartOfLine
      else { p with hasBeginningOfLineAssertion := true }
    | .assertionEOL => some (p.float .endOfLineAssertion)
    | .assertionWordBoundary => some (p.fail .wordBoundary)
    | .atomCharacterClassBegin inverted => some (p.float (.characterSet { inverted } .one))
    | .atomCharacterClassAtom c => p.addCharacters c 1
    | .atomCharacterClassRange a b => p.addCharacters a (b + 1 - a)
    | .atomCharacterClassBuiltIn => some (p.fail .atomCharacter)
    | .atomParenthesesSubpatternBegin =>
      let p := p.sinkFloatingTermIfNecessary
      some { p with openGroups := [] :: p.openGroups }
    | .atomParentheticalAssertionBegin => some (p.fail .group)
    | .atomParenthesesEnd =>
      let p := p.sinkFloatingTermIfNecessary
      match p.openGroups with
      | [] => none
      | terms :: groups =>
        some { p with openGroups := groups, floatingTerm := some (.group terms .one) }
    | .disjunction => some (p.fail .disjunction)

/-- Replaces the terms like `.*`, and removes those behind another one. -/
def replaceDotStars : Bool → List Term → List Term
  | _, [] => []
  | isAfterDotStar, t :: ts =>
    if t.isKnownToMatchAnyString then
      if isAfterDotStar then replaceDotStars true ts
      else .canonicalDotStar :: replaceDotStars true ts
    else t :: replaceDotStars false ts

/-- Removes a trailing `.*$`, but not from `.*$` itself. -/
def removeTrailingDotStar (ts : List Term) : List Term :=
  match ts.reverse with
  | last :: secondToLast :: t :: rest =>
    if last.isEndOfLineAssertion && secondToLast.isKnownToMatchAnyString then (t :: rest).reverse
    else ts
  | _ => ts

def removeIrrelevantTerms (ts : List Term) : List Term :=
  if ts.getLast?.any (·.isEndOfLineAssertion) then ts
  else ts.rdropWhile fun t => !t.matchesAtLeastOneCharacter

def simplifySunkTerms (hasBeginningOfLineAssertion : Bool) (ts : List Term) : List Term :=
  let ts := replaceDotStars false ts
  let ts :=
    if !hasBeginningOfLineAssertion && !ts.head?.all (·.isKnownToMatchAnyString) then
      .canonicalDotStar :: ts
    else ts
  removeIrrelevantTerms (removeTrailingDotStar ts)

end PatternParser

/-! ### What a pattern matches -/

/-- The positions between which a quantified atom matches, if `m` are those for the atom. -/
def AtomQuantifier.Quantified (m : ℕ → ℕ → Prop) : AtomQuantifier → ℕ → ℕ → Prop
  | one => m
  | zeroOrOne => fun i j => i = j ∨ m i j
  | zeroOrMore => ReflTransGen m
  | oneOrMore => TransGen m

def CharacterSet.Contains (s : CharacterSet) (c : Fin 128) : Prop :=
  (s.inverted = true ↔ c ∉ s.characters)

mutual

/-- One round of the term. -/
def Term.MatchesOnce (url : List (Fin 128)) : Term → ℕ → ℕ → Prop
  | .characterSet s q => fun i j =>
    if (Term.characterSet s q).isEndOfLineAssertion then i = url.length ∧ j = url.length
    else j = i + 1 ∧ ∃ c, url[i]? = some c ∧ s.Contains c
  | .group ts _ => TermsMatch url ts

def TermsMatch (url : List (Fin 128)) : List Term → ℕ → ℕ → Prop
  | [] => fun i j => i = j
  | t :: ts => fun i j =>
    ∃ k, t.quantifier.Quantified (t.MatchesOnce url) i k ∧ TermsMatch url ts k j

end

def Term.Matches (url : List (Fin 128)) (t : Term) : ℕ → ℕ → Prop :=
  t.quantifier.Quantified (t.MatchesOnce url)

/-- The terms match somewhere in the URL, or at its beginning if there is a `^`. -/
def PatternParser.Matches (p : PatternParser) (url : List (Fin 128)) : Prop :=
  ∃ i j, i ≤ url.length ∧ (p.hasBeginningOfLineAssertion = true → i = 0) ∧
    TermsMatch url p.sunkTerms i j

section

variable {url : List (Fin 128)} {t : Term} {ts ts' : List Term} {i j k : ℕ}

lemma AtomQuantifier.Quantified.single {m : ℕ → ℕ → Prop} (q : AtomQuantifier) (h : m i j) :
    q.Quantified m i j := by
  cases q with
  | one => exact h
  | zeroOrOne => exact .inr h
  | zeroOrMore => exact ReflTransGen.single h
  | oneOrMore => exact TransGen.single h

lemma TermsMatch.append (h : TermsMatch url ts i j) (h' : TermsMatch url ts' j k) :
    TermsMatch url (ts ++ ts') i k := by
  induction ts generalizing i with
  | nil => exact (show i = j from h) ▸ h'
  | cons t ts ih =>
    obtain ⟨l, ht, h⟩ := h
    exact ⟨l, ht, ih h⟩

lemma termsMatch_singleton (h : t.Matches url i j) : TermsMatch url [t] i j := ⟨j, h, rfl⟩

mutual

/-- There is no `$` in the term. -/
def Term.EndFree : Term → Prop
  | .characterSet s q => (Term.characterSet s q).isEndOfLineAssertion = false
  | .group ts _ => TermsEndFree ts

def TermsEndFree : List Term → Prop
  | [] => True
  | t :: ts => t.EndFree ∧ TermsEndFree ts

end

lemma termsEndFree_iff : TermsEndFree ts ↔ ∀ t ∈ ts, t.EndFree := by
  induction ts with
  | nil => simp [TermsEndFree]
  | cons t ts ih => simp [TermsEndFree, ih]

variable {m : ℕ → ℕ → Prop}

lemma AtomQuantifier.Quantified.refl {q : AtomQuantifier}
    (h : (q != .zeroOrOne && q != .zeroOrMore) = true → m i i) : q.Quantified m i i := by
  cases q with
  | one => exact h rfl
  | zeroOrOne => exact .inl rfl
  | zeroOrMore => exact ReflTransGen.refl
  | oneOrMore => exact TransGen.single (h rfl)

mutual

/-- A term that need not consume a character matches the empty string at the end of the URL, and
everywhere if there is no `$`. -/
lemma Term.matches_self (t : Term) (ht : t.matchesAtLeastOneCharacter = false)
    (hi : i = url.length ∨ t.EndFree) : t.Matches url i i := by
  refine AtomQuantifier.Quantified.refl fun hq => ?_
  match t with
  | .characterSet s q =>
    rw [Term.quantifier] at hq
    have hend : (Term.characterSet s q).isEndOfLineAssertion = true := by
      rw [Term.matchesAtLeastOneCharacter, hq] at ht
      simpa using ht
    rcases hi with rfl | hi
    · simp [Term.MatchesOnce, hend]
    · simp [Term.EndFree, hend] at hi
  | .group ts q =>
    rw [Term.quantifier] at hq
    rw [Term.matchesAtLeastOneCharacter, hq] at ht
    exact termsMatch_self ts ht hi

lemma termsMatch_self (ts : List Term) (hts : Term.anyMatchesAtLeastOneCharacter ts = false)
    (hi : i = url.length ∨ TermsEndFree ts) : TermsMatch url ts i i := by
  match ts with
  | [] => rfl
  | t :: ts =>
    simp only [Term.anyMatchesAtLeastOneCharacter, or_eq_false_iff] at hts
    exact ⟨i, t.matches_self hts.1 (hi.imp_right And.left),
      termsMatch_self ts hts.2 (hi.imp_right And.right)⟩

end

/-- A universal transition matches any character that is not the null character. -/
lemma Term.matchesOnce_of_isUniversal (hurl : 0 ∉ url) (hi : i < url.length) (t : Term)
    (ht : t.isUniversalTransition = true) : t.MatchesOnce url i (i + 1) := by
  match t with
  | .characterSet s q =>
    have hnot : (Term.characterSet s q).isEndOfLineAssertion = false := by
      simp only [isUniversalTransition, isEndOfLineAssertion] at ht ⊢
      grind
    simp only [MatchesOnce, hnot]
    refine ⟨trivial, url[i], getElem?_eq_getElem hi, ?_⟩
    have hc : url[i] ≠ 0 := fun h => hurl (h ▸ getElem_mem hi)
    simp only [isUniversalTransition, or_eq_true, and_eq_true, not_eq_true',
      beq_iff_eq, decide_eq_true_eq, Finset.card_eq_zero] at ht
    rcases ht with ⟨hinv, hemp⟩ | ⟨⟨hinv, hcard⟩, hzero⟩
    · simp [CharacterSet.Contains, hinv, hemp]
    · -- all characters but the null character are in the set
      have hall : s.characters = Finset.univ.erase 0 := by
        refine Finset.eq_of_subset_of_card_le (fun c hc => ?_) ?_
        · exact Finset.mem_erase.2 ⟨fun h => hzero (h ▸ hc), Finset.mem_univ c⟩
        · rw [hcard]
          rfl
      simp [CharacterSet.Contains, hinv, hall, hc]
  | .group [t] q =>
    exact termsMatch_singleton (.single _ (matchesOnce_of_isUniversal hurl hi t ht))

lemma reflTransGen_of_succ (h : ∀ k, k < j → m k (k + 1)) (hle : i ≤ j) : ReflTransGen m i j := by
  induction j, hle using Nat.le_induction with
  | base => exact .refl
  | succ j hle ih => exact (ih fun k hk => h k (by omega)).tail (h j (by omega))

lemma transGen_of_succ (h : ∀ k, k < j → m k (k + 1)) (hlt : i < j) : TransGen m i j :=
  .head' (h i hlt) (reflTransGen_of_succ h hlt)

lemma Term.matches_of_isKnown (hurl : 0 ∉ url) (hi : i ≤ j) (hj : j ≤ url.length)
    (t : Term) (ht : t.isKnownToMatchAnyString = true) : t.Matches url i j := by
  match t with
  | .characterSet s q =>
    simp only [isKnownToMatchAnyString, and_eq_true, beq_iff_eq] at ht
    obtain ⟨huniv, rfl⟩ := ht
    exact reflTransGen_of_succ
      (fun k hk => matchesOnce_of_isUniversal hurl (hk.trans_le hj) _ huniv) hi
  | .group [t] q =>
    simp only [isKnownToMatchAnyString, or_eq_true, and_eq_true, beq_iff_eq] at ht
    rcases ht with ht | ⟨huniv, ht⟩
    · exact .single _ (termsMatch_singleton (matches_of_isKnown hurl hi hj t ht))
    have hone : ∀ k, k < j → t.MatchesOnce url k (k + 1) := fun k hk =>
      matchesOnce_of_isUniversal hurl (hk.trans_le hj) t huniv
    have hstep : ∀ k, k < j → TermsMatch url [t] k (k + 1) := fun k hk =>
      termsMatch_singleton (.single _ (hone k hk))
    rcases ht with (rfl | ⟨rfl, hq⟩) | ⟨rfl, hq⟩
    · exact reflTransGen_of_succ hstep hi
    · rcases hi.eq_or_lt with rfl | hlt
      · exact .inl rfl
      · refine .inr (termsMatch_singleton ?_)
        rw [Matches, hq]
        exact transGen_of_succ hone hlt
    · rcases hi.eq_or_lt with rfl | hlt
      · refine TransGen.single (termsMatch_singleton ?_)
        rw [Matches, hq]
        exact .inl rfl
      · exact transGen_of_succ hstep hlt

end

/-! ### The verdict -/

namespace PatternParser

variable {ts : List Term} {p p' : PatternParser}

/-- The terms that are complete. -/
def terms (p : PatternParser) : List Term := p.sunkTerms ++ p.openGroups.flatten

/-- A `$` is the last term, and nothing is read behind it without an error. -/
structure Inv (p : PatternParser) : Prop where
  parseStatus_ne : p.parseStatus ≠ .matchesEverything
  endFree : p.hasProcessedEndOfLineAssertion = false → ∀ t ∈ p.terms, t.EndFree
  floating : p.hasProcessedEndOfLineAssertion = false → ∀ t ∈ p.floatingTerm,
    t.EndFree ∨ t.isEndOfLineAssertion = true
  dropLast : ∀ t ∈ p.sunkTerms.dropLast, t.EndFree

lemma Inv.fail (h : p.Inv) {reason : ParseStatus} (hreason : reason ≠ .matchesEverything) :
    (p.fail reason).Inv := by
  unfold PatternParser.fail
  split_ifs
  · exact ⟨hreason, h.endFree, h.floating, h.dropLast⟩
  · exact h

lemma Inv.sink (h : p.Inv) : p.sinkFloatingTermIfNecessary.Inv := by
  unfold sinkFloatingTermIfNecessary
  split
  · exact h
  rename_i term hterm
  split_ifs with hproc
  · have hfail : (p.fail .misplacedEndOfLine).Inv := h.fail (by decide)
    obtain ⟨hstat, hend, -, hdrop⟩ := hfail
    exact ⟨hstat, hend, by simp, hdrop⟩
  · have hproc : p.hasProcessedEndOfLineAssertion = false := by simpa using hproc
    have hend := h.endFree hproc
    have hnew : term.isEndOfLineAssertion = false → term.EndFree := fun hnot =>
      (h.floating hproc term hterm).resolve_right (by simp [hnot])
    cases hgrp : p.openGroups with
    | nil =>
      refine ⟨h.parseStatus_ne, fun hnot t ht => ?_, by simp, fun t ht => ?_⟩
      · have ht : t ∈ p.sunkTerms ∨ t = term := by simpa [terms] using ht
        rcases ht with ht | rfl
        · exact hend t (by simp [terms, ht])
        · exact hnew hnot
      · exact hend t (by simpa [terms, hgrp] using ht)
    | cons ts groups =>
      refine ⟨h.parseStatus_ne, fun hnot t ht => ?_, by simp, h.dropLast⟩
      have ht : t ∈ p.terms ∨ t = term := by
        simp only [terms, hgrp] at ht ⊢
        simp only [flatten_cons, mem_append, mem_singleton] at ht ⊢
        tauto
      rcases ht with ht | rfl
      · exact hend t ht
      · exact hnew hnot

lemma Inv.withFloating (h : p.Inv) {t : Term} (ht : p.hasProcessedEndOfLineAssertion = false →
    t.EndFree ∨ t.isEndOfLineAssertion = true) : { p with floatingTerm := some t }.Inv :=
  ⟨h.parseStatus_ne, h.endFree, fun hnot _ ht' => some.inj ht' ▸ ht hnot, h.dropLast⟩

/-- A set of characters is `$` or is not. -/
lemma endFree_or_isEnd (s : CharacterSet) (q : AtomQuantifier) :
    (Term.characterSet s q).EndFree ∨ (Term.characterSet s q).isEndOfLineAssertion = true :=
  (eq_false_or_eq_true _).symm

lemma Inv.float (h : p.Inv) (s : CharacterSet) (q : AtomQuantifier) :
    (p.float (.characterSet s q)).Inv :=
  h.sink.withFloating fun _ => endFree_or_isEnd s q

lemma Inv.addCharacters (h : p.Inv) {a count : ℕ} (hp : p.addCharacters a count = some p') :
    p'.Inv := by
  unfold PatternParser.addCharacters at hp
  split at hp
  · split_ifs at hp
    exact some.inj hp ▸ h.withFloating fun _ => endFree_or_isEnd _ _
  · cases hp

lemma Inv.step (h : p.Inv) {callback : FilterCallback} (hp : p.step callback = some p') :
    p'.Inv := by
  unfold PatternParser.step at hp
  by_cases hstat : p.parseStatus ≠ .ok
  · rw [if_pos hstat] at hp
    exact some.inj hp ▸ h
  rw [if_neg hstat] at hp
  cases callback with
  | atomPatternCharacter c =>
    obtain rfl := some.inj hp
    split_ifs
    · exact h.float _ _
    · exact h.fail (by decide)
  | atomBuiltInCharacterClass isNewlineClass inverted =>
    obtain rfl := some.inj hp
    split_ifs
    · exact h.float _ _
    · exact h.sink.fail (by decide)
  | quantifyAtom minimum maximum =>
    obtain ⟨t, ht, hp⟩ := bind_eq_some_iff.1 hp
    split at hp
    · split_ifs at hp
      refine some.inj hp ▸ h.withFloating fun hnot => ?_
      have := h.floating hnot t ht
      cases t <;> exact this
    · exact some.inj hp ▸ h.fail (by decide)
  | assertionBOL =>
    obtain rfl := some.inj hp
    split_ifs
    · exact h.fail (by decide)
    · exact ⟨h.parseStatus_ne, h.endFree, h.floating, h.dropLast⟩
  | assertionEOL | atomCharacterClassBegin inverted => exact some.inj hp ▸ h.float _ _
  | atomCharacterClassAtom c | atomCharacterClassRange a b => exact h.addCharacters hp
  | atomParenthesesSubpatternBegin =>
    obtain rfl := some.inj hp
    obtain ⟨hne, hend, hfloating, hdrop⟩ := h.sink
    exact ⟨hne, by simpa [terms] using hend, hfloating, hdrop⟩
  | atomParenthesesEnd =>
    have hsink := h.sink
    simp only at hp
    split at hp
    · cases hp
    · rename_i ts groups hgrp
      obtain rfl := some.inj hp
      refine ⟨hsink.parseStatus_ne, fun hnot t ht => hsink.endFree hnot t ?_, fun hnot t ht => ?_,
        hsink.dropLast⟩
      · simp only [terms, hgrp, flatten_cons, mem_append] at ht ⊢
        tauto
      · refine .inl (some.inj ht ▸ termsEndFree_iff.2 fun t' ht' => ?_)
        exact hsink.endFree hnot t' (by simp [terms, hgrp, ht'])
  | atomBackReference | assertionWordBoundary | atomCharacterClassBuiltIn
  | atomParentheticalAssertionBegin | disjunction => exact some.inj hp ▸ h.fail (by decide)

end PatternParser

end WebKit.ContentExtensions
