import WebKit.ContentExtensions.URLFilterParser

/-!
# The rewriting of URL filters

The engine runs the terms on the URL and the null character behind it, which is what `$` stands for.
The rewriting of the terms does not change which URLs are accepted.
-/

namespace WebKit.ContentExtensions

open Relation List Term

/-! ### The engine -/

local instance neZero : NeZero 128 := ⟨by decide⟩

/-- The characters with a transition. There is none for the null character in an inverted set. -/
def CharacterSet.HasTransition (s : CharacterSet) (c : Fin 128) : Prop :=
  if s.inverted then c ≠ 0 ∧ c ∉ s.characters else c ∈ s.characters

mutual

def Term.RunsOnce (input : List (Fin 128)) : Term → ℕ → ℕ → Prop
  | .characterSet s _ => fun i j => j = i + 1 ∧ ∃ c, input[i]? = some c ∧ s.HasTransition c
  | .group ts _ => TermsRun input ts

def TermsRun (input : List (Fin 128)) : List Term → ℕ → ℕ → Prop
  | [] => fun i j => i = j
  | t :: ts => fun i j =>
    ∃ k, t.quantifier.Quantified (t.RunsOnce input) i k ∧ TermsRun input ts k j

end

/-- The terms match some first part of the URL and the null character. -/
def TermsAccept (ts : List Term) (url : List (Fin 128)) : Prop :=
  ∃ j, TermsRun (url ++ [0]) ts 0 j

mutual

def Term.NullFree : Term → Prop
  | .characterSet s _ => 0 ∉ s.characters
  | .group ts _ => TermsNullFree ts

def TermsNullFree : List Term → Prop
  | [] => True
  | t :: ts => t.NullFree ∧ TermsNullFree ts

end

/-- What the parser sinks: terms without the null character, with `^` in front or `$` behind. -/
structure SunkPattern where
  hasBeginningOfLineAssertion : Bool
  body : List Term
  nullFree : TermsNullFree body
  hasEndOfLineAssertion : Bool

namespace SunkPattern

def ending (hasEndOfLineAssertion : Bool) : List Term :=
  if hasEndOfLineAssertion then [.endOfLineAssertion] else []

def sunkTerms (p : SunkPattern) : List Term := p.body ++ ending p.hasEndOfLineAssertion

/-- Without `^` there is an implicit `.*`. -/
def original (p : SunkPattern) : List Term :=
  if p.hasBeginningOfLineAssertion then p.sunkTerms else .canonicalDotStar :: p.sunkTerms

end SunkPattern

open SunkPattern

section

variable {url : List (Fin 128)} {t t' : Term} {ts ts' : List Term} {i j n : ℕ}

lemma termsNullFree_iff : TermsNullFree ts ↔ ∀ t ∈ ts, t.NullFree := by
  induction ts with
  | nil => simp [TermsNullFree]
  | cons t ts ih => simp [TermsNullFree, ih]

mutual

lemma Term.NullFree.endFree (t : Term) (ht : t.NullFree) : t.EndFree := by
  match t with
  | .characterSet s q =>
    have hs : 0 ∉ s.characters := ht
    simp [Term.EndFree, isEndOfLineAssertion, hs]
  | .group ts q => exact TermsNullFree.endFree ts ht

lemma TermsNullFree.endFree (ts : List Term) (hts : TermsNullFree ts) : TermsEndFree ts := by
  match ts with
  | [] => exact trivial
  | t :: ts => exact ⟨Term.NullFree.endFree t hts.1, TermsNullFree.endFree ts hts.2⟩

end

lemma Term.NullFree.isEnd (ht : t.NullFree) : t.isEndOfLineAssertion = false := by
  cases t with
  | characterSet s q => exact endFree _ ht
  | group ts q => rfl

mutual

/-- Terms without the null character do not see the one behind the URL. -/
lemma Term.NullFree.runsOnce_eq (hurl : 0 ∉ url) (t : Term) (ht : t.NullFree) :
    t.RunsOnce (url ++ [0]) = t.MatchesOnce url := by
  match t with
  | .characterSet s q =>
    funext i j
    simp only [Term.MatchesOnce, ht.isEnd]
    refine propext (and_congr_right fun _ => exists_congr fun c => ?_)
    have hs : 0 ∉ s.characters := ht
    rw [getElem?_append]
    split_ifs with hi
    · refine and_congr_right fun hc => ?_
      have hne : c ≠ 0 := fun h => hurl (h ▸ mem_of_getElem? hc)
      simp only [CharacterSet.HasTransition, CharacterSet.Contains]
      split_ifs with hinv <;> simp [hinv, hne]
    · rw [getElem?_eq_none (not_lt.1 hi)]
      refine iff_of_false ?_ (by simp)
      rintro ⟨hc, htr⟩
      obtain rfl : c = 0 := mem_singleton.1 (mem_of_getElem? hc)
      simp [CharacterSet.HasTransition, hs] at htr
  | .group ts q => exact TermsNullFree.termsRun_eq hurl ts ht

lemma TermsNullFree.termsRun_eq (hurl : 0 ∉ url) (ts : List Term) (hts : TermsNullFree ts) :
    TermsRun (url ++ [0]) ts = TermsMatch url ts := by
  match ts with
  | [] => rfl
  | t :: ts =>
    funext i j
    rw [TermsRun, TermsMatch, Term.NullFree.runsOnce_eq hurl t hts.1,
      TermsNullFree.termsRun_eq hurl ts hts.2]

end

lemma termsRun_append {input : List (Fin 128)} :
    TermsRun input (ts ++ ts') i j ↔ ∃ k, TermsRun input ts i k ∧ TermsRun input ts' k j := by
  induction ts generalizing i with
  | nil => simp [TermsRun]
  | cons t ts ih =>
    simp only [cons_append, TermsRun]
    grind

/-- The body is followed by nothing, or by the end of the URL. -/
lemma termsAccept_iff (hurl : 0 ∉ url) (hts : ∀ t ∈ ts, t.NullFree) (hasEnd : Bool) :
    TermsAccept (ts ++ ending hasEnd) url ↔
      ∃ k, TermsMatch url ts 0 k ∧ (hasEnd = true → k = url.length) := by
  have hending : ∀ k, (∃ j, TermsRun (url ++ [0]) (ending hasEnd) k j) ↔
      (hasEnd = true → k = url.length) := by
    intro k
    cases hasEnd with
    | false => simp [ending, TermsRun]
    | true =>
      simp only [forall_const]
      constructor
      · rintro ⟨_, _, ⟨-, c, hc, htr⟩, rfl⟩
        obtain rfl : c = 0 := by simpa [CharacterSet.HasTransition] using htr
        rw [List.getElem?_append] at hc
        split_ifs at hc with hk
        · exact absurd (List.mem_of_getElem? hc) hurl
        · have hlt := (List.getElem?_eq_some_iff.1 hc).1
          simp only [List.length_singleton] at hlt
          omega
      · rintro rfl
        exact ⟨_, _, ⟨rfl, 0, by simp, by simp [CharacterSet.HasTransition]⟩, rfl⟩
  simp only [TermsAccept, termsRun_append,
    TermsNullFree.termsRun_eq hurl ts (termsNullFree_iff.2 hts), ← hending]
  grind

end

/-! ### Terms like `.*` -/

section

variable {url : List (Fin 128)} {t t' : Term} {ts ts' : List Term} {i j n : ℕ}

lemma AtomQuantifier.Quantified.within {m : ℕ → ℕ → Prop} {q : AtomQuantifier}
    (hm : ∀ i j, m i j → i ≤ n → i ≤ j ∧ j ≤ n) (h : q.Quantified m i j) (hi : i ≤ n) :
    i ≤ j ∧ j ≤ n := by
  have hgen : ∀ k, ReflTransGen m i k → i ≤ k ∧ k ≤ n := by
    intro k hk
    induction hk with
    | refl => exact ⟨le_rfl, hi⟩
    | tail _ h ih => exact ⟨ih.1.trans (hm _ _ h ih.2).1, (hm _ _ h ih.2).2⟩
  cases q with
  | one => exact hm i j h hi
  | zeroOrOne => exact h.elim (fun heq => heq ▸ ⟨le_rfl, hi⟩) fun h => hm i j h hi
  | zeroOrMore => exact hgen j h
  | oneOrMore => exact hgen j (TransGen.to_reflTransGen h)

mutual

lemma Term.matchesOnce_within (t : Term) (i j : ℕ) (h : t.MatchesOnce url i j)
    (hi : i ≤ url.length) : i ≤ j ∧ j ≤ url.length := by
  match t with
  | .characterSet s q =>
    rw [Term.MatchesOnce] at h
    split_ifs at h
    · omega
    · obtain ⟨rfl, c, hc, -⟩ := h
      exact ⟨Nat.le_succ i, (List.getElem?_eq_some_iff.1 hc).1⟩
  | .group ts q => exact termsMatch_within ts h hi

lemma termsMatch_within (ts : List Term) {i j : ℕ} (h : TermsMatch url ts i j)
    (hi : i ≤ url.length) : i ≤ j ∧ j ≤ url.length := by
  match ts with
  | [] => exact (show i = j from h) ▸ ⟨le_rfl, hi⟩
  | t :: ts =>
    obtain ⟨k, ht, hts⟩ := h
    have hk := ht.within t.matchesOnce_within hi
    have hj := termsMatch_within ts hts hk.2
    exact ⟨hk.1.trans hj.1, hj.2⟩

end

lemma termsMatch_cons_iff (hurl : 0 ∉ url) (ht : t.isKnownToMatchAnyString = true)
    (hi : i ≤ url.length) :
    TermsMatch url (t :: ts) i j ↔ ∃ k, (i ≤ k ∧ k ≤ url.length) ∧ TermsMatch url ts k j :=
  exists_congr fun _ => and_congr_left fun _ =>
    ⟨fun h => h.within t.matchesOnce_within hi, fun h => t.matches_of_isKnown hurl h.1 h.2 ht⟩

/-- One of two terms like `.*` is enough. -/
lemma termsMatch_cons_cons_iff (hurl : 0 ∉ url) (ht : t.isKnownToMatchAnyString = true)
    (ht' : t'.isKnownToMatchAnyString = true) (hi : i ≤ url.length) :
    TermsMatch url (t :: t' :: ts) i j ↔ TermsMatch url (t :: ts) i j := by
  rw [termsMatch_cons_iff hurl ht hi, termsMatch_cons_iff hurl ht hi]
  constructor
  · rintro ⟨k, hk, h⟩
    obtain ⟨l, hl, h⟩ := (termsMatch_cons_iff hurl ht' hk.2).1 h
    exact ⟨l, ⟨hk.1.trans hl.1, hl.2⟩, h⟩
  · rintro ⟨k, hk, h⟩
    exact ⟨k, hk, (termsMatch_cons_iff hurl ht' hk.2).2 ⟨k, ⟨le_rfl, hk.2⟩, h⟩⟩

lemma isKnown_canonicalDotStar : Term.canonicalDotStar.isKnownToMatchAnyString = true := by
  simp [canonicalDotStar, universalTransition, isKnownToMatchAnyString, isUniversalTransition]

lemma nullFree_canonicalDotStar : Term.canonicalDotStar.NullFree := by
  simp [canonicalDotStar, universalTransition, Term.NullFree]

namespace PatternParser

lemma termsMatch_replaceDotStars (hurl : 0 ∉ url) (hi : i ≤ url.length) :
    (TermsMatch url (replaceDotStars false ts) i j ↔ TermsMatch url ts i j) ∧
      (TermsMatch url (.canonicalDotStar :: replaceDotStars true ts) i j ↔
        TermsMatch url (.canonicalDotStar :: ts) i j) := by
  have hdot := isKnown_canonicalDotStar
  induction ts generalizing i with
  | nil => exact ⟨Iff.rfl, Iff.rfl⟩
  | cons t ts ih =>
    by_cases ht : t.isKnownToMatchAnyString = true
    · simp only [replaceDotStars, ht, if_true, Bool.false_eq_true, if_false, (ih hi).2,
        termsMatch_cons_cons_iff hurl hdot ht hi, and_true]
      rw [termsMatch_cons_iff hurl hdot hi, termsMatch_cons_iff hurl ht hi]
    · have hcons : ∀ i, i ≤ url.length → (TermsMatch url (t :: replaceDotStars false ts) i j ↔
          TermsMatch url (t :: ts) i j) := fun i hi =>
        exists_congr fun _ => and_congr_right fun hk =>
          (ih (AtomQuantifier.Quantified.within t.matchesOnce_within hk hi).2).1
      simp only [replaceDotStars, ht, if_false, hcons i hi, true_and, Bool.false_eq_true]
      rw [termsMatch_cons_iff hurl hdot hi, termsMatch_cons_iff hurl hdot hi]
      exact exists_congr fun k => and_congr_right fun hk => hcons k hk.2

lemma nullFree_replaceDotStars (b : Bool) (h : ∀ t ∈ ts, t.NullFree) :
    ∀ t ∈ replaceDotStars b ts, t.NullFree := by
  induction ts generalizing b with
  | nil => exact h
  | cons t ts ih =>
    obtain ⟨ht, hts⟩ := forall_mem_cons.1 h
    unfold replaceDotStars
    split_ifs
    · exact ih true hts
    · exact forall_mem_cons.2 ⟨nullFree_canonicalDotStar, ih true hts⟩
    · exact forall_mem_cons.2 ⟨ht, ih false hts⟩

lemma replaceDotStars_append_ending (b hasEnd : Bool) :
    replaceDotStars b (ts ++ ending hasEnd) = replaceDotStars b ts ++ ending hasEnd := by
  induction ts generalizing b with
  | nil => cases hasEnd <;> rfl
  | cons t ts ih =>
    simp only [cons_append, replaceDotStars, ih]
    split_ifs <;> rfl

end PatternParser

end

/-! ### The rewriting -/

section

variable {url : List (Fin 128)} {ts ts' : List Term}

lemma termsAccept_of_append (h : TermsAccept (ts ++ ts') url) : TermsAccept ts url := by
  obtain ⟨j, h⟩ := h
  obtain ⟨k, hk, -⟩ := termsRun_append.1 h
  exact ⟨k, hk⟩

/-- Terms at the end that can match the empty string are irrelevant. -/
lemma termsAccept_append_iff (hurl : 0 ∉ url) (hts' : TermsNullFree ts')
    (hnull : Term.anyMatchesAtLeastOneCharacter ts' = false) :
    TermsAccept (ts ++ ts') url ↔ TermsAccept ts url := by
  refine ⟨termsAccept_of_append, fun ⟨k, hk⟩ => ⟨k, termsRun_append.2 ⟨k, hk, ?_⟩⟩⟩
  rw [TermsNullFree.termsRun_eq hurl ts' hts']
  exact termsMatch_self ts' hnull (.inr (TermsNullFree.endFree ts' hts'))

namespace PatternParser

lemma termsAccept_remove (hurl : 0 ∉ url) (hts : ∀ t ∈ ts, t.NullFree) :
    TermsAccept (removeIrrelevantTerms ts) url ↔ TermsAccept ts url := by
  have hlast : ¬ts.getLast?.any (·.isEndOfLineAssertion) = true := by
    simp only [Option.any_eq_true, not_exists, not_and]
    intro t ht
    simp [(hts t (mem_of_getLast? ht)).isEnd]
  rw [removeIrrelevantTerms, if_neg hlast]
  clear hlast
  induction ts using reverseRecOn with
  | nil => rfl
  | append_singleton ts t ih =>
    rw [rdropWhile_concat]
    split_ifs with ht
    · refine (ih fun t' ht' => hts t' (mem_append_left _ ht')).trans ?_
      refine (termsAccept_append_iff hurl (termsNullFree_iff.2 fun t' ht' => ?_) ?_).symm
      · exact hts t' (mem_append_right _ ht')
      · simpa [anyMatchesAtLeastOneCharacter] using ht
    · rfl

lemma removeTrailingDotStar_cases (hts : ∀ t ∈ ts, t.NullFree) (hasEnd : Bool) :
    removeTrailingDotStar (ts ++ ending hasEnd) = ts ++ ending hasEnd ∨
      hasEnd = true ∧ ∃ ts' t, ts = ts' ++ [t] ∧ t.isKnownToMatchAnyString = true ∧
        removeTrailingDotStar (ts ++ ending hasEnd) = ts' := by
  unfold removeTrailingDotStar
  split
  · rename_i last secondToLast t rest hreverse
    split_ifs with hdrop
    · simp only [Bool.and_eq_true] at hdrop
      cases hasEnd with
      | false =>
        have hlast : last ∈ ts.reverse := by simp_all [ending]
        simp [(hts last (mem_reverse.1 hlast)).isEnd] at hdrop
      | true =>
        refine Or.inr ⟨rfl, (t :: rest).reverse, secondToLast, ?_, hdrop.2, rfl⟩
        simp_all [ending]
    · exact Or.inl rfl
  · exact Or.inl rfl

lemma termsAccept_remove_iff (hurl : 0 ∉ url) (hts : ∀ t ∈ ts, t.NullFree) (hasEnd : Bool) :
    TermsAccept (removeIrrelevantTerms (removeTrailingDotStar (ts ++ ending hasEnd))) url ↔
      TermsAccept (ts ++ ending hasEnd) url := by
  rcases removeTrailingDotStar_cases hts hasEnd with heq | ⟨rfl, ts', t, rfl, ht, heq⟩
  · rw [heq]
    cases hasEnd with
    | false =>
      rw [ending, if_neg Bool.false_ne_true, append_nil]
      exact termsAccept_remove hurl hts
    | true =>
      rw [removeIrrelevantTerms]
      simp [ending, endOfLineAssertion, isEndOfLineAssertion]
  · have hts' : ∀ t ∈ ts', t.NullFree := fun t' ht' => hts t' (mem_append_left _ ht')
    rw [heq, termsAccept_remove hurl hts']
    constructor
    · intro h
      rw [← append_nil ts'] at h
      obtain ⟨k, hk, -⟩ := (termsAccept_iff hurl hts' false).1 h
      have hle := (termsMatch_within ts' hk (Nat.zero_le _)).2
      exact (termsAccept_iff hurl hts true).2 ⟨_, hk.append
        ⟨_, t.matches_of_isKnown hurl hle le_rfl ht, rfl⟩, fun _ => rfl⟩
    · intro h
      rw [append_assoc] at h
      exact termsAccept_of_append h

/-- A `.*` in front of another one, or of nothing, can be left out. -/
lemma termsAccept_cons_iff (hurl : 0 ∉ url) (hts : ∀ t ∈ ts, t.NullFree) {hasEnd : Bool}
    (hhead : (ts ++ ending hasEnd).head?.all (·.isKnownToMatchAnyString) = true) :
    TermsAccept (.canonicalDotStar :: ts ++ ending hasEnd) url ↔
      TermsAccept (ts ++ ending hasEnd) url := by
  have hdot := isKnown_canonicalDotStar
  cases ts with
  | nil =>
    cases hasEnd with
    | false => exact iff_of_true ⟨0, 0, ReflTransGen.refl, rfl⟩ ⟨0, rfl⟩
    | true => cases hhead
  | cons t ts =>
    rw [termsAccept_iff hurl (forall_mem_cons.2 ⟨nullFree_canonicalDotStar, hts⟩),
      termsAccept_iff hurl hts]
    simp only [termsMatch_cons_cons_iff hurl hdot hhead (Nat.zero_le _),
      termsMatch_cons_iff hurl hdot (Nat.zero_le _), termsMatch_cons_iff hurl hhead (Nat.zero_le _)]

end PatternParser

open PatternParser

/-- The rewritten terms accept just the URLs that the pattern accepts. -/
theorem termsAccept_simplifySunkTerms_iff (p : SunkPattern) {url : List (Fin 128)}
    (hurl : 0 ∉ url) :
    TermsAccept (simplifySunkTerms p.hasBeginningOfLineAssertion p.sunkTerms) url ↔
      TermsAccept p.original url := by
  obtain ⟨hasBeginning, body, hbody, hasEnd⟩ := p
  rw [termsNullFree_iff] at hbody
  have hnull := nullFree_replaceDotStars false hbody
  have hcons : ∀ ts, (∀ t ∈ ts, t.NullFree) → ∀ t ∈ canonicalDotStar :: ts, t.NullFree :=
    fun ts hts => forall_mem_cons.2 ⟨nullFree_canonicalDotStar, hts⟩
  have hreplace : ∀ i j, i ≤ url.length →
      (TermsMatch url (replaceDotStars false body) i j ↔ TermsMatch url body i j) :=
    fun i j hi => (termsMatch_replaceDotStars hurl hi).1
  simp only [simplifySunkTerms, SunkPattern.sunkTerms, SunkPattern.original,
    replaceDotStars_append_ending]
  cases hasBeginning with
  | true =>
    simp only [Bool.not_true, Bool.false_and, Bool.false_eq_true, if_false, if_true]
    rw [termsAccept_remove_iff hurl hnull, termsAccept_iff hurl hnull, termsAccept_iff hurl hbody]
    simp only [hreplace 0 _ (Nat.zero_le _)]
  | false =>
    have hfront : TermsAccept (.canonicalDotStar :: replaceDotStars false body ++ ending hasEnd)
        url ↔ TermsAccept (.canonicalDotStar :: body ++ ending hasEnd) url := by
      rw [termsAccept_iff hurl (hcons _ hnull), termsAccept_iff hurl (hcons _ hbody)]
      simp only [termsMatch_cons_iff hurl isKnown_canonicalDotStar (Nat.zero_le _)]
      exact exists_congr fun j => and_congr_left fun _ => exists_congr fun k =>
        and_congr_right fun hk => hreplace k j hk.2
    refine Iff.trans ?_ hfront
    split_ifs with hhead
    · exact termsAccept_remove_iff hurl (hcons _ hnull) hasEnd
    · rw [termsAccept_remove_iff hurl hnull]
      exact (termsAccept_cons_iff hurl hnull (by simpa using hhead)).symm

/-- The pattern `^a.*$` is rewritten to `^a`. -/
theorem termsAccept_simplifySunkTerms_anchored :
    simplifySunkTerms true [.characterSet ⟨{97}, false⟩ .one, .canonicalDotStar,
      .endOfLineAssertion] = [.characterSet ⟨{97}, false⟩ .one] ∧
    TermsAccept (simplifySunkTerms true [.characterSet ⟨{97}, false⟩ .one, .canonicalDotStar,
      .endOfLineAssertion]) [97] := by
  refine ⟨?_, ?_⟩
  · simp [simplifySunkTerms, replaceDotStars, removeTrailingDotStar, removeIrrelevantTerms,
      canonicalDotStar, universalTransition, isKnownToMatchAnyString, isUniversalTransition,
      endOfLineAssertion, isEndOfLineAssertion, matchesAtLeastOneCharacter]
  refine (termsAccept_simplifySunkTerms_iff ⟨true, [.characterSet ⟨{97}, false⟩ .one,
    .canonicalDotStar], ⟨by simp [Term.NullFree], nullFree_canonicalDotStar, trivial⟩, true⟩
    (by decide)).2 ?_
  exact ⟨2, 1, ⟨rfl, 97, rfl, by simp [CharacterSet.HasTransition]⟩,
    1, ReflTransGen.refl, 2, ⟨rfl, 0, rfl, by simp [CharacterSet.HasTransition]⟩, rfl⟩

end

end WebKit.ContentExtensions
