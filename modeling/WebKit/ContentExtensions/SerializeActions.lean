import WebKit.Core.Vec
import WebKit.WTF.HashMap
import WebKit.ContentExtensions.Actions

/-!
# `serializeActions` and `actionsForResourceLoad`

The compiler serializes the actions of the rules. Equal actions between two rules with
`ignore-previous-rules` share a location, and the selectors of rules with the same trigger are
joined before the next such rule. At a load, the locations of the rules that match are visited
from the last one down to the first action that ignores the previous rules.
-/

namespace WebKit.ContentExtensions

open WTF Records Option Function HashMap
open List hiding concat_append

/-- The kind of the conditions of a trigger. -/
inductive ConditionType where
  | none
  | ifDomain
  | unlessDomain
  | ifTopURL
  | unlessTopURL
  deriving DecidableEq

/-- The fields that `operator==` compares. -/
structure Trigger where
  urlFilter : List ℕ
  urlFilterIsCaseSensitive : Bool
  flags : ℕ
  conditions : List (List ℕ)
  conditionType : ConditionType
  deriving DecidableEq

structure ContentExtensionRule where
  trigger : Trigger
  actionType : ActionType
  stringArgument : WString

structure PendingDisplayNoneActions where
  selectors : List WString
  clientLocations : List ℕ

/-- The variables of `serializeActions`. Each type of action has a map from flags to locations,
except for the selectors, which have a map of their own. -/
structure SerializerState where
  actions : List ℕ
  actionLocations : Vec ℕ
  actionsMap : ActionType → HashMap ℕ ℕ
  cssDisplayNoneActionsMap : HashMap Trigger PendingDisplayNoneActions

namespace SerializerState

def initial : SerializerState := ⟨[], Vec.empty, fun _ => HashMap.empty, HashMap.empty⟩

/-- Serialize the selectors of one trigger. -/
def resolveSlot (st : SerializerState) (slot : Trigger × PendingDisplayNoneActions) :
    SerializerState :=
  let actionLocation := st.actions.length
  { st with
    actions := serializeSelector st.actions (WString.joinWithCommas slot.2.selectors)
    actionLocations := slot.2.clientLocations.foldl
      (fun locations clientLocation => locations.set clientLocation actionLocation)
      st.actionLocations }

def resolvePendingDisplayNoneActions (ord : IterationOrder (Trigger × PendingDisplayNoneActions))
    (st : SerializerState) : SerializerState :=
  { (st.cssDisplayNoneActionsMap.iterate ord).foldl resolveSlot st with
    cssDisplayNoneActionsMap := HashMap.empty }

/-- Clear the maps of the types with `p`. -/
def clearMaps (st : SerializerState) (p : ActionType → Bool) : SerializerState :=
  { st with actionsMap := fun type => if p type then HashMap.empty else st.actionsMap type }

/-- What happens to the maps before the action of a rule is serialized. -/
def prepare (ord : IterationOrder (Trigger × PendingDisplayNoneActions)) (st : SerializerState)
    (actionType : ActionType) : SerializerState :=
  if actionType = .ignorePreviousRules then
    (st.resolvePendingDisplayNoneActions ord).clearMaps (· != .ignorePreviousRules)
  else st.clearMaps (· == .ignorePreviousRules)

/-- Serialize the action at a location of its own. -/
def pushConditional (st : SerializerState) (rule : ContentExtensionRule) : SerializerState :=
  { st with
    actionLocations := st.actionLocations.push st.actions.length
    actions :=
      if rule.actionType = .cssDisplayNoneSelector then
        serializeSelector st.actions rule.stringArgument
      else st.actions ++ [rule.actionType.toByte] }

/-- Postpone a selector. Its location is not known yet. -/
def pushPending (st : SerializerState) (rule : ContentExtensionRule) : SerializerState :=
  { st with
    cssDisplayNoneActionsMap :=
      st.cssDisplayNoneActionsMap.modify rule.trigger ⟨[], []⟩ fun pending =>
        ⟨pending.selectors ++ [rule.stringArgument],
          pending.clientLocations ++ [st.actionLocations.size]⟩
    actionLocations := st.actionLocations.push (2 ^ 32 - 1) }

/-- Share the location of an action with the same type and flags, if there is one. -/
def findOrMakeActionLocation (st : SerializerState) (rule : ContentExtensionRule) :
    SerializerState :=
  match (st.actionsMap rule.actionType).get? rule.trigger.flags with
  | some location => { st with actionLocations := st.actionLocations.push location }
  | none =>
    { st with
      actions := st.actions ++ [rule.actionType.toByte]
      actionsMap := Function.update st.actionsMap rule.actionType <|
        (st.actionsMap rule.actionType).modify rule.trigger.flags st.actions.length
          fun _ => st.actions.length
      actionLocations := st.actionLocations.push st.actions.length }

/-- One iteration of the loop. `none` when an assertion fails. -/
def addRule (ord : IterationOrder (Trigger × PendingDisplayNoneActions)) (st : SerializerState)
    (rule : ContentExtensionRule) : Option SerializerState :=
  let st := st.prepare ord rule.actionType
  if rule.trigger.conditions ≠ [] then some (st.pushConditional rule)
  else
    match rule.actionType with
    | .cssDisplayNoneStyleSheet => none
    | .invalidAction => none
    | .cssDisplayNoneSelector => some (st.pushPending rule)
    | _ => some (st.findOrMakeActionLocation rule)

/-- The state after the first rules. -/
def loop (ord : IterationOrder (Trigger × PendingDisplayNoneActions))
    (ruleList : Vec ContentExtensionRule) : ℕ → Option SerializerState
  | 0 => some initial
  | n + 1 => (loop ord ruleList n).bind fun st => st.addRule ord (ruleList.get n)

end SerializerState

variable {type : ActionType} {i : ℕ}

namespace SerializerState

section

variable {ord : IterationOrder (Trigger × PendingDisplayNoneActions)}
  {rules : Vec ContentExtensionRule} {n : ℕ} {st st' : SerializerState} {es es' : List Entry}
  {index : ℕ → Option ℕ} {slots : List (Trigger × PendingDisplayNoneActions)}

/-- One of the types ignores the previous rules and the other one does not. -/
def Opposed (s t : ActionType) : Prop := s = .ignorePreviousRules ↔ t ≠ .ignorePreviousRules

lemma not_opposed_self (t : ActionType) : ¬Opposed t t := by
  by_cases h : t = .ignorePreviousRules <;> simp [Opposed]

/-- The rules whose selectors are joined. -/
def Together (r r' : ContentExtensionRule) : Prop :=
  r.trigger = r'.trigger ∧ r.trigger.conditions = [] ∧ r'.trigger.conditions = []

/-- The rules of the opposite kind have an entry before the entry `k`. -/
def Before (rules : Vec ContentExtensionRule) (n : ℕ) (index : ℕ → Option ℕ) (type : ActionType)
    (k : ℕ) : Prop :=
  ∀ j < n, Opposed (rules.get j).actionType type → ∃ b < k, index j = some b

/-- The bytes are those of `entries`, and the rule `i` has the entry `index i`, or it is postponed
in one of the `slots`. -/
structure Inv (rules : Vec ContentExtensionRule) (n : ℕ) (st : SerializerState)
    (entries : List Entry) (index : ℕ → Option ℕ)
    (slots : List (Trigger × PendingDisplayNoneActions)) : Prop where
  actions_eq : st.actions = concat Entry.bytes entries
  size_eq : st.actionLocations.size = n
  readable : ∀ e ∈ entries, e.Readable
  located : ∀ i < n, ∀ k, index i = some k → ∃ e, entries[k]? = some e ∧
    e.type = (rules.get i).actionType ∧
    st.actionLocations.get i = offset Entry.bytes entries k
  parts_iff : ∀ k s, entries[k]? = some (.selector s) → ∀ p, p ∈ WString.commaParts s.characters ↔
    ∃ i < n, index i = some k ∧ p ∈ WString.commaParts (rules.get i).stringArgument.characters
  shared : ∀ i < n, ∀ j < n, ∀ k s, index i = some k → index j = some k →
    entries[k]? = some (.selector s) → i = j ∨ Together (rules.get i) (rules.get j)
  order : ∀ i j a b, i < j → j < n → index i = some a → index j = some b →
    Opposed (rules.get i).actionType (rules.get j).actionType → a < b
  pending : ∀ i < n, index i = none → (rules.get i).actionType = .cssDisplayNoneSelector ∧
    (rules.get i).trigger.conditions = [] ∧
    ∀ j < n, (rules.get j).actionType = .ignorePreviousRules → j < i
  exists_slot : ∀ i < n, index i = none → ∃ slot ∈ slots, i ∈ slot.2.clientLocations
  slot_spec : ∀ slot ∈ slots, slot.2.clientLocations ≠ [] ∧
    slot.2.selectors = slot.2.clientLocations.map (fun i => (rules.get i).stringArgument) ∧
    ∀ i ∈ slot.2.clientLocations, i < n ∧ index i = none ∧ (rules.get i).trigger = slot.1
  slots_nodup : (slots.map Prod.fst).Nodup

lemma inv_initial (index : ℕ → Option ℕ) : Inv rules 0 initial [] index [] := by
  refine ⟨rfl, rfl, ?_, ?_, ?_, ?_, ?_, ?_, ?_, ?_, ?_⟩ <;> simp

lemma Inv.index_lt (h : Inv rules n st es index slots) {k : ℕ} (hi : i < n)
    (hk : index i = some k) : k < es.length := by
  obtain ⟨e, he, -⟩ := h.located i hi k hk
  exact (List.getElem?_eq_some_iff.mp he).1

lemma size_foldl_set (is : List ℕ) (v : Vec ℕ) (a : ℕ) :
    (is.foldl (fun v i => v.set i a) v).size = v.size := by
  induction is generalizing v with
  | nil => rfl
  | cons i is ih => simp [ih]

variable {k : ℕ} {e : Entry}

lemma getElem?_of_prefix (h : es <+: es') (hk : es[k]? = some e) : es'[k]? = some e := by
  obtain ⟨rest, rfl⟩ := h
  rw [List.getElem?_append_left (List.getElem?_eq_some_iff.mp hk).1, hk]

/-- An entry of the extended list is the new one or an earlier one. -/
lemma getElem?_append_cases {e' : Entry} (h : (es ++ [e'])[k]? = some e) :
    k < es.length ∧ es[k]? = some e ∨ k = es.length ∧ e' = e := by
  rcases lt_or_ge k es.length with hlt | hge
  · exact .inl ⟨hlt, by rwa [List.getElem?_append_left hlt] at h⟩
  · rw [getElem?_append_right hge] at h
    obtain ⟨hk, hget⟩ := List.getElem?_eq_some_iff.mp h
    rw [length_singleton] at hk
    exact .inr ⟨by omega, by simpa using hget⟩

/-- The slot of the head is not one of the others. -/
lemma Inv.notMem_of_mem {slot slot' : Trigger × PendingDisplayNoneActions}
    (h : Inv rules n st es index (slot :: slots)) (hslot : slot' ∈ slots)
    (hi : i ∈ slot'.2.clientLocations) : i ∉ slot.2.clientLocations := by
  intro hi'
  have h₁ := ((h.slot_spec slot mem_cons_self).2.2 i hi').2.2
  have h₂ := ((h.slot_spec slot' (mem_cons_of_mem _ hslot)).2.2 i hi).2.2
  have hnd := h.slots_nodup
  rw [map_cons, nodup_cons, ← h₁, h₂] at hnd
  exact hnd.1 (mem_map_of_mem hslot)

variable {slot : Trigger × PendingDisplayNoneActions}

/-- Resolving a slot gives its rules a new entry, the last one. -/
lemma Inv.resolveSlot (h : Inv rules n st es index (slot :: slots)) :
    Inv rules n (st.resolveSlot slot)
      (es ++ [.selector (WString.joinWithCommas slot.2.selectors)])
      (fun i => if i ∈ slot.2.clientLocations then some es.length else index i) slots := by
  obtain ⟨hne, hsels, hcl⟩ := h.slot_spec slot mem_cons_self
  have hidx : ∀ i k, (if i ∈ slot.2.clientLocations then some es.length else index i) =
      some k → i ∈ slot.2.clientLocations ∧ k = es.length ∨
        i ∉ slot.2.clientLocations ∧ index i = some k := by
    intro i k hk
    split_ifs at hk with hi
    · exact .inl ⟨hi, (some.inj hk).symm⟩
    · exact .inr ⟨hi, hk⟩
  have hnone : ∀ i, (if i ∈ slot.2.clientLocations then some es.length else index i) = none →
      i ∉ slot.2.clientLocations ∧ index i = none := by
    intro i hi
    split_ifs at hi with hmem
    exact ⟨hmem, hi⟩
  refine ⟨?_, ?_, ?_, ?_, ?_, ?_, ?_, ?_, ?_, ?_, ?_⟩
  · rw [concat_append, concat_singleton, ← h.actions_eq]
    rfl
  · exact (size_foldl_set _ _ _).trans h.size_eq
  · intro e he
    rcases mem_append.mp he with he | he
    · exact h.readable e he
    · rw [mem_singleton.mp he]
      trivial
  · intro i hi k hk
    have hget : (st.resolveSlot slot).actionLocations.get i =
        if i ∈ slot.2.clientLocations then st.actions.length else st.actionLocations.get i :=
      (Vec.get_foldl_set id ..).trans (if_congr (by simp) rfl rfl)
    rcases hidx i k hk with ⟨hmem, rfl⟩ | ⟨hmem, hk⟩
    · refine ⟨_, getElem?_concat_length, ?_, ?_⟩
      · exact (h.pending i hi (hcl i hmem).2.1).1.symm
      · rw [hget, if_pos hmem, offset_append _ le_rfl, offset_length, h.actions_eq]
    · obtain ⟨e, he, htype, hloc⟩ := h.located i hi k hk
      refine ⟨e, getElem?_of_prefix (prefix_append _ _) he, htype, ?_⟩
      rw [hget, if_neg hmem, hloc, offset_append _ (h.index_lt hi hk).le]
  · intro k s hs p
    rcases getElem?_append_cases hs with ⟨hlt, hs'⟩ | ⟨rfl, hs'⟩
    · rw [h.parts_iff k s hs']
      refine exists_congr fun i => and_congr_right fun hi => and_congr_left fun _ => ?_
      constructor
      · intro hk
        rw [if_neg fun hmem => ?_, hk]
        rw [(hcl i hmem).2.1] at hk
        exact absurd hk (by simp)
      · intro hk
        rcases hidx i k hk with ⟨-, rfl⟩ | ⟨-, hk⟩
        · exact absurd hlt (lt_irrefl _)
        · exact hk
    · obtain rfl := Entry.selector.inj hs'
      rw [WString.commaParts_joinWithCommas (by rw [hsels]; simpa using hne), hsels]
      simp only [List.mem_flatMap, List.mem_map, exists_exists_and_eq_and]
      constructor
      · rintro ⟨i, hi, hp⟩
        exact ⟨i, (hcl i hi).1, by rw [if_pos hi], hp⟩
      · rintro ⟨i, hi, hk, hp⟩
        rcases hidx i _ hk with ⟨hmem, -⟩ | ⟨-, hk⟩
        · exact ⟨i, hmem, hp⟩
        · exact absurd (h.index_lt hi hk) (lt_irrefl _)
  · intro i hi j hj k s hik hjk hs
    rcases hidx i k hik with ⟨hi', rfl⟩ | ⟨-, hik⟩
    · rcases hidx j _ hjk with ⟨hj', -⟩ | ⟨-, hjk⟩
      · refine .inr ⟨?_, (h.pending i hi (hcl i hi').2.1).2.1, (h.pending j hj (hcl j hj').2.1).2.1⟩
        rw [(hcl i hi').2.2, (hcl j hj').2.2]
      · exact absurd (h.index_lt hj hjk) (lt_irrefl _)
    · have hlt := h.index_lt hi hik
      rcases hidx j k hjk with ⟨-, rfl⟩ | ⟨-, hjk⟩
      · exact absurd hlt (lt_irrefl _)
      · rw [List.getElem?_append_left hlt] at hs
        exact h.shared i hi j hj k s hik hjk hs
  · intro i j a b hij hj hia hjb hopp
    have hi := hij.trans hj
    rcases hidx i a hia with ⟨hi', rfl⟩ | ⟨-, hia⟩
    · -- no rule after a postponed one ignores the previous rules
      obtain ⟨htype, -, hlast⟩ := h.pending i hi (hcl i hi').2.1
      by_cases hj' : (rules.get j).actionType = .ignorePreviousRules
      · exact absurd (hlast j hj hj') (lt_asymm hij)
      · rw [Opposed, htype] at hopp
        simp [hj'] at hopp
    · have hlt := h.index_lt hi hia
      rcases hidx j b hjb with ⟨-, rfl⟩ | ⟨-, hjb⟩
      · exact hlt
      · exact h.order i j a b hij hj hia hjb hopp
  · exact fun i hi hi' => h.pending i hi (hnone i hi').2
  · intro i hi hi'
    obtain ⟨hmem, hi'⟩ := hnone i hi'
    obtain ⟨slot', hslot', hmem'⟩ := h.exists_slot i hi hi'
    rcases mem_cons.mp hslot' with rfl | hslot'
    · exact absurd hmem' hmem
    · exact ⟨slot', hslot', hmem'⟩
  · intro slot' hslot'
    obtain ⟨hne', hsels', hcl'⟩ := h.slot_spec slot' (mem_cons_of_mem _ hslot')
    refine ⟨hne', hsels', fun i hi => ?_⟩
    obtain ⟨h₁, h₂, h₃⟩ := hcl' i hi
    exact ⟨h₁, by rw [if_neg (h.notMem_of_mem hslot' hi), h₂], h₃⟩
  · exact (nodup_cons.mp h.slots_nodup).2

variable (ord : IterationOrder (Trigger × PendingDisplayNoneActions))

lemma Inv.foldl_resolveSlot (h : Inv rules n st es index slots) :
    ∃ es' index', Inv rules n (slots.foldl SerializerState.resolveSlot st) (es ++ es')
        index' [] ∧ ∀ i < n, ∀ k, index i = some k → index' i = some k := by
  induction slots generalizing st es index with
  | nil => exact ⟨[], index, by simpa using h, fun _ _ _ hk => hk⟩
  | cons slot slots ih =>
    obtain ⟨es', index', hinv, hkeep⟩ := ih h.resolveSlot
    refine ⟨_, index', by simpa using hinv, fun i hi k hk => ?_⟩
    refine hkeep i hi k ?_
    rw [if_neg fun hmem => ?_, hk]
    rw [((h.slot_spec slot mem_cons_self).2.2 i hmem).2.1] at hk
    exact absurd hk (by simp)

/-- After all slots are resolved, every rule has an entry. The entries there were stay. -/
lemma Inv.resolve (h : Inv rules n st es index st.cssDisplayNoneActionsMap.entries) :
    ∃ es' index', Inv rules n (st.resolvePendingDisplayNoneActions ord) (es ++ es')
        index' [] ∧ ∀ i < n, ∀ k, index i = some k → index' i = some k := by
  have hperm : Inv rules n st es index (st.cssDisplayNoneActionsMap.iterate ord) := by
    refine { h with exists_slot := ?_, slot_spec := ?_, slots_nodup := ?_ }
    · intro i hi hnone
      obtain ⟨slot, hslot, hmem⟩ := h.exists_slot i hi hnone
      exact ⟨slot, mem_iterate.mpr hslot, hmem⟩
    · exact fun slot hslot => h.slot_spec slot (mem_iterate.mp hslot)
    · exact ((ord.perm _).map Prod.fst).nodup_iff.mpr h.slots_nodup
  obtain ⟨es', index', hinv, hkeep⟩ := hperm.foldl_resolveSlot
  exact ⟨es', index', { hinv with }, hkeep⟩

variable {o : Option ℕ}

lemma update_cases {o' : Option ℕ} (hi : i < n + 1)
    (ho : Function.update index n o i = o') : i = n ∧ o = o' ∨ i < n ∧ index i = o' := by
  rcases Nat.lt_succ_iff_lt_or_eq.mp hi with hlt | rfl
  · rw [update_of_ne hlt.ne] at ho
    exact .inr ⟨hlt, ho⟩
  · rw [update_self] at ho
    exact .inl ⟨rfl, ho⟩

lemma update_of_lt : ∀ i < n, ∀ k, index i = some k → Function.update index n o i = some k := by
  intro i hi k hk
  rwa [update_of_ne hi.ne]

/-- The rules that share an entry other than the one of the next rule. -/
lemma exists_index_update {P : ℕ → Prop} (ho : o ≠ some k) :
    (∃ i < n + 1, Function.update index n o i = some k ∧ P i) ↔
      ∃ i < n, index i = some k ∧ P i := by
  constructor
  · rintro ⟨i, hi, hk, hp⟩
    obtain ⟨hi, hk⟩ := (update_cases hi hk).resolve_left fun h => ho h.2
    exact ⟨i, hi, hk, hp⟩
  · rintro ⟨i, hi, hk, hp⟩
    exact ⟨i, hi.trans n.lt_succ_self, update_of_lt i hi k hk, hp⟩

/-- The slots are the same when a rule is added. -/
lemma Inv.slot_spec_update (h : Inv rules n st es index slots) (hslot : slot ∈ slots)
    (o : Option ℕ) : slot.2.clientLocations ≠ [] ∧
      slot.2.selectors = slot.2.clientLocations.map (fun i => (rules.get i).stringArgument) ∧
      ∀ i ∈ slot.2.clientLocations, i < n + 1 ∧ Function.update index n o i = none ∧
        (rules.get i).trigger = slot.1 := by
  obtain ⟨hne, hsels, hcl⟩ := h.slot_spec slot hslot
  refine ⟨hne, hsels, fun i hi => ?_⟩
  obtain ⟨h₁, h₂, h₃⟩ := hcl i hi
  exact ⟨h₁.trans (Nat.lt_succ_self n), by rw [update_of_ne h₁.ne, h₂], h₃⟩

/-- The next rule gets the entry `m`, which may be shared with other rules if it is not a
selector. -/
lemma Inv.assign {m : ℕ} (h : Inv rules n st es index slots) (hpre : es <+: es')
    (hents : ∀ k e', es'[k]? = some e' → k < es.length ∨ k = m) (hm : es'[m]? = some e)
    (hread : e.Readable) (htype : e.type = (rules.get n).actionType)
    (hselector : ∀ s, e = .selector s → m = es.length ∧ s = (rules.get n).stringArgument)
    (hbef : Before rules n index (rules.get n).actionType m)
    (hact : st'.actions = concat Entry.bytes es')
    (hlocs : st'.actionLocations = st.actionLocations.push (offset Entry.bytes es' m)) :
    Inv rules (n + 1) st' es' (Function.update index n (some m)) slots := by
  obtain ⟨rest, rfl⟩ := hpre
  have hold : ∀ {k : ℕ} {e' : Entry}, k < es.length →
      ((es ++ rest)[k]? = some e' ↔ es[k]? = some e') := by
    intro k e' hk
    rw [getElem?_append_left hk]
  have hget : ∀ i < n, st'.actionLocations.get i = st.actionLocations.get i := by
    intro i hi
    rw [hlocs, Vec.get_push_of_lt _ _ (by rw [h.size_eq]; exact hi)]
  -- a selector is the entry of this rule only
  have hfresh : ∀ i < n, ∀ s, e = .selector s → index i ≠ some m := by
    intro i hi s hs hk
    exact absurd (h.index_lt hi hk) (by rw [(hselector s hs).1]; exact lt_irrefl _)
  refine ⟨hact, ?_, ?_, ?_, ?_, ?_, ?_, ?_, ?_, ?_, h.slots_nodup⟩
  · simp [hlocs, h.size_eq]
  · intro e' he'
    obtain ⟨k, hk⟩ := mem_iff_getElem?.mp he'
    rcases hents k e' hk with hlt | rfl
    · exact h.readable e' (mem_iff_getElem?.mpr ⟨k, (hold hlt).mp hk⟩)
    · obtain rfl : e = e' := some.inj (hm.symm.trans hk)
      exact hread
  · intro i hi k hk
    rcases update_cases hi hk with ⟨rfl, ⟨⟩⟩ | ⟨hi, hk⟩
    · refine ⟨e, hm, htype, ?_⟩
      simp [hlocs, ← h.size_eq]
    · obtain ⟨e', he', htype', hloc⟩ := h.located i hi k hk
      have hlt := h.index_lt hi hk
      exact ⟨e', (hold hlt).mpr he', htype', by rw [hget i hi, hloc, offset_append _ hlt.le]⟩
  · intro k s hs p
    by_cases hkm : k = m
    · subst hkm
      obtain rfl : e = .selector s := some.inj (hm.symm.trans hs)
      obtain ⟨-, rfl⟩ := hselector s rfl
      constructor
      · intro hp
        exact ⟨n, Nat.lt_succ_self n, update_self .., hp⟩
      · rintro ⟨i, hi, hk, hp⟩
        rcases update_cases hi hk with ⟨rfl, -⟩ | ⟨hi, hk⟩
        · exact hp
        · exact absurd hk (hfresh i hi _ rfl)
    · have hlt := (hents k _ hs).resolve_right hkm
      rw [h.parts_iff k s ((hold hlt).mp hs), exists_index_update (by simpa using Ne.symm hkm)]
  · intro i hi j hj k s hik hjk hs
    rcases update_cases hi hik with ⟨rfl, ⟨⟩⟩ | ⟨hi', hik'⟩
    · obtain rfl : e = .selector s := some.inj (hm.symm.trans hs)
      rcases update_cases hj hjk with ⟨rfl, -⟩ | ⟨hj', hjk'⟩
      · exact .inl rfl
      · exact absurd hjk' (hfresh j hj' s rfl)
    · rcases update_cases hj hjk with ⟨rfl, ⟨⟩⟩ | ⟨hj', hjk'⟩
      · obtain rfl : e = .selector s := some.inj (hm.symm.trans hs)
        exact absurd hik' (hfresh i hi' s rfl)
      · exact h.shared i hi' j hj' k s hik' hjk' ((hold (h.index_lt hi' hik')).mp hs)
  · intro i j a b hij hj hia hjb hopp
    rcases update_cases (hij.trans hj) hia with ⟨rfl, -⟩ | ⟨hi', hia'⟩
    · omega
    · rcases update_cases hj hjb with ⟨rfl, ⟨⟩⟩ | ⟨hj', hjb'⟩
      · obtain ⟨a', ha', heq⟩ := hbef i hi' hopp
        rw [hia'] at heq
        exact some.inj heq ▸ ha'
      · exact h.order i j a b hij hj' hia' hjb' hopp
  · intro i hi hnone
    obtain ⟨-, ⟨⟩⟩ | ⟨hi', hnone'⟩ := update_cases hi hnone
    obtain ⟨hcss, hcond, hlast⟩ := h.pending i hi' hnone'
    refine ⟨hcss, hcond, fun j hj hign => ?_⟩
    rcases Nat.lt_succ_iff_lt_or_eq.mp hj with hj' | rfl
    · exact hlast j hj' hign
    · obtain ⟨b, -, hb⟩ := hbef i hi' (by simp [Opposed, hcss, hign])
      rw [hnone'] at hb
      exact absurd hb (by simp)
  · intro i hi hnone
    obtain ⟨-, ⟨⟩⟩ | ⟨hi', hnone'⟩ := update_cases hi hnone
    exact h.exists_slot i hi' hnone'
  · exact fun slot hslot => h.slot_spec_update hslot _

/-- The entries of the map of postponed selectors. -/
abbrev slotsOf (st : SerializerState) : List (Trigger × PendingDisplayNoneActions) :=
  st.cssDisplayNoneActionsMap.entries

lemma mem_modify {m : HashMap Trigger PendingDisplayNoneActions} {t : Trigger}
    {d : PendingDisplayNoneActions} {f : PendingDisplayNoneActions → PendingDisplayNoneActions}
    : slot ∈ (m.modify t d f).entries ↔
      slot = (t, f ((m.get? t).getD d)) ∨ slot.1 ≠ t ∧ slot ∈ m.entries := by
  obtain ⟨t', p⟩ := slot
  rw [← get?_eq_some_iff, ← get?_eq_some_iff, get?_modify]
  split_ifs with ht
  · subst ht
    simp [eq_comm]
  · simp [ht]

/-- The selector of the next rule is postponed. -/
lemma Inv.postpone (h : Inv rules n st es index st.slotsOf)
    (htype : (rules.get n).actionType = .cssDisplayNoneSelector)
    (hcond : (rules.get n).trigger.conditions = []) :
    Inv rules (n + 1) (st.pushPending (rules.get n)) es (Function.update index n none)
      (st.pushPending (rules.get n)).slotsOf := by
  have hidx : ∀ i < n + 1, ∀ k, update index n none i = some k → i < n ∧ index i = some k := by
    intro i hi k hk
    obtain ⟨-, ⟨⟩⟩ | hk := update_cases hi hk
    exact hk
  have hign : ∀ j < n + 1, (rules.get j).actionType = .ignorePreviousRules → j < n := by
    intro j hj hj'
    rcases Nat.lt_succ_iff_lt_or_eq.mp hj with hlt | rfl
    · exact hlt
    · rw [htype] at hj'
      simp at hj'
  have hget : ∀ i < n, (st.pushPending (rules.get n)).actionLocations.get i =
      st.actionLocations.get i :=
    fun i hi => Vec.get_push_of_lt _ _ (by rw [h.size_eq]; exact hi)
  -- the slot of the trigger before and after the rule is added
  obtain ⟨old, hold⟩ : ∃ old, old =
      (st.cssDisplayNoneActionsMap.get? (rules.get n).trigger).getD ⟨[], []⟩ := ⟨_, rfl⟩
  have holdspec : old.selectors = old.clientLocations.map
      (fun i => (rules.get i).stringArgument) ∧ ∀ i ∈ old.clientLocations,
        i < n ∧ index i = none ∧ (rules.get i).trigger = (rules.get n).trigger := by
    cases hfind : st.cssDisplayNoneActionsMap.get? (rules.get n).trigger with
    | none => simp [hold, hfind]
    | some pending =>
      rw [hfind] at hold
      subst hold
      exact (h.slot_spec _ (get?_eq_some_iff.mp hfind)).2
  have hmem : ∀ slot, slot ∈ (st.pushPending (rules.get n)).slotsOf ↔
      slot = ((rules.get n).trigger, ⟨old.selectors ++ [(rules.get n).stringArgument],
        old.clientLocations ++ [n]⟩) ∨ slot.1 ≠ (rules.get n).trigger ∧ slot ∈ st.slotsOf := by
    intro slot
    rw [pushPending, mem_modify, ← hold, h.size_eq]
  refine ⟨h.actions_eq, ?_, h.readable, ?_, ?_, ?_, ?_, ?_, ?_, ?_, nodup _⟩
  · exact congrArg (· + 1) h.size_eq
  · intro i hi k hk
    obtain ⟨hi, hk⟩ := hidx i hi k hk
    rw [hget i hi]
    exact h.located i hi k hk
  · intro k s hs p
    rw [h.parts_iff k s hs, exists_index_update (by simp)]
  · intro i hi j hj k s hik hjk hs
    obtain ⟨hi, hik⟩ := hidx i hi k hik
    obtain ⟨hj, hjk⟩ := hidx j hj k hjk
    exact h.shared i hi j hj k s hik hjk hs
  · intro i j a b hij hj hia hjb hopp
    obtain ⟨-, hia⟩ := hidx i (hij.trans hj) a hia
    obtain ⟨hj, hjb⟩ := hidx j hj b hjb
    exact h.order i j a b hij hj hia hjb hopp
  · intro i hi hnone
    rcases update_cases hi hnone with ⟨rfl, -⟩ | ⟨hi, hnone⟩
    · exact ⟨htype, hcond, hign⟩
    · obtain ⟨hcss, hcond', hlast⟩ := h.pending i hi hnone
      exact ⟨hcss, hcond', fun j hj hj' => hlast j (hign j hj hj') hj'⟩
  · intro i hi hnone
    rcases update_cases hi hnone with ⟨rfl, -⟩ | ⟨hi, hnone⟩
    · exact ⟨_, (hmem _).mpr (.inl rfl), mem_append_right _ (mem_singleton.mpr rfl)⟩
    · obtain ⟨slot, hslot, hi'⟩ := h.exists_slot i hi hnone
      by_cases ht : slot.1 = (rules.get n).trigger
      · refine ⟨_, (hmem _).mpr (.inl rfl), mem_append_left _ ?_⟩
        have hfind : st.cssDisplayNoneActionsMap.get? (rules.get n).trigger = some slot.2 := by
          rw [get?_eq_some_iff, ← ht]
          exact hslot
        rw [hold, hfind]
        exact hi'
      · exact ⟨slot, (hmem _).mpr (.inr ⟨ht, hslot⟩), hi'⟩
  · intro slot hslot
    rcases (hmem slot).mp hslot with rfl | ⟨-, hslot⟩
    · refine ⟨by simp, by simp [holdspec.1], fun i hi => ?_⟩
      rcases mem_append.mp hi with hi | hi
      · obtain ⟨h₁, h₂, h₃⟩ := holdspec.2 i hi
        exact ⟨h₁.trans (Nat.lt_succ_self n), by rw [update_of_ne h₁.ne, h₂], h₃⟩
      · rw [mem_singleton.mp hi]
        exact ⟨Nat.lt_succ_self n, update_self .., rfl⟩
    · exact h.slot_spec_update hslot _

/-! ### Shared locations -/

/-- A location found in a map is the one of an entry after the rules of the opposite kind. -/
def MapsInv (rules : Vec ContentExtensionRule) (n : ℕ) (st : SerializerState)
    (entries : List Entry) (index : ℕ → Option ℕ) : Prop :=
  ∀ type flags location, (st.actionsMap type).get? flags = some location →
    ∃ k, entries[k]? = some (.plain type) ∧ location = offset Entry.bytes entries k ∧
      Before rules n index type k

/-- The maps of the types that are opposed to the next rule are empty. -/
def Cleared (st : SerializerState) (type : ActionType) : Prop :=
  ∀ type', Opposed type type' → ∀ flags, (st.actionsMap type').get? flags = none

lemma offset_of_prefix (h : es <+: es') (hk : es[k]? = some e) :
    offset Entry.bytes es' k = offset Entry.bytes es k := by
  obtain ⟨rest, rfl⟩ := h
  exact offset_append _ (List.getElem?_eq_some_iff.mp hk).1.le

variable {index' : ℕ → Option ℕ}

lemma Before.mono (h : Before rules n index type k)
    (hkeep : ∀ i < n, ∀ k, index i = some k → index' i = some k) :
    Before rules n index' type k := by
  intro j hj hopp
  obtain ⟨b, hb, hjb⟩ := h j hj hopp
  exact ⟨b, hb, hkeep j hj b hjb⟩

/-- More entries do not change the locations in the maps. -/
lemma MapsInv.mono (h : MapsInv rules n st es index) (hpre : es <+: es')
    (hkeep : ∀ i < n, ∀ k, index i = some k → index' i = some k)
    (hmaps : ∀ type flags loc, (st'.actionsMap type).get? flags = some loc →
      (st.actionsMap type).get? flags = some loc) : MapsInv rules n st' es' index' := by
  intro type flags loc hfind
  obtain ⟨k, hk, hloc, hbef⟩ := h type flags loc (hmaps type flags loc hfind)
  exact ⟨k, getElem?_of_prefix hpre hk, by rw [hloc, offset_of_prefix hpre hk], hbef.mono hkeep⟩

/-- The next rule comes after the entries in the maps that are left. -/
lemma MapsInv.next (h : MapsInv rules n st es index) (hclear : st.Cleared (rules.get n).actionType)
    (hpre : es <+: es') (hkeep : ∀ i < n, ∀ k, index i = some k → index' i = some k)
    (hmaps : st'.actionsMap = st.actionsMap) : MapsInv rules (n + 1) st' es' index' := by
  intro type flags loc hfind
  rw [hmaps] at hfind
  obtain ⟨k, hk, hloc, hbef⟩ := h type flags loc hfind
  refine ⟨k, getElem?_of_prefix hpre hk, by rw [hloc, offset_of_prefix hpre hk], ?_⟩
  intro j hj hopp
  rcases Nat.lt_succ_iff_lt_or_eq.mp hj with hlt | rfl
  · exact hbef.mono hkeep j hlt hopp
  · rw [hclear type hopp] at hfind
    exact absurd hfind (by simp)

lemma actionsMap_resolve : (st.resolvePendingDisplayNoneActions ord).actionsMap = st.actionsMap :=
  List.foldlRecOn (motive := fun s : SerializerState => s.actionsMap = st.actionsMap) _ _ rfl
    fun _ hs _ _ => hs

/-- All rules of the opposite kind have entries when a new one is appended. -/
lemma Inv.before_length (h : Inv rules n st es index slots)
    (hslots : type = .ignorePreviousRules → slots = []) : Before rules n index type es.length := by
  intro j hj hopp
  cases hk : index j with
  | some b => exact ⟨b, h.index_lt hj hk, rfl⟩
  | none =>
    obtain ⟨slot, hslot, -⟩ := h.exists_slot j hj hk
    rw [Opposed, (h.pending j hj hk).1] at hopp
    rw [hslots (by simpa using hopp)] at hslot
    simp at hslot

/-- The maps of the types that are opposed to the next rule are cleared. -/
lemma clearMaps_spec {p : ActionType → Bool} (h : Inv rules n st es index st.slotsOf)
    (hmaps : MapsInv rules n st es index) (hp : ∀ type', Opposed type type' → p type' = true)
    (hslots : type = .ignorePreviousRules → st.slotsOf = []) :
    ∃ es' index', Inv rules n (st.clearMaps p) es' index' (st.clearMaps p).slotsOf ∧
      MapsInv rules n (st.clearMaps p) es' index' ∧ (st.clearMaps p).Cleared type ∧
      Before rules n index' type es'.length := by
  refine ⟨es, index, { h with }, ?_, fun type' hopp flags => ?_, h.before_length hslots⟩
  · refine hmaps.mono prefix_rfl (fun _ _ _ hk => hk) fun type' flags loc hfind => ?_
    dsimp only [clearMaps] at hfind
    split_ifs at hfind
    · simp at hfind
    · exact hfind
  · simp [clearMaps, hp type' hopp]

lemma prepare_spec (h : Inv rules n st es index st.slotsOf) (hmaps : MapsInv rules n st es index) :
    ∃ es' index', Inv rules n (st.prepare ord type) es' index' (st.prepare ord type).slotsOf ∧
      MapsInv rules n (st.prepare ord type) es' index' ∧ (st.prepare ord type).Cleared type ∧
      Before rules n index' type es'.length := by
  unfold prepare
  split_ifs with htype
  · obtain ⟨es', index', hinv, hkeep⟩ := h.resolve ord
    refine clearMaps_spec hinv (hmaps.mono (prefix_append _ _) hkeep ?_) ?_ fun _ => rfl
    · simp [actionsMap_resolve]
    · exact fun type' hopp => bne_iff_ne.mpr (hopp.mp htype)
  · refine clearMaps_spec h hmaps (fun type' hopp => ?_) fun hi => absurd hi htype
    exact beq_iff_eq.mpr (not_not.mp (mt hopp.mpr htype))

/-- The types of the actions that rules have. -/
def IsRuleType (type : ActionType) : Prop :=
  type ≠ .cssDisplayNoneStyleSheet ∧ type ≠ .invalidAction

lemma readable_plain (h : IsRuleType type)
    (hne : type ≠ .cssDisplayNoneSelector) : (Entry.plain type).Readable := by
  cases type <;> simp_all [IsRuleType, Entry.Readable]

/-- The entry of a rule that has an entry of its own. -/
def entryOf (rule : ContentExtensionRule) : Entry :=
  if rule.actionType = .cssDisplayNoneSelector then .selector rule.stringArgument
  else .plain rule.actionType

lemma Inv.assign_new (h : Inv rules n st es index slots)
    (htype : IsRuleType (rules.get n).actionType)
    (hbef : Before rules n index (rules.get n).actionType es.length)
    (hact : st'.actions = st.actions ++ (entryOf (rules.get n)).bytes)
    (hlocs : st'.actionLocations = st.actionLocations.push st.actions.length) :
    Inv rules (n + 1) st' (es ++ [entryOf (rules.get n)])
      (Function.update index n (some es.length)) slots := by
  refine h.assign (prefix_append _ _) ?_ getElem?_concat_length ?_ ?_ ?_ hbef ?_ ?_
  · intro k e hk
    have hlt := (List.getElem?_eq_some_iff.mp hk).1
    rw [length_append, length_singleton] at hlt
    omega
  · unfold entryOf
    split_ifs with hcss
    · trivial
    · exact readable_plain htype hcss
  · unfold entryOf
    split_ifs with hcss
    · exact hcss.symm
    · rfl
  · intro s hs
    unfold entryOf at hs
    split_ifs at hs
    exact ⟨rfl, (Entry.selector.inj hs).symm⟩
  · rw [hact, h.actions_eq, concat_append, concat_singleton]
  · rw [hlocs, offset_append _ le_rfl, offset_length, h.actions_eq]

section

variable (h : Inv rules n st es index st.slotsOf) (hmaps : MapsInv rules n st es index)

include h hmaps

lemma findOrMakeActionLocation_spec
    (hclear : st.Cleared (rules.get n).actionType) (htype : IsRuleType (rules.get n).actionType)
    (hcss : (rules.get n).actionType ≠ .cssDisplayNoneSelector)
    (hbef : Before rules n index (rules.get n).actionType es.length) :
    ∃ es' index', Inv rules (n + 1) (st.findOrMakeActionLocation (rules.get n)) es'
        index' (st.findOrMakeActionLocation (rules.get n)).slotsOf ∧
      MapsInv rules (n + 1) (st.findOrMakeActionLocation (rules.get n)) es' index' := by
  have hent : entryOf (rules.get n) = .plain (rules.get n).actionType := if_neg hcss
  cases hfind : (st.actionsMap (rules.get n).actionType).get? (rules.get n).trigger.flags with
  -- the rule shares the action that an earlier rule with the same flags has written
  | some loc =>
    obtain ⟨k, hk, rfl, hbef'⟩ := hmaps _ _ _ hfind
    have hst : st.findOrMakeActionLocation (rules.get n) = { st with
        actionLocations := st.actionLocations.push (offset Entry.bytes es k) } := by
      rw [findOrMakeActionLocation, hfind]
    rw [hst]
    refine ⟨es, update index n (some k), ?_, ?_⟩
    · refine h.assign prefix_rfl (fun k' e hk' => ?_) hk (readable_plain htype hcss) rfl ?_
        hbef' h.actions_eq rfl
      · exact .inl (List.getElem?_eq_some_iff.mp hk').1
      · exact fun s hs => absurd hs (by simp)
    · exact hmaps.next hclear prefix_rfl update_of_lt rfl
  | none =>
    have hst : st.findOrMakeActionLocation (rules.get n) = { st with
        actions := st.actions ++ [(rules.get n).actionType.toByte]
        actionsMap := update st.actionsMap (rules.get n).actionType <|
          (st.actionsMap (rules.get n).actionType).modify (rules.get n).trigger.flags
            st.actions.length fun _ => st.actions.length
        actionLocations := st.actionLocations.push st.actions.length } := by
      rw [findOrMakeActionLocation, hfind]
    rw [hst]
    refine ⟨es ++ [entryOf (rules.get n)], update index n (some es.length),
      h.assign_new htype hbef ?_ rfl, ?_⟩
    · rw [hent]
      rfl
    · intro type flags loc hget
      -- the new location is the only one that the maps did not have
      have hold : (st.actionsMap type).get? flags = some loc ∨
          type = (rules.get n).actionType ∧ loc = st.actions.length := by
        by_cases ht : type = (rules.get n).actionType
        · subst ht
          dsimp only at hget
          rw [update_self, get?_modify] at hget
          split_ifs at hget with hflags
          · exact .inr ⟨rfl, (some.inj hget).symm⟩
          · exact .inl hget
        · dsimp only at hget
          rw [update_of_ne ht] at hget
          exact .inl hget
      rcases hold with hget' | ⟨rfl, rfl⟩
      · have hnext : MapsInv rules (n + 1) st (es ++ [entryOf (rules.get n)])
            (update index n (some es.length)) :=
          hmaps.next hclear (prefix_append _ _) update_of_lt rfl
        exact hnext type flags loc hget'
      · refine ⟨es.length, ?_, ?_, fun j hj hopp => ?_⟩
        · rw [← hent]
          exact getElem?_concat_length
        · rw [offset_append _ le_rfl, offset_length, h.actions_eq]
        · rcases Nat.lt_succ_iff_lt_or_eq.mp hj with hlt | rfl
          · exact hbef.mono update_of_lt j hlt hopp
          · exact absurd hopp (not_opposed_self _)

/-- One iteration of the loop. -/
lemma addRule_spec (htype : IsRuleType (rules.get n).actionType) :
    ∃ st' es' index', st.addRule ord (rules.get n) = some st' ∧
      Inv rules (n + 1) st' es' index' st'.slotsOf ∧
      MapsInv rules (n + 1) st' es' index' := by
  obtain ⟨es', index', hinv, hmaps', hclear, hbef⟩ := prepare_spec ord h hmaps
  unfold addRule
  generalize st.prepare ord (rules.get n).actionType = st₁ at hinv hmaps' hclear
  by_cases hcond : (rules.get n).trigger.conditions = []
  · rw [if_neg (not_not.mpr hcond)]
    by_cases hcss : (rules.get n).actionType = .cssDisplayNoneSelector
    · rw [hcss]
      refine ⟨_, es', update index' n none, rfl, hinv.postpone hcss hcond, ?_⟩
      exact hmaps'.next hclear prefix_rfl update_of_lt rfl
    · obtain ⟨es'', index'', hinv'', hmaps''⟩ :=
        findOrMakeActionLocation_spec hinv hmaps' hclear htype hcss hbef
      refine ⟨_, es'', index'', ?_, hinv'', hmaps''⟩
      cases htype' : (rules.get n).actionType <;> simp_all [IsRuleType]
  · rw [if_pos hcond]
    refine ⟨_, es' ++ [entryOf (rules.get n)], update index' n (some es'.length),
      rfl, hinv.assign_new htype hbef ?_ rfl, ?_⟩
    · simp only [pushConditional, entryOf]
      split_ifs <;> rfl
    · exact hmaps'.next hclear (prefix_append _ _) update_of_lt rfl

end

lemma loop_spec
    (htype : ∀ i < rules.size, IsRuleType (rules.get i).actionType) (n : ℕ) (hn : n ≤ rules.size) :
    ∃ st es index, loop ord rules n = some st ∧ Inv rules n st es index st.slotsOf ∧
      MapsInv rules n st es index := by
  induction n with
  | zero =>
    refine ⟨initial, [], fun _ => none, rfl, inv_initial _, ?_⟩
    intro type flags loc hget
    simp [initial] at hget
  | succ n ih =>
    obtain ⟨st, es, index, hloop, hinv, hmaps⟩ := ih (Nat.le_of_succ_le hn)
    obtain ⟨st', es', index', hadd, hinv', hmaps'⟩ := addRule_spec ord hinv hmaps (htype n hn)
    exact ⟨st', es', index', by rw [loop, hloop, bind_some, hadd], hinv', hmaps'⟩

end

end SerializerState

/-! ### What a load sees -/

section

open SerializerState

variable {actions : List ℕ}

/-- The kind of an action with each of its selectors. -/
def actionItems (type : ActionType) (characters : List ℕ) : Set (ActionType × Option (List ℕ)) :=
  if type = .cssDisplayNoneSelector then
    {x | ∃ p ∈ WString.commaParts characters, x = (type, some p)}
  else {(type, none)}

variable {rules : Vec ContentExtensionRule} {n : ℕ} {st : SerializerState}
  {es : List Entry} {index : ℕ → Option ℕ}

/-- Without slots every rule has an entry. -/
lemma SerializerState.Inv.exists_index (h : Inv rules n st es index []) (hi : i < n) :
    ∃ k, index i = some k := by
  cases hk : index i with
  | some k => exact ⟨k, rfl⟩
  | none =>
    obtain ⟨slot, hslot, -⟩ := h.exists_slot i hi hk
    simp at hslot

variable {x : ActionType × Option (List ℕ)} {characters : List ℕ}

lemma mem_actionItems_of_ne (h : type ≠ .cssDisplayNoneSelector) :
    x ∈ actionItems type characters ↔ x = (type, none) := by
  simp [actionItems, if_neg h]

/-- What a rule does. -/
def ruleItems (rule : ContentExtensionRule) : Set (ActionType × Option (List ℕ)) :=
  actionItems rule.actionType rule.stringArgument.characters

/-- Two rules whose selectors are serialized together. -/
def Joined (r r' : ContentExtensionRule) : Prop :=
  r.actionType = .cssDisplayNoneSelector ∧ r'.actionType = .cssDisplayNoneSelector ∧ Together r r'

/-- The action that is read at the location of a rule does what the rules there do. -/
lemma SerializerState.Inv.deserialize (h : Inv rules n st es index [])
    (hsize : st.actions.length < 2 ^ 32) (hi : i < n) :
    ∃ characters, Action.deserialize st.actions (st.actionLocations.get i) =
        some ⟨(rules.get i).actionType, st.actionLocations.get i, characters⟩ ∧
      ruleItems (rules.get i) ⊆ actionItems (rules.get i).actionType characters ∧
      ∀ x ∈ actionItems (rules.get i).actionType characters,
        ∃ j < n, st.actionLocations.get j = st.actionLocations.get i ∧
          (i = j ∨ Joined (rules.get i) (rules.get j)) ∧ x ∈ ruleItems (rules.get j) := by
  obtain ⟨k, hk⟩ := h.exists_index hi
  obtain ⟨e, he, htype, hloc⟩ := h.located i hi k hk
  have hread := h.readable e (mem_of_getElem? he)
  refine ⟨e.characters, ?_, ?_⟩
  · rw [h.actions_eq] at hsize ⊢
    rw [hloc, deserialize_offset hread he hsize, htype]
  · cases e with
    | plain type =>
      have hne : (rules.get i).actionType ≠ .cssDisplayNoneSelector := by
        rw [← htype]
        rcases hread with rfl | rfl | rfl | rfl <;> simp [Entry.type]
      have hitems : ∀ x, x ∈ actionItems (rules.get i).actionType [] ↔
          x ∈ ruleItems (rules.get i) := by
        intro x
        simp [ruleItems, mem_actionItems_of_ne hne]
      exact ⟨fun x hx => (hitems x).mpr hx, fun x hx => ⟨i, hi, rfl, .inl rfl, (hitems x).mp hx⟩⟩
    -- a selector is the list of those of all rules that share it
    | selector s =>
      have hcss : (rules.get i).actionType = .cssDisplayNoneSelector := htype.symm
      have hparts := h.parts_iff k s he
      refine ⟨fun x hx => ?_, fun x hx => ?_⟩
      · rw [ruleItems, hcss] at hx
        obtain ⟨p, hp, rfl⟩ := hx
        rw [hcss]
        exact ⟨p, (hparts p).mpr ⟨i, hi, hk, hp⟩, rfl⟩
      · rw [hcss] at hx
        obtain ⟨p, hp, rfl⟩ := hx
        obtain ⟨j, hj, hjk, hp⟩ := (hparts p).mp hp
        obtain ⟨e', he', htype', hloc'⟩ := h.located j hj k hjk
        obtain rfl : Entry.selector s = e' := some.inj (he.symm.trans he')
        have hcss' : (rules.get j).actionType = .cssDisplayNoneSelector := htype'.symm
        refine ⟨j, hj, hloc'.trans hloc.symm, ?_, ?_⟩
        · exact (h.shared i hi j hj k s hk hjk he).imp_right fun ht => ⟨hcss, hcss', ht⟩
        · rw [ruleItems, hcss']
          exact ⟨p, hp, rfl⟩

end

end WebKit.ContentExtensions
