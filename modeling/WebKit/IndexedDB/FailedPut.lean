import WebKit.IndexedDB.RecordOperations

/-!
# A failed put

A put or add that fails should leave the store as it was. It does so only if no record was deleted
and no index key was entered before the failure.
-/

namespace WebKit.IndexedDB

open WTF

variable {Key Buffer JSValue : Type*} [LinearOrder Key] {js : Bindings Key Buffer JSValue}

namespace IndexValueStore

/-- Taking keys out again restores the store exactly if they had no entry but were in the ordered
set. -/
lemma removeRecords_addRecords_iff {unique : Bool} {store : IndexValueStore Key} {keys : List Key}
    (hnd : keys.Nodup) (h : ∀ key ∈ keys, store.Accepts unique key) (vk : Key) :
    ((∀ key, ((store.addRecords unique keys vk).removeRecords keys vk).records.get? key =
          store.records.get? key) ∧
        ((store.addRecords unique keys vk).removeRecords keys vk).orderedKeys = store.orderedKeys) ↔
      ∀ key ∈ keys, store.records.get? key = none ∧ key ∈ store.orderedKeys := by
  have hmem : ∀ key ∈ keys, vk ∈ (store.addRecords unique keys vk).keysOf key :=
    fun key hkey => (mem_keysOf_addRecords hnd h vk key vk).2 (.inr ⟨rfl, hkey⟩)
  have hget : ∀ key,
      ((store.addRecords unique keys vk).removeRecords keys vk).records.get? key =
        if key ∈ keys then none else store.records.get? key := by
    intro key
    rw [get?_removeRecords hnd hmem, get?_addRecords hnd h]
    split_ifs <;> rfl
  rw [orderedKeys_removeRecords, orderedKeys_addRecords hnd h, Finset.union_eq_left]
  constructor
  · rintro ⟨hrecs, hordered⟩ key hkey
    refine ⟨?_, hordered (List.mem_toFinset.2 hkey)⟩
    rw [← hrecs key, hget, if_pos hkey]
  · refine fun hall => ⟨fun key => ?_, fun key hkey => (hall key (List.mem_toFinset.1 hkey)).2⟩
    rw [hget]
    split_ifs with hkey
    · exact (hall key hkey).1.symm
    · rfl

end IndexValueStore

namespace MemoryObjectStore

variable {ord : IterationOrder (String × IndexRef)} {tx : MemoryBackingStoreTransaction Key Buffer}
  {ref : StoreRef} {store : MemoryObjectStore Key Buffer} {keyData : Key} {value : Option Buffer}
  {mode : ObjectStoreOverwriteMode}

/-- The records, the contents of the indexes and the key generator are the same. -/
structure SameContents (store store' : MemoryObjectStore Key Buffer) : Prop where
  record?_eq : ∀ key, store'.record? key = store.record? key
  keys_eq : store'.keys = store.keys
  index : ∀ ref, (store.indexObjects ref).SameContents (store'.indexObjects ref)
  keyGeneratorValue_eq : store'.keyGeneratorValue = store.keyGeneratorValue

lemma SameContents.refl (store : MemoryObjectStore Key Buffer) : store.SameContents store :=
  ⟨fun _ => rfl, rfl, fun _ => .refl _, rfl⟩

variable (js ord store keyData value mode) in
/-- Nothing was changed before the failure, or everything that was changed is changed back. -/
def FailsCleanly : Prop :=
  match store.preparePutOrAdd js keyData value mode with
  | .error _ => True
  | .ok value =>
    store.record? (store.usedKey js keyData) = none ∧
      ∀ index ∈ store.acceptedRefs js value ord,
        ∀ key ∈ js.recordKeys (store.indexObjects index).info value,
          (store.indexObjects index).store.records.get? key = none ∧
            key ∈ (store.indexObjects index).store.orderedKeys

lemma sameContents_notAdded_iff (hwf : store.WellFormed) {key : Key}
    (hnone : store.record? key = none) {store' : MemoryObjectStore Key Buffer}
    (h : NotAdded js ord key value store store')
    (hgen : store'.keyGeneratorValue = store.keyGeneratorValue) :
    store.SameContents store' ↔
      ∀ index ∈ store.acceptedRefs js value ord,
        ∀ k ∈ js.recordKeys (store.indexObjects index).info value,
          (store.indexObjects index).store.records.get? k = none ∧
            k ∈ (store.indexObjects index).store.orderedKeys := by
  have hidx : ∀ index ∈ store.acceptedRefs js value ord,
      ((store.indexObjects index).SameContents (store'.indexObjects index) ↔
        ∀ k ∈ js.recordKeys (store.indexObjects index).info value,
          (store.indexObjects index).store.records.get? k = none ∧
            k ∈ (store.indexObjects index).store.orderedKeys) := by
    intro index hmem
    obtain ⟨hinfo, hstore⟩ := h.reverted.accepted index hmem
    rw [MemoryIndex.SameContents, hstore, and_iff_right hinfo]
    exact IndexValueStore.removeRecords_addRecords_iff (js.nodup_recordKeys _ _)
      (acceptsRecord_of_mem hmem) key
  refine ⟨fun hsame index hmem => (hidx index hmem).1 (hsame.index index), fun hall => ?_⟩
  refine ⟨fun k => ?_, ?_, fun index => ?_, hgen⟩
  · rw [h.record?_eq]
    split_ifs with hk
    · rw [hk, hnone]
    · rfl
  · rw [h.keys_eq, Finset.erase_eq_of_notMem]
    rw [hwf.mem_keys, hnone]
    simp
  · by_cases hmem : index ∈ store.acceptedRefs js value ord
    · exact (hidx index hmem).2 (hall index hmem)
    · exact h.reverted.other index hmem

lemma notAdded_of_ne_none {key : Key} (hnd : store.RefsNodup)
    (h : (store.addRecord js ord key value).1 ≠ none) :
    NotAdded js ord key value store (store.addRecord js ord key value).2 := by
  by_cases hall : store.AllAccept js value
  · exact absurd (addRecord_of_allAccept hnd hall).1 h
  · exact (addRecord_of_reject hnd hall).2

/-- A put or add that fails leaves the records, the indexes and the key generator as they were
exactly if it fails cleanly. -/
theorem performPutOrAdd_failed_iff (hwf : store.WellFormed)
    (hkey : js.isValidType (store.usedKey js keyData))
    (hfail : (store.performPutOrAdd js ord tx ref keyData value mode).1 ≠ none) :
    store.SameContents (store.performPutOrAdd js ord tx ref keyData value mode).2.2 ↔
      store.FailsCleanly js ord keyData value mode := by
  unfold FailsCleanly
  cases hprepare : store.preparePutOrAdd js keyData value mode with
  | error error =>
    rw [performPutOrAdd_of_error hprepare]
    exact iff_of_true (.refl _) trivial
  | ok newValue =>
    obtain ⟨herror, -, generator, hresult, hgenerator⟩ :=
      performPutOrAdd_of_ok ord tx ref hkey hprepare
    obtain ⟨advancedGenerator, hadvanced⟩ := advanced_eq
    rw [hgenerator hfail] at hresult
    rw [herror] at hfail
    rw [hresult]
    have hnodup : (store.setKeyGeneratorValue advancedGenerator).RefsNodup := hwf.refs_nodup
    dsimp only
    cases hold : store.record? (store.usedKey js keyData) with
    | none =>
      rw [and_iff_right rfl]
      have hnone : (store.setKeyGeneratorValue advancedGenerator).record? _ = none := hold
      rw [hadvanced, deleteRecord_of_none hnone] at hfail ⊢
      have hnotAdded := notAdded_of_ne_none hnodup hfail
      exact sameContents_notAdded_iff hwf hold
        ⟨hnotAdded.record?_eq, hnotAdded.keys_eq, hnotAdded.reverted⟩ rfl
    | some old =>
      -- the old record is gone, and the new one was not added
      rw [hadvanced] at hfail ⊢
      have hschema := (sameSchema_deleteRecord (store.usedKey js keyData) ord
        (store.setKeyGeneratorValue advancedGenerator) tx ref).1
      have hnotAdded := notAdded_of_ne_none (refsNodup_of_sameSchema hschema hnodup) hfail
      refine iff_of_false (fun hsame => ?_) (by simp)
      have hrecord := hsame.record?_eq (store.usedKey js keyData)
      have hgone := hnotAdded.record?_eq (store.usedKey js keyData)
      exact absurd (hold.symm.trans (hrecord.symm.trans hgone)) (by simp)

end MemoryObjectStore

/-! ### A lost record -/

/-- The records `1 ↦ 5` and `2 ↦ 6` and a unique index of the values. -/
def twoRecords : MemoryObjectStore ℕ ℕ where
  info := ⟨1, "store", none, false, .empty, 1⟩
  keyGeneratorValue := 1
  keyValueStore := some ⟨[(1, some 5), (2, some 6)], by decide⟩
  orderedKeys := some {1, 2}
  indexObjects _ :=
    { info := ⟨1, 1, "index", .string "x", true, false⟩
      records := some ⟨⟨[(5, {1}), (6, {2})], by decide⟩, {5, 6}⟩ }
  nextIndexRef := 1
  indexesByIdentifier := ⟨[(1, 0)], by decide⟩
  indexesByName := ⟨[("index", 0)], by decide⟩

/-- A transaction on one store. -/
def oneStore : MemoryBackingStoreTransaction ℕ ℕ :=
  (MemoryBackingStoreTransaction.create false none).addExistingObjectStore 0 1

lemma wellFormed_twoRecords : twoRecords.WellFormed where
  refs_nodup := List.nodup_singleton 0
  mem_keys key := by
    by_cases h₁ : key = 1
    · simp [h₁]; decide
    · by_cases h₂ : key = 2
      · simp [h₂]; decide
      · simp [MemoryObjectStore.keys, MemoryObjectStore.record?, twoRecords, HashMap.get?,
          HashMap.find, h₁, h₂, Ne.symm h₁, Ne.symm h₂]

/-- A new key whose value is refused by the only index. -/
theorem put_new_key_fails_cleanly :
    let result := twoRecords.performPutOrAdd .ofNat .insertion oneStore 0 3 (some 6) .Overwrite
    result.1 = some { code := .ConstraintError } ∧ twoRecords.SameContents result.2.2 := by
  refine ⟨by decide, ?_⟩
  refine (MemoryObjectStore.performPutOrAdd_failed_iff wellFormed_twoRecords rfl (by decide)).2 ?_
  refine ⟨by decide, fun index hmem => ?_⟩
  cases hmem

/-- Putting the value of the second record under the first key fails, and the first record is
lost. -/
theorem put_existing_loses_record :
    let result := twoRecords.performPutOrAdd .ofNat .insertion oneStore 0 1 (some 6) .Overwrite
    result.1 = some { code := .ConstraintError } ∧ twoRecords.record? 1 = some (some 5) ∧
      result.2.2.record? 1 = none ∧ ¬twoRecords.SameContents result.2.2 := by
  have hlost : twoRecords.record? 1 = some (some 5) ∧ (twoRecords.performPutOrAdd .ofNat .insertion
      oneStore 0 1 (some 6) .Overwrite).2.2.record? 1 = none := by decide
  refine ⟨by decide, hlost.1, hlost.2, fun hsame => ?_⟩
  have hrecord := hsame.record?_eq 1
  cases hrecord

end WebKit.IndexedDB
