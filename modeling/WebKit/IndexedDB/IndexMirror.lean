import WebKit.Core.Run
import WebKit.IndexedDB.RecordOperations

/-!
# Indexes mirror the records

After successful operations an index should hold the index keys of the stored records, no matter
when it was made. The operations that break this are described exactly.
-/

namespace WebKit.IndexedDB

open WTF WebKit.Core IndexValueStore Option HashMap

variable {Key Buffer JSValue : Type*}

namespace Bindings

variable [DecidableEq Key] (js : Bindings Key Buffer JSValue)

/-- The index keys of a value: what the key path of the index gives, if it is valid. -/
def validKeys (info : IDBIndexInfo) (value : Option Buffer) : List Key :=
  let jsValue := js.deserializeIDBValueToJSValue value
  if js.isUndefinedOrNull jsValue then []
  else
    match js.generateIndexKeyForValue info jsValue with
    | [] => []
    | indexKey =>
      (if info.multiEntry then indexKey else [js.asOneKey indexKey]).filter js.isValid

/-- The keys on the key path of an index are valid. Of the elements of one that is entered with its
elements, those that are not valid may not have a valid type. -/
def HasValidKeys (info : IDBIndexInfo) (value : Option Buffer) : Prop :=
  let jsValue := js.deserializeIDBValueToJSValue value
  let indexKey := js.generateIndexKeyForValue info jsValue
  js.isUndefinedOrNull jsValue ∨
    if info.multiEntry then ∀ key ∈ indexKey, js.isValidType key ↔ js.isValid key
    else indexKey = [] ∨ js.isValid (js.asOneKey indexKey)

/-- Exactly then the keys that are entered for a value are its index keys. -/
lemma hasValidKeys_iff (info : IDBIndexInfo) (value : Option Buffer) :
    js.HasValidKeys info value ↔
      ∀ key, key ∈ js.recordKeys info value ↔ key ∈ js.validKeys info value := by
  unfold HasValidKeys recordKeys validKeys enteredKeys
  dsimp only
  generalize js.generateIndexKeyForValue info (js.deserializeIDBValueToJSValue value) = indexKey
  by_cases hundef : js.isUndefinedOrNull (js.deserializeIDBValueToJSValue value)
  · simp [hundef]
  rw [or_iff_right hundef, if_neg hundef, if_neg hundef]
  cases indexKey with
  | nil => simp
  | cons key keys =>
    split_ifs
    · simp only [mem_multiEntry, List.mem_filter, and_congr_right_iff]
    · simp only [false_or, List.mem_filter, List.mem_singleton]
      exact ⟨fun h key => ⟨fun hkey => ⟨hkey, hkey ▸ h⟩, And.left⟩, fun h => ((h _).1 rfl).2⟩

end Bindings

/-! ### Operations on a store -/

/-- A store and the transaction that writes to it. -/
structure StoreState (Key Buffer : Type*) where
  tx : MemoryBackingStoreTransaction Key Buffer
  store : MemoryObjectStore Key Buffer

/-- The operations, with the orders in which the hash tables are iterated. -/
inductive StoreOperation (Key Buffer : Type*)
  | putOrAdd (ord : IterationOrder (String × IndexRef)) (keyData : Key) (value : Option Buffer)
    (mode : ObjectStoreOverwriteMode)
  | deleteRange (ord : IterationOrder (String × IndexRef)) (range : IDBKeyRangeData Key)
  | clear (ord : IterationOrder (ℕ × IndexRef))
  | createIndex (ord : IterationOrder (Key × Option Buffer)) (info : IDBIndexInfo)
  | commit (isVersionChange : Bool)

namespace StoreState

variable [LinearOrder Key] (js : Bindings Key Buffer JSValue) (ref : StoreRef)

/-- The state after an operation that succeeds. Keys are valid, and a new index has a name and an
identifier that are not in use. After a commit the next transaction starts. -/
def step (st : StoreState Key Buffer) : StoreOperation Key Buffer → Option (StoreState Key Buffer)
  | .putOrAdd ord keyData value mode =>
    let result := st.store.performPutOrAdd js ord st.tx ref keyData value mode
    if js.isValidType (st.store.usedKey js keyData) ∧ result.1 = none then
      some ⟨result.2.1, result.2.2⟩
    else none
  | .deleteRange ord range =>
    let result := st.store.deleteRange js ord st.tx ref range
    some ⟨result.1, result.2⟩
  | .clear ord =>
    let result := st.store.clear ord st.tx ref
    some ⟨result.1, result.2⟩
  | .createIndex ord info =>
    let result := st.store.createIndex js ord st.tx ref info
    if st.store.indexesByName.contains info.name = false ∧
        st.store.indexesByIdentifier.contains info.identifier = false ∧ result.1 = none then
      some ⟨result.2.1, result.2.2⟩
    else none
  | .commit isVersionChange =>
    some ⟨(MemoryBackingStoreTransaction.create isVersionChange none).addExistingObjectStore ref
      st.store.keyGeneratorValue, st.store⟩

/-- A store without records and indexes. -/
def initial (isVersionChange : Bool) (info : IDBObjectStoreInfo) : StoreState Key Buffer where
  tx := (MemoryBackingStoreTransaction.create isVersionChange none).addExistingObjectStore ref 1
  store :=
    { info := info
      keyGeneratorValue := 1
      keyValueStore := none
      orderedKeys := none
      indexObjects := fun _ => ⟨⟨0, 0, "", .string "", false, false⟩, none⟩
      nextIndexRef := 0
      indexesByIdentifier := .empty
      indexesByName := .empty }

end StoreState

namespace MemoryObjectStore

variable [DecidableEq Key] (js : Bindings Key Buffer JSValue)

/-- The index holds the index keys of the records, each with the keys of the records that have it,
and the ordered set has just these index keys. -/
structure IndexMirrors (records : Key → Option (Option Buffer)) (index : MemoryIndex Key) :
    Prop where
  tidy : index.store.Tidy
  mem_keysOf : ∀ key primaryKey, primaryKey ∈ index.store.keysOf key ↔
    ∃ value, records primaryKey = some value ∧ key ∈ js.validKeys index.info value

/-- All indexes mirror the records. -/
def Mirrors (store : MemoryObjectStore Key Buffer) : Prop :=
  ∀ ref, store.Registered ref → IndexMirrors js store.record? (store.indexObjects ref)

variable {js} {store store' : MemoryObjectStore Key Buffer} {key : Key} {value : Option Buffer}

/-! ### Records -/

lemma mirrors_of_deleted (hsch : SameSchema store store') (h : Deleted key store store')
    (hmir : store.Mirrors js) : store'.Mirrors js := by
  intro ref href
  rw [hsch.registered_iff] at href
  obtain ⟨htidy, hmem⟩ := hmir ref href
  rw [h.index_eq ref href]
  refine ⟨?_, fun k pk => ?_⟩
  · rw [MemoryIndex.store_removeEntries]
    exact htidy.removeEntriesWithValueKey key
  · rw [MemoryIndex.store_removeEntries, keysOf_removeEntries, Finset.mem_erase, hmem, h.record?_eq]
    by_cases hkey : pk = key <;> simp [hkey]

lemma mirrors_iff_of_added (hsch : SameSchema store store') (hnone : store.record? key = none)
    (hacc : store.AllAccept js value) (h : Added js key value store store')
    (hmir : store.Mirrors js) :
    store'.Mirrors js ↔ ∀ ref, store.Registered ref →
      js.HasValidKeys (store.indexObjects ref).info value := by
  refine forall_congr' fun ref => ?_
  rw [hsch.registered_iff, js.hasValidKeys_iff]
  refine forall_congr' fun href => ?_
  obtain ⟨htidy, hmem⟩ := hmir ref href
  have hnd := js.nodup_recordKeys (store.indexObjects ref).info value
  have hkeysOf : ∀ k pk, pk ∈ (store'.indexObjects ref).store.keysOf k ↔
      pk ∈ (store.indexObjects ref).store.keysOf k ∨
        pk = key ∧ k ∈ js.recordKeys (store.indexObjects ref).info value := by
    rw [h.entered.store_eq ref href]
    exact mem_keysOf_addRecords hnd (hacc ref href) key
  have hnot : ∀ k, key ∉ (store.indexObjects ref).store.keysOf k := by
    intro k hk
    obtain ⟨old, hold, -⟩ := (hmem k key).1 hk
    rw [hnone] at hold
    cases hold
  constructor
  · rintro ⟨-, hmem'⟩ k
    have hpair := hmem' k key
    rw [hkeysOf, or_iff_right (hnot k), h.record?_eq, h.entered.info] at hpair
    simpa using hpair
  · intro hvld
    refine ⟨?_, fun k pk => ?_⟩
    · rw [h.entered.store_eq ref href]
      exact htidy.addRecords hnd (hacc ref href) key
    · rw [hkeysOf, h.record?_eq, h.entered.info, hmem, hvld k]
      by_cases hkey : pk = key
      · simp [hkey, hnone]
      · simp [hkey]

end MemoryObjectStore

namespace StoreState

variable [LinearOrder Key] {js : Bindings Key Buffer JSValue} {ref : StoreRef}
  {st st' : StoreState Key Buffer}

open MemoryObjectStore

/-- What all operations keep. -/
structure Invariant (ref : StoreRef) (st : StoreState Key Buffer) : Prop where
  wellFormed : st.store.WellFormed
  registered_iff : ∀ index, st.store.Registered index ↔
    ∃ identifier, (identifier, index) ∈ st.store.indexesByIdentifier.entries
  identifiers_nodup : (st.store.indexesByIdentifier.entries.map Prod.snd).Nodup
  lt_nextIndexRef : ∀ index, st.store.Registered index → index < st.store.nextIndexRef
  of_cleared : ∀ index, st.tx.clearedIndexValueStores.contains (ref, index) →
    st.tx.clearedKeyValueMaps.contains ref ∧ index < st.store.nextIndexRef

/-- Operations on records keep the invariant if they keep the store well-formed. -/
lemma Invariant.of_sameSchema (h : st.Invariant ref) (hsch : SameSchema st.store st'.store)
    (hwf : st'.store.WellFormed) (hmaps : st'.tx.clearedKeyValueMaps = st.tx.clearedKeyValueMaps)
    (hsts : st'.tx.clearedIndexValueStores = st.tx.clearedIndexValueStores) :
    st'.Invariant ref where
  wellFormed := hwf
  registered_iff index := by
    rw [hsch.registered_iff, hsch.indexesByIdentifier]
    exact h.registered_iff index
  identifiers_nodup := by
    rw [hsch.indexesByIdentifier]
    exact h.identifiers_nodup
  lt_nextIndexRef index hidx := by
    rw [hsch.registered_iff] at hidx
    rw [hsch.nextIndexRef]
    exact h.lt_nextIndexRef index hidx
  of_cleared index hidx := by
    rw [hsts] at hidx
    rw [hmaps, hsch.nextIndexRef]
    exact h.of_cleared index hidx

/-! ### Deleting -/

lemma deleteRecord_keeps (ord : IterationOrder (String × IndexRef)) (key : Key)
    (tx : MemoryBackingStoreTransaction Key Buffer) (store : MemoryObjectStore Key Buffer)
    (h : Invariant ref ⟨tx, store⟩ ∧ store.Mirrors js) :
    Invariant ref ⟨(store.deleteRecord ord tx ref key).1, (store.deleteRecord ord tx ref key).2⟩ ∧
      (store.deleteRecord ord tx ref key).2.Mirrors js := by
  obtain ⟨hinv, hmir⟩ := h
  cases hold : store.record? key with
  | none =>
    rw [deleteRecord_of_none hold]
    exact ⟨hinv.of_sameSchema ⟨rfl, rfl, rfl, rfl⟩ hinv.wellFormed (by simp) (by simp), hmir⟩
  | some old =>
    obtain ⟨htx, hdel⟩ := deleteRecord_of_some ord tx ref hinv.wellFormed.refs_nodup hold
    have hsch := (sameSchema_deleteRecord key ord store tx ref).1
    refine ⟨hinv.of_sameSchema hsch (hinv.wellFormed.of_deleted hsch hdel) ?_ ?_,
      mirrors_of_deleted hsch hdel hmir⟩
    · simp [htx]
    · simp [htx]

/-! ### Putting -/

/-- A put that succeeds adds the record to a store without it. -/
lemma putOrAdd_added {ord : IterationOrder (String × IndexRef)} {keyData : Key}
    {value : Option Buffer} {mode : ObjectStoreOverwriteMode} (hinv : st.Invariant ref)
    (hmir : st.store.Mirrors js)
    (hstep : st.step js ref (.putOrAdd ord keyData value mode) = some st') :
    ∃ newValue middle, st.store.preparePutOrAdd js keyData value mode = .ok newValue ∧
      Invariant ref ⟨st'.tx, middle⟩ ∧ middle.Mirrors js ∧
      (∀ index, middle.Registered index ↔ st.store.Registered index) ∧
      (∀ index, (middle.indexObjects index).info = (st.store.indexObjects index).info) ∧
      middle.record? (st.store.usedKey js keyData) = none ∧ middle.AllAccept js newValue ∧
      SameSchema middle st'.store ∧
      Added js (st.store.usedKey js keyData) newValue middle st'.store := by
  simp only [step, ite_none_right_eq_some, some.injEq] at hstep
  obtain ⟨⟨hkey, hnone⟩, rfl⟩ := hstep
  cases hprep : st.store.preparePutOrAdd js keyData value mode with
  | error error =>
    rw [performPutOrAdd_of_error hprep] at hnone
    cases hnone
  | ok newValue =>
    obtain ⟨herr, htx, generator, hres, -⟩ := performPutOrAdd_of_ok ord st.tx ref hkey hprep
    obtain ⟨advancedGenerator, hadv⟩ := advanced_eq
    rw [hadv] at herr htx hres
    have hinv' : Invariant ref ⟨st.tx, st.store.setKeyGeneratorValue advancedGenerator⟩ :=
      hinv.of_sameSchema ⟨rfl, rfl, rfl, rfl⟩
        ⟨hinv.wellFormed.refs_nodup, hinv.wellFormed.mem_keys⟩ rfl rfl
    have hnd := hinv'.wellFormed.refs_nodup
    have hmir' : (st.store.setKeyGeneratorValue advancedGenerator).Mirrors js := hmir
    -- `middle` is the store after the record with this key has been deleted
    obtain ⟨hinvMiddle, hmirrorsMiddle⟩ :=
      deleteRecord_keeps ord (st.store.usedKey js keyData) _ _ ⟨hinv', hmir'⟩
    obtain ⟨hall, hadd⟩ := added_of_eq_none hinvMiddle.wellFormed.refs_nodup (herr.symm.trans hnone)
    have hsch := (sameSchema_deleteRecord (st.store.usedKey js keyData) ord
      (st.store.setKeyGeneratorValue advancedGenerator) st.tx ref).1
    have hsch' := (sameSchema_addRecord js (st.store.usedKey js keyData) newValue ord
      ((st.store.setKeyGeneratorValue advancedGenerator).deleteRecord ord st.tx ref
        (st.store.usedKey js keyData)).2).1
    refine ⟨newValue, _, rfl, by rw [htx]; exact hinvMiddle, hmirrorsMiddle,
      fun index => hsch.registered_iff, info_deleteRecord ord st.tx ref hnd,
      (record?_deleteRecord ord st.tx ref hnd _).trans (if_pos rfl), hall, ?_, ?_⟩
    · rw [hres]
      exact ⟨hsch'.info, hsch'.nextIndexRef, hsch'.indexesByIdentifier, hsch'.indexesByName⟩
    · rw [hres]
      exact ⟨hadd.record?_eq, hadd.keys_eq, hadd.entered⟩

/-! ### Clearing -/

/-- A store that is cleared a second time has no index with contents that was not cleared the
first time. -/
def ClearKeeps (ref : StoreRef) (st : StoreState Key Buffer) : Prop :=
  st.tx.clearedKeyValueMaps.contains ref → ∀ index, st.store.Registered index →
    st.tx.clearedIndexValueStores.contains (ref, index) = false →
      ∀ key, (st.store.indexObjects index).store.keysOf key = ∅

variable {index : MemoryIndex Key}

lemma indexMirrors_emptied_iff {records : Key → Option (Option Buffer)}
    (h : IndexMirrors js records index) :
    IndexMirrors js records { index with records := none } ↔ ∀ key, index.store.keysOf key = ∅ := by
  constructor
  · rintro ⟨-, hmem⟩ key
    refine Finset.eq_empty_of_forall_notMem fun pk hkey => ?_
    have hpair := (hmem key pk).2 ((h.mem_keysOf key pk).1 hkey)
    exact Finset.notMem_empty pk hpair
  · intro hnone
    refine ⟨tidy_empty, fun key pk => ?_⟩
    rw [← h.mem_keysOf key pk, hnone key]
    rfl

lemma clear_step {ord : IterationOrder (ℕ × IndexRef)} (hinv : st.Invariant ref)
    (hmir : st.store.Mirrors js) (hstep : st.step js ref (.clear ord) = some st') :
    st'.Invariant ref ∧ (st'.store.Mirrors js ↔ st.ClearKeeps ref) := by
  have hnd : (st.store.refsByIdentifier ord).Nodup :=
    ((ord.perm _).map _).nodup_iff.2 hinv.identifiers_nodup
  obtain rfl := some.inj hstep
  have hreg : ∀ index, index ∈ st.store.refsByIdentifier ord ↔ st.store.Registered index :=
    fun index => mem_refsByIdentifier.trans (hinv.registered_iff index).symm
  cases hcon : st.tx.clearedKeyValueMaps.contains ref with
  | true =>
    obtain ⟨result, heq, hclr⟩ := clear_of_contains hnd hcon
    rw [heq]
    refine ⟨⟨⟨hinv.wellFormed.refs_nodup, hinv.wellFormed.mem_keys⟩, hinv.registered_iff,
      hinv.identifiers_nodup, hinv.lt_nextIndexRef, fun index hidx => ?_⟩, ?_⟩
    · rcases (hclr.contains_iff index).1 hidx with hidx | hidx
      · rw [hclr.tx_eq]
        exact hinv.of_cleared index hidx
      · rw [hclr.tx_eq]
        exact ⟨hcon, hinv.lt_nextIndexRef index ((hreg index).1 hidx)⟩
    · simp only [ClearKeeps, hcon, forall_const]
      refine forall₂_congr fun index hidx => ?_
      change IndexMirrors js st.store.record? (result.2 index) ↔ _
      have hobj := hclr.objects_eq index
      cases hbef : st.tx.clearedIndexValueStores.contains (ref, index) with
      | true =>
        rw [if_neg (by simp [hbef])] at hobj
        rw [hobj]
        exact iff_of_true (hmir index hidx) (by rintro ⟨⟩)
      | false =>
        rw [if_pos ⟨(hreg index).2 hidx, hbef⟩] at hobj
        rw [hobj]
        exact (indexMirrors_emptied_iff (hmir index hidx)).trans ⟨fun h _ => h, fun h => h rfl⟩
  | false =>
    -- no index can have been cleared without the store
    have hbef : ∀ index, st.tx.clearedIndexValueStores.contains (ref, index) = false := by
      intro index
      by_contra hidx
      rw [(hinv.of_cleared index (Bool.eq_true_of_not_eq_false hidx)).1] at hcon
      cases hcon
    obtain ⟨result, heq, hclr⟩ := clear_of_not_contains hnd hcon
    rw [heq]
    refine ⟨⟨⟨hinv.wellFormed.refs_nodup, fun key => by simp [keys, record?]⟩,
      hinv.registered_iff, hinv.identifiers_nodup, hinv.lt_nextIndexRef, fun index hidx => ?_⟩,
      iff_of_true (fun index hidx => ?_) (by simp [ClearKeeps, hcon])⟩
    · have hmem : index ∈ st.store.refsByIdentifier ord := by
        rcases (hclr.contains_iff index).1 hidx with hidx | hidx
        · rw [hbef] at hidx
          cases hidx
        · exact hidx
      refine ⟨?_, hinv.lt_nextIndexRef index ((hreg index).1 hmem)⟩
      rw [hclr.tx_eq]
      simp [HashMap.contains]
    · change IndexMirrors js (fun _ => none) (result.2 index)
      have hobj := hclr.objects_eq index
      rw [if_pos ⟨(hreg index).2 hidx, hbef index⟩] at hobj
      rw [hobj]
      exact ⟨tidy_empty, fun key pk => iff_of_false (Finset.notMem_empty pk) (by simp)⟩

/-! ### Making an index -/

/-- The records that are visited enter their index keys, and the others have none. -/
def CreateIndexKeeps (js : Bindings Key Buffer JSValue) (ord : IterationOrder (Key × Option Buffer))
    (info : IDBIndexInfo) (st : StoreState Key Buffer) : Prop :=
  ∀ map, st.store.keyValueStore = some map →
    (∀ record ∈ visited js (map.iterate ord), js.HasValidKeys info record.2) ∧
      ∀ record ∈ map.iterate ord, record ∉ visited js (map.iterate ord) →
        js.validKeys info record.2 = []

variable {ord : IterationOrder (Key × Option Buffer)} {info : IDBIndexInfo}

/-- A populated index mirrors the records exactly under that condition. -/
lemma indexMirrors_populated_iff {map : KeyValueMap Key Buffer}
    (h : Populated js (map.iterate ord) ⟨info, none⟩ index) :
    IndexMirrors js map.get? index ↔
      (∀ record ∈ visited js (map.iterate ord), js.HasValidKeys info record.2) ∧
        ∀ record ∈ map.iterate ord, record ∉ visited js (map.iterate ord) →
          js.validKeys info record.2 = [] := by
  simp only [js.hasValidKeys_iff]
  have hsub : ∀ record ∈ visited js (map.iterate ord), record ∈ map.iterate ord :=
    fun record hrec => (List.takeWhile_prefix _).subset hrec
  have hget : ∀ {key value}, (key, value) ∈ map.iterate ord → map.get? key = some value :=
    fun hmem => get?_eq_some_iff.2 (mem_iterate.1 hmem)
  -- the entries come from the records before the first undefined or null value
  have hkeysOf : ∀ key pk, pk ∈ index.store.keysOf key ↔
      ∃ value, (pk, value) ∈ visited js (map.iterate ord) ∧ key ∈ js.recordKeys info value := by
    intro key pk
    rw [h.mem_keysOf]
    exact or_iff_right (Finset.notMem_empty pk)
  constructor
  · rintro ⟨-, hmem⟩
    rw [h.info] at hmem
    simp only [hkeysOf] at hmem
    have huniq : ∀ {pk value value'}, (pk, value) ∈ map.iterate ord →
        map.get? pk = some value' → value' = value :=
      fun hrec hval => some.inj (hval.symm.trans (hget hrec))
    refine ⟨?_, ?_⟩
    · rintro ⟨pk, value⟩ hrec key
      constructor
      · intro hkey
        obtain ⟨value', hval', hvld⟩ := (hmem key pk).1 ⟨value, hrec, hkey⟩
        rwa [huniq (hsub _ hrec) hval'] at hvld
      · intro hkey
        obtain ⟨value', hrec', hent⟩ := (hmem key pk).2 ⟨value, hget (hsub _ hrec), hkey⟩
        rwa [huniq (hsub _ hrec) (hget (hsub _ hrec'))] at hent
    · rintro ⟨pk, value⟩ hrec hnot
      refine List.eq_nil_iff_forall_not_mem.2 fun key hkey => hnot ?_
      obtain ⟨value', hrec', -⟩ := (hmem key pk).2 ⟨value, hget hrec, hkey⟩
      rwa [huniq hrec (hget (hsub _ hrec'))] at hrec'
  · rintro ⟨hvis, hoth⟩
    refine ⟨h.tidy tidy_empty, fun key pk => ?_⟩
    rw [hkeysOf, h.info]
    constructor
    · rintro ⟨value, hrec, hkey⟩
      exact ⟨value, hget (hsub _ hrec), (hvis _ hrec key).1 hkey⟩
    · rintro ⟨value, hval, hkey⟩
      have hrec : (pk, value) ∈ map.iterate ord := mem_iterate.2 (get?_eq_some_iff.1 hval)
      by_cases hmem : (pk, value) ∈ visited js (map.iterate ord)
      · exact ⟨value, hmem, (hvis _ hmem key).2 hkey⟩
      · rw [hoth _ hrec hmem] at hkey
        cases hkey

/-- An index that was populated without an error. -/
lemma indexMirrors_new_iff
    (h : (st.store.populateIndexWithExistingRecords js ord ⟨info, none⟩).1 = none) :
    (st.store.populateIndexWithExistingRecords js ord ⟨info, none⟩).2.info = info ∧
      (IndexMirrors js st.store.record?
          (st.store.populateIndexWithExistingRecords js ord ⟨info, none⟩).2 ↔
        st.CreateIndexKeeps js ord info) := by
  unfold populateIndexWithExistingRecords at h ⊢
  unfold CreateIndexKeeps
  cases hmap : st.store.keyValueStore with
  | none =>
    have hrec : st.store.record? = fun _ => none := funext fun key => by simp [record?, hmap]
    refine ⟨rfl, iff_of_true ?_ (by simp)⟩
    rw [hrec]
    exact ⟨tidy_empty, fun key pk => iff_of_false (Finset.notMem_empty pk) (by simp)⟩
  | some map =>
    have hrec : st.store.record? = map.get? := funext fun key => by simp [record?, hmap]
    rw [hmap] at h
    have hpop := populated_of_populateIndex h
    refine ⟨hpop.info, ?_⟩
    rw [hrec, indexMirrors_populated_iff hpop]
    simp

lemma createIndex_step (hinv : st.Invariant ref) (hmir : st.store.Mirrors js)
    (hstep : st.step js ref (.createIndex ord info) = some st') :
    st'.Invariant ref ∧ (st'.store.Mirrors js ↔ st.CreateIndexKeeps js ord info) := by
  simp only [step, ite_none_right_eq_some, some.injEq] at hstep
  obtain ⟨⟨hname, hid, hnone⟩, rfl⟩ := hstep
  unfold createIndex at hnone ⊢
  split_ifs at hnone ⊢ with hver
  dsimp only at hnone ⊢
  cases herr : (st.store.populateIndexWithExistingRecords js ord ⟨info, none⟩).1 with
  | some error =>
    rw [herr] at hnone
    cases hnone
  | none =>
    obtain ⟨hinfo, hnew⟩ := indexMirrors_new_iff herr
    rw [← hnew]
    generalize (st.store.populateIndexWithExistingRecords js ord ⟨info, none⟩).2 = index at hinfo ⊢
    subst hinfo
    have hlt := hinv.lt_nextIndexRef
    refine ⟨⟨⟨refsNodup_installIndex hname hlt hinv.wellFormed.refs_nodup,
      hinv.wellFormed.mem_keys⟩, fun i => ?_, ?_, fun i hi => ?_, fun i hi => ?_⟩, ?_⟩
    · rw [registered_installIndex hname, byIdentifier_installIndex,
        entries_set_of_notMem hid, hinv.registered_iff]
      simp [exists_or]
    · rw [byIdentifier_installIndex, entries_set_of_notMem hid, List.map_append, List.nodup_append]
      refine ⟨hinv.identifiers_nodup, List.nodup_singleton _, ?_⟩
      rintro i hi _ hnext rfl
      obtain ⟨entry, hent, rfl⟩ := List.mem_map.1 hi
      exact absurd (List.mem_singleton.1 hnext)
        (hlt entry.2 ((hinv.registered_iff _).2 ⟨entry.1, hent⟩)).ne
    · rcases (registered_installIndex hname i).1 hi with hi | rfl
      · exact Nat.lt_succ_of_lt (hlt i hi)
      · exact Nat.lt_succ_self _
    · obtain ⟨hcon, hi⟩ := hinv.of_cleared i hi
      exact ⟨hcon, Nat.lt_succ_of_lt hi⟩
    -- the indexes that were there are as before, so the new one decides
    · have hobj : (st.store.installIndex index).indexObjects =
          Function.update st.store.indexObjects st.store.nextIndexRef index := rfl
      constructor
      · intro h
        have hidx := h _ ((registered_installIndex hname _).2 (Or.inr rfl))
        rwa [hobj, Function.update_self] at hidx
      · intro h i hi
        rw [hobj]
        rcases (registered_installIndex hname i).1 hi with hi | rfl
        · rw [Function.update_of_ne (hlt i hi).ne]
          exact hmir i hi
        · rw [Function.update_self]
          exact h

/-! ### Runs -/

/-- The condition under which an operation that succeeds keeps the mirror. -/
def Keeps (js : Bindings Key Buffer JSValue) (ref : StoreRef) (st : StoreState Key Buffer) :
    StoreOperation Key Buffer → Prop
  | .putOrAdd _ keyData value mode =>
    ∀ newValue, st.store.preparePutOrAdd js keyData value mode = .ok newValue →
      ∀ index, st.store.Registered index →
        js.HasValidKeys (st.store.indexObjects index).info newValue
  | .deleteRange _ _ => True
  | .clear _ => st.ClearKeeps ref
  | .createIndex ord info => st.CreateIndexKeeps js ord info
  | .commit _ => True

/-- One step: the invariant stays, and the mirror stays exactly if the operation keeps it. -/
lemma step_spec (op : StoreOperation Key Buffer) (hstep : st.step js ref op = some st')
    (hinv : st.Invariant ref) (hmir : st.store.Mirrors js) :
    st'.Invariant ref ∧ (st'.store.Mirrors js ↔ st.Keeps js ref op) := by
  cases op with
  | putOrAdd ord keyData value mode =>
    obtain ⟨newValue, middle, hprep, hinvMiddle, hmirrorsMiddle, hreg, hinfo, hnone,
      hall, hsch, hadd⟩ := putOrAdd_added hinv hmir hstep
    refine ⟨hinvMiddle.of_sameSchema hsch (hinvMiddle.wellFormed.of_added hsch hadd) rfl rfl, ?_⟩
    rw [mirrors_iff_of_added hsch hnone hall hadd hmirrorsMiddle]
    simp only [Keeps, hprep, Except.ok.injEq, forall_eq', hreg, hinfo]
  | deleteRange ord range =>
    obtain rfl := some.inj hstep
    obtain ⟨hinv', hmir'⟩ := deleteRange_induction js
      (P := fun tx store => Invariant ref ⟨tx, store⟩ ∧ store.Mirrors js)
      (fun tx store key => deleteRecord_keeps ord key tx store) range ⟨hinv, hmir⟩
    exact ⟨hinv', iff_of_true hmir' trivial⟩
  | clear ord => exact clear_step hinv hmir hstep
  | createIndex ord info => exact createIndex_step hinv hmir hstep
  | commit isVersionChange =>
    obtain rfl := some.inj hstep
    refine ⟨⟨hinv.wellFormed, hinv.registered_iff, hinv.identifiers_nodup, hinv.lt_nextIndexRef,
      fun index hidx => ?_⟩, iff_of_true hmir trivial⟩
    cases hidx

/-- From a new store on, after any operations that succeed, the indexes mirror the records exactly
if all operations keep the mirror. -/
theorem mirrors_throughout_iff (isVersionChange : Bool) (info : IDBObjectStoreInfo)
    (operations : List (StoreOperation Key Buffer))
    (hrun : run (step js ref) (initial ref isVersionChange info) operations = some st') :
    Throughout (step js ref) (fun st => st.store.Mirrors js) (initial ref isVersionChange info)
        operations ↔
      EachStep (step js ref) (Keeps js ref) (initial ref isVersionChange info) operations := by
  have hregistered : ∀ index,
      ¬(initial ref isVersionChange info : StoreState Key Buffer).store.Registered index := by
    rintro index ⟨name, hmem⟩
    cases hmem
  refine throughout_iff_eachStep (fun st op st' hstep => step_spec op hstep) hrun ?_
    fun index hindex => absurd hindex (hregistered index)
  refine ⟨⟨List.nodup_nil, fun key => by simp [initial, keys, record?]⟩, fun index => ?_,
    List.nodup_nil, fun index hindex => absurd hindex (hregistered index), fun index hindex => ?_⟩
  · exact iff_of_false (hregistered index) (by rintro ⟨_, ⟨⟩⟩)
  · cases hindex

end StoreState

/-! ### An index made too late -/

def emptyStoreInfo : IDBObjectStoreInfo := ⟨1, "store", none, false, .empty, 0⟩

/-- An index of the values. -/
def valueIndex : IDBIndexInfo := ⟨1, 1, "index", .string "x", false, false⟩

lemma hasValidKeys_ofNat (info : IDBIndexInfo) (value : Option ℕ) :
    Bindings.HasValidKeys .ofNat info value := by
  simp [Bindings.HasValidKeys, Bindings.ofNat]

/-- An index that is made before the records are put. -/
theorem mirrors_early_index :
    Throughout (StoreState.step .ofNat 0) (fun st => st.store.Mirrors .ofNat)
      (StoreState.initial 0 true emptyStoreInfo)
      [.createIndex .insertion valueIndex, .putOrAdd .insertion 1 (some 0) .Overwrite,
        .putOrAdd .insertion 2 (some 5) .Overwrite] := by
  refine (StoreState.mirrors_throughout_iff true emptyStoreInfo _ rfl).2 ?_
  refine ⟨?_, fun st hst => ⟨?_, fun st hst => ⟨?_, fun st hst => trivial⟩⟩⟩
  · exact fun map hmap => nomatch hmap
  · exact fun _ _ _ _ => hasValidKeys_ofNat _ _
  · exact fun _ _ _ _ => hasValidKeys_ofNat _ _

/-- An index that is made after a record with a null value and one with the index key `5` misses
the second. -/
theorem late_index_misses_record :
    ∃ st, run (StoreState.step .ofNat 0) (StoreState.initial 0 true emptyStoreInfo)
        [.putOrAdd .insertion 1 (some 0) .Overwrite, .putOrAdd .insertion 2 (some 5) .Overwrite,
          .createIndex .insertion valueIndex] = some st ∧
      st.store.record? 2 = some (some 5) ∧ 2 ∉ (st.store.indexObjects 0).store.keysOf 5 ∧
      ¬st.store.Mirrors .ofNat := by
  refine ⟨_, rfl, by decide, by decide, fun hmirrors => ?_⟩
  have hmem := (hmirrors 0 ⟨"index", List.mem_singleton_self _⟩).mem_keysOf 5 2
  exact absurd (hmem.2 ⟨some 5, by decide, by decide⟩) (by decide)

end WebKit.IndexedDB
