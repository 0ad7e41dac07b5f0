import WebKit.IndexedDB.Restore

/-!
# Operations that can be undone

A transaction puts, deletes, clears and generates keys. What it notes on the way is enough to
restore an object store, as long as each operation is one that can be undone.
-/

namespace WebKit.IndexedDB

open WTF HashMap Option

variable {Key Buffer JSValue : Type*}

/-! ### What is noted for a store -/

namespace MemoryBackingStoreTransaction

variable [DecidableEq Key] {tx tx' tx'' : MemoryBackingStoreTransaction Key Buffer}
  {ref : StoreRef} {key : Key}

/-- The value that was noted for a key. -/
def noted (tx : MemoryBackingStoreTransaction Key Buffer) (ref : StoreRef) (key : Key) :
    Option (Option Buffer) := (tx.originalValues.get? ref).bind (·.get? key)

/-- The same is noted for the store `ref`. -/
structure SameNotes (ref : StoreRef) (tx tx' : MemoryBackingStoreTransaction Key Buffer) :
    Prop where
  originalValues : tx'.originalValues.get? ref = tx.originalValues.get? ref
  clearedKeyValueMaps : tx'.clearedKeyValueMaps.get? ref = tx.clearedKeyValueMaps.get? ref
  clearedOrderedKeys : tx'.clearedOrderedKeys.get? ref = tx.clearedOrderedKeys.get? ref
  clearedIndexValueStores : ∀ index,
    tx'.clearedIndexValueStores.get? (ref, index) = tx.clearedIndexValueStores.get? (ref, index)

/-- What operations on records leave as it was. -/
def SameScope (tx tx' : MemoryBackingStoreTransaction Key Buffer) : Prop :=
  tx' =
    { tx with
      originalValues := tx'.originalValues
      clearedKeyValueMaps := tx'.clearedKeyValueMaps
      clearedOrderedKeys := tx'.clearedOrderedKeys
      clearedIndexValueStores := tx'.clearedIndexValueStores }

/-- An operation on the store `ref` notes values and contents of this store only. -/
structure NotesOnly (ref : StoreRef) (tx tx' : MemoryBackingStoreTransaction Key Buffer) :
    Prop where
  scope : SameScope tx tx'
  same : ∀ r, r ≠ ref → SameNotes r tx tx'

omit [DecidableEq Key] in
lemma SameScope.trans (h : SameScope tx tx') (h' : SameScope tx' tx'') : SameScope tx tx'' := by
  unfold SameScope at *
  rw [h', h]

omit [DecidableEq Key] in
lemma NotesOnly.refl (ref : StoreRef) (tx : MemoryBackingStoreTransaction Key Buffer) :
    NotesOnly ref tx tx :=
  ⟨rfl, fun _ _ => ⟨rfl, rfl, rfl, fun _ => rfl⟩⟩

omit [DecidableEq Key] in
lemma NotesOnly.trans (h : NotesOnly ref tx tx') (h' : NotesOnly ref tx' tx'') :
    NotesOnly ref tx tx'' := by
  refine ⟨h.scope.trans h'.scope, fun r hr => ?_⟩
  obtain ⟨hvals, hmaps, hkeys, hsts⟩ := h.same r hr
  obtain ⟨hvals', hmaps', hkeys', hsts'⟩ := h'.same r hr
  exact ⟨hvals'.trans hvals, hmaps'.trans hmaps, hkeys'.trans hkeys,
    fun index => (hsts' index).trans (hsts index)⟩

lemma recordValueChanged_of_mem (h : tx.clearedKeyValueMaps.contains ref = true)
    (value : Option (Option Buffer)) : tx.recordValueChanged ref key value = tx := by
  unfold recordValueChanged
  split_ifs <;> rfl

lemma recordValueChanged_of_notMem (habt : tx.isAborting = false)
    (h : tx.clearedKeyValueMaps.contains ref = false) (value : Option (Option Buffer)) :
    tx.recordValueChanged ref key value =
      { tx with
        originalValues := tx.originalValues.modify ref .empty (·.add key (value.getD none)) } := by
  simp [recordValueChanged, habt, h]

variable (ref key) in
lemma notesOnly_recordValueChanged (tx : MemoryBackingStoreTransaction Key Buffer)
    (value : Option (Option Buffer)) : NotesOnly ref tx (tx.recordValueChanged ref key value) := by
  unfold recordValueChanged
  split_ifs
  · exact .refl ref tx
  · exact .refl ref tx
  · refine ⟨rfl, fun r hr => ⟨?_, rfl, rfl, fun _ => rfl⟩⟩
    exact (get?_modify ..).trans (if_neg hr)

lemma noted_recordValueChanged (habt : tx.isAborting = false)
    (h : tx.clearedKeyValueMaps.contains ref = false) (value : Option (Option Buffer)) (k : Key) :
    (tx.recordValueChanged ref key value).noted ref k =
      if k = key then some ((tx.noted ref key).getD (value.getD none)) else tx.noted ref k := by
  rw [recordValueChanged_of_notMem habt h, noted, get?_modify, noted, noted]
  cases tx.originalValues.get? ref <;> simp

end MemoryBackingStoreTransaction

namespace MemoryObjectStore

open MemoryBackingStoreTransaction

/-! ### The contents that are taken back -/

section

variable {tx : MemoryBackingStoreTransaction Key Buffer} {ref : StoreRef}
  {store : MemoryObjectStore Key Buffer}

/-- The store with the contents that were taken when it was cleared. -/
def restoredContents (tx : MemoryBackingStoreTransaction Key Buffer) (ref : StoreRef)
    (store : MemoryObjectStore Key Buffer) : MemoryObjectStore Key Buffer :=
  { store with
    keyValueStore := ((tx.clearedKeyValueMaps.get? ref).getD none).or store.keyValueStore
    orderedKeys :=
      if ((tx.clearedKeyValueMaps.get? ref).getD none).isSome then
        (tx.clearedOrderedKeys.get? ref).getD none
      else store.orderedKeys
    indexObjects := fun index =>
      { store.indexObjects index with
        records := (tx.clearedIndexValueStores.get? (ref, index)).getD
          (store.indexObjects index).records } }

lemma restoredContents_of_uncleared (h : tx.clearedKeyValueMaps.contains ref = false)
    (hidx : ∀ index, tx.clearedIndexValueStores.contains (ref, index) = false) :
    restoredContents tx ref store = store := by
  have hidx' : ∀ index, tx.clearedIndexValueStores.get? (ref, index) = none :=
    fun index => not_contains_iff.1 (hidx index)
  simp [restoredContents, not_contains_iff.1 h, hidx']

variable [DecidableEq Key]

/-- What is seen of a store when it is restored. -/
lemma Restorable.congr {start store' : MemoryObjectStore Key Buffer}
    {noted : Key → Option (Option Buffer)} (h : Restorable start store noted)
    (hsch : SameSchema store store')
    (hinfo : ∀ index, (store'.indexObjects index).info = (store.indexObjects index).info)
    (hrec : ∀ key, store'.record? key = store.record? key) (hkeys : store'.keys = store.keys)
    (hstore : ∀ index, store.Registered index →
      (store'.indexObjects index).store = (store.indexObjects index).store) :
    Restorable start store' noted where
  indexed :=
    { wellFormed := ⟨refsNodup_of_sameSchema hsch h.indexed.wellFormed.refs_nodup, fun key => by
        rw [hkeys, hrec, h.indexed.wellFormed.mem_keys]⟩
      entry_ne := fun index hidx => by
        rw [hsch.registered_iff] at hidx
        rw [hstore index hidx]
        exact h.indexed.entry_ne index hidx
      isSome_of_mem := fun index hidx k primaryKey => by
        rw [hsch.registered_iff] at hidx
        rw [hstore index hidx, hrec]
        exact h.indexed.isSome_of_mem index hidx k primaryKey }
  schema := h.schema.trans hsch
  info index := (hinfo index).trans (h.info index)
  record?_of_noted := h.record?_of_noted
  record?_eq k hk := (hrec k).trans (h.record?_eq k hk)
  mem_keysOf index hidx := by
    rw [hstore index (h.schema.registered_iff.2 hidx)]
    exact h.mem_keysOf index hidx

/-- What holds in a transaction that can be undone for the store. -/
structure Undoable (start : MemoryObjectStore Key Buffer)
    (tx : MemoryBackingStoreTransaction Key Buffer) (ref : StoreRef)
    (store : MemoryObjectStore Key Buffer) : Prop where
  isAborting : tx.isAborting = false
  restorable : Restorable start (store.restoredContents tx ref) (tx.noted ref)
  keyGenerator : tx.originalKeyGenerators.get? ref = some start.keyGeneratorValue
  of_index_cleared : ∀ index, tx.clearedIndexValueStores.contains (ref, index) →
    tx.clearedKeyValueMaps.contains ref
  index_cleared : tx.clearedKeyValueMaps.contains ref → ∀ index, store.Registered index →
    tx.clearedIndexValueStores.contains (ref, index)
  record?_of_null : tx.clearedKeyValueMaps.get? ref = some none → ∀ key, store.record? key = none

namespace Undoable

variable {start store' : MemoryObjectStore Key Buffer} (h : Undoable start tx ref store)

include h

lemma refsNodup : store.RefsNodup := h.restorable.indexed.wellFormed.refs_nodup

/-- The indexes of a store are cleared with the store. -/
lemma index_not_cleared (hclr : tx.clearedKeyValueMaps.contains ref = false) (index : IndexRef) :
    tx.clearedIndexValueStores.contains (ref, index) = false := by
  by_contra hidx
  rw [h.of_index_cleared index (Bool.eq_true_of_not_eq_false hidx)] at hclr
  cases hclr

/-- In a store that was not cleared the records themselves can be restored. -/
lemma restorable_of_uncleared (hclr : tx.clearedKeyValueMaps.contains ref = false) :
    Restorable start store (tx.noted ref) := by
  have hres := h.restorable
  rwa [restoredContents_of_uncleared hclr (h.index_not_cleared hclr)] at hres

/-- The contents of a store that was cleared are not looked at again. -/
lemma of_cleared (hclr : tx.clearedKeyValueMaps.contains ref = true)
    (hsch : SameSchema store store')
    (hinfo : ∀ index, (store'.indexObjects index).info = (store.indexObjects index).info)
    (hnull : tx.clearedKeyValueMaps.get? ref = some none →
      (∀ key, store'.record? key = store.record? key) ∧ store'.keys = store.keys) :
    Undoable start tx ref store' := by
  obtain ⟨cleared, hget⟩ := isSome_iff_exists.1 hclr
  refine ⟨h.isAborting, h.restorable.congr ?_ hinfo (fun key => ?_) ?_ fun index hidx => ?_,
    h.keyGenerator, h.of_index_cleared, fun hclr index hidx => ?_, fun hnone key => ?_⟩
  · exact ⟨hsch.info, hsch.nextIndexRef, hsch.indexesByIdentifier, hsch.indexesByName⟩
  · cases cleared with
    | none =>
      have hrec := (hnull hget).1 key
      simpa [record?, restoredContents, hget] using hrec
    | some map => simp [record?, restoredContents, hget]
  · cases cleared with
    | none =>
      have hkeys := (hnull hget).2
      simpa [keys, restoredContents, hget] using hkeys
    | some map => simp [keys, restoredContents, hget]
  · obtain ⟨records, hrecs⟩ := isSome_iff_exists.1 (h.index_cleared hclr index hidx)
    simp [restoredContents, hrecs, MemoryIndex.store]
  · exact h.index_cleared hclr index (hsch.registered_iff.1 hidx)
  · rw [(hnull hnone).1]
    exact h.record?_of_null hnone key

/-- A change of the contents of a store that was not cleared. -/
lemma of_not_cleared (values : HashMap StoreRef (HashMap Key (Option Buffer)))
    (hclr : tx.clearedKeyValueMaps.contains ref = false)
    (hres : Restorable start store' (noted { tx with originalValues := values } ref)) :
    Undoable start { tx with originalValues := values } ref store' := by
  have hcont : store'.restoredContents { tx with originalValues := values } ref = store' :=
    restoredContents_of_uncleared hclr (h.index_not_cleared hclr)
  refine { h with restorable := ?_, index_cleared := ?_, record?_of_null := ?_ }
  · rwa [hcont]
  · exact fun hcon => absurd hcon (by simp [hclr])
  · exact fun hnull => absurd hnull (by simp [not_contains_iff.1 hclr])

lemma setKeyGeneratorValue (value : ℕ) :
    Undoable start tx ref (store.setKeyGeneratorValue value) := by
  refine { h with
    restorable := h.restorable.congr ?_ (fun _ => rfl) (fun _ => rfl) rfl fun _ _ => rfl }
  exact ⟨rfl, rfl, rfl, rfl⟩

variable {tx' : MemoryBackingStoreTransaction Key Buffer}

/-- Only the notes for this store matter. -/
lemma of_sameNotes (hscope : SameScope tx tx')
    (hnotes : SameNotes ref tx tx') : Undoable start tx' ref store := by
  obtain ⟨hvals, hmaps, hkeys, hsts⟩ := hnotes
  have hcon : tx'.clearedKeyValueMaps.contains ref = tx.clearedKeyValueMaps.contains ref := by
    rw [contains, hmaps, contains]
  have hcontainsIndex : ∀ index, tx'.clearedIndexValueStores.contains (ref, index) =
      tx.clearedIndexValueStores.contains (ref, index) := by
    intro index
    rw [contains, hsts, contains]
  have hcont : store.restoredContents tx' ref = store.restoredContents tx ref := by
    simp only [restoredContents, hmaps, hsts, hkeys]
  have hntd : tx'.noted ref = tx.noted ref := by
    funext key
    rw [noted, hvals, noted]
  refine ⟨?_, ?_, ?_, ?_, ?_, ?_⟩
  · rw [hscope]
    exact h.isAborting
  · rw [hcont, hntd]
    exact h.restorable
  · rw [hscope]
    exact h.keyGenerator
  · simpa only [hcon, hcontainsIndex] using h.of_index_cleared
  · simpa only [hcon, hcontainsIndex] using h.index_cleared
  · rw [hmaps]
    exact h.record?_of_null

end Undoable

end

/-! ### Deleting, adding and clearing -/

variable {ord : IterationOrder (String × IndexRef)} {value : Option Buffer}

section

variable [DecidableEq Key] {js : Bindings Key Buffer JSValue}
  {tx : MemoryBackingStoreTransaction Key Buffer} {ref : StoreRef}
  {start store : MemoryObjectStore Key Buffer} {key : Key}

lemma deleteRecord_fst :
    (store.deleteRecord ord tx ref key).1 = tx.recordValueChanged ref key (store.record? key) := by
  unfold deleteRecord
  split
  next hmap => simp [record?, hmap]
  next map hmap =>
    have hrec : store.record? key = map.get? key := by simp [record?, hmap]
    rw [hrec]
    split
    next hnone => rw [hnone]
    next value hval => rw [hval]

/-- The first deletion of a key must find a record. -/
lemma Undoable.deleteRecord (ord : IterationOrder (String × IndexRef))
    (h : Undoable start tx ref store) (hkey : tx.clearedKeyValueMaps.contains ref = false →
      (store.record? key).isSome ∨ (tx.noted ref key).isSome) :
    Undoable start (store.deleteRecord ord tx ref key).1 ref (store.deleteRecord ord tx ref key).2 ∧
      (tx.clearedKeyValueMaps.contains ref = false →
        ((store.deleteRecord ord tx ref key).1.noted ref key).isSome) := by
  cases hclr : tx.clearedKeyValueMaps.contains ref with
  | true =>
    rw [deleteRecord_fst, recordValueChanged_of_mem hclr]
    refine ⟨h.of_cleared hclr (sameSchema_deleteRecord key ord store tx ref).1
      (info_deleteRecord ord tx ref h.refsNodup) fun hnull => ?_, fun hfalse => nomatch hfalse⟩
    rw [deleteRecord_of_none (h.record?_of_null hnull key)]
    exact ⟨fun _ => rfl, rfl⟩
  | false =>
    have hres := h.restorable_of_uncleared hclr
    have hers := erased_deleteRecord ord tx ref key hres.indexed
    have hntd : ∀ k, (tx.recordValueChanged ref key (store.record? key)).noted ref k = _ :=
      noted_recordValueChanged h.isAborting hclr (store.record? key)
    rw [deleteRecord_fst]
    rw [recordValueChanged_of_notMem h.isAborting hclr] at hntd ⊢
    refine ⟨h.of_not_cleared _ hclr (hres.of_changesOnly hers.changesOnly
      hers.indexed (fun k hk => (hntd k).trans (if_neg hk)) ⟨_, (hntd key).trans (if_pos rfl),
        ?_⟩), fun _ => ?_⟩
    · cases hval : tx.noted ref key with
      | some value => exact hres.record?_of_noted key value hval
      | none =>
        -- the record is still the one at the beginning
        obtain ⟨old, hold⟩ := isSome_iff_exists.1 ((hkey hclr).resolve_right (by simp [hval]))
        rw [← hres.record?_eq key hval, hold]
        rfl
    · rw [hntd key, if_pos rfl]
      rfl

/-- A record is added for a key that was noted. If an index does not take it, the index keys that
are taken out again must not be shared. -/
lemma Undoable.addRecord (h : Undoable start tx ref store)
    (hnone : store.record? key = none) (hnotNull : tx.clearedKeyValueMaps.get? ref ≠ some none)
    (hntd : tx.clearedKeyValueMaps.contains ref = false → (tx.noted ref key).isSome)
    (hcln : tx.clearedKeyValueMaps.contains ref = false →
      ¬store.AllAccept js value →
        ∀ index ∈ store.acceptedRefs js value ord,
          ∀ k ∈ js.recordKeys (store.indexObjects index).info value,
            (store.indexObjects index).store.keysOf k = ∅) :
    Undoable start tx ref (store.addRecord js ord key value).2 := by
  have hsch := (sameSchema_addRecord js key value ord store).1
  cases hclr : tx.clearedKeyValueMaps.contains ref with
  | true =>
    refine h.of_cleared hclr hsch (fun index => ?_) fun hnull => absurd hnull hnotNull
    by_cases hacc : store.AllAccept js value
    · exact (addRecord_of_allAccept h.refsNodup hacc).2.entered.info index
    · have hnotAdded : NotAdded js ord key value store (store.addRecord js ord key value).2 :=
        (addRecord_of_reject h.refsNodup hacc).2
      have hrev := hnotAdded.reverted
      by_cases hidx : index ∈ store.acceptedRefs js value ord
      · exact (hrev.accepted index hidx).1
      · exact (hrev.other index hidx).1
  | false =>
    have hres := h.restorable_of_uncleared hclr
    obtain ⟨noted, hval⟩ := isSome_iff_exists.1 (hntd hclr)
    have hkey : ∃ v, tx.noted ref key = some v ∧ start.record? key = some v :=
      ⟨noted, hval, hres.record?_of_noted key noted hval⟩
    refine h.of_not_cleared tx.originalValues hclr ?_
    by_cases hacc : store.AllAccept js value
    · have hent := entry_of_added hres.indexed hnone hsch hacc
        (addRecord_of_allAccept h.refsNodup hacc).2
      exact hres.of_changesOnly hent.changesOnly hent.indexed (fun _ _ => rfl) hkey
    · obtain ⟨hch, hidxd⟩ := indexed_of_notAdded hres.indexed hnone hsch
        (addRecord_of_reject h.refsNodup hacc).2 (hcln hclr hacc)
      exact hres.of_changesOnly hch hidxd (fun _ _ => rfl) hkey

/-- Clearing takes the contents of the store and of its indexes. -/
lemma Undoable.clear (ord : IterationOrder (ℕ × IndexRef)) (hst : start.Committed js)
    (h : Undoable start tx ref store) :
    Undoable start (store.clear ord tx ref).1 ref (store.clear ord tx ref).2 ∧
      NotesOnly ref tx (store.clear ord tx ref).1 := by
  have hsch : SameSchema start store :=
    ⟨h.restorable.schema.info, h.restorable.schema.nextIndexRef,
      h.restorable.schema.indexesByIdentifier, h.restorable.schema.indexesByName⟩
  have hnd : (store.refsByIdentifier ord).Nodup := by
    refine ((ord.perm _).map _).nodup_iff.2 ?_
    rw [hsch.indexesByIdentifier]
    exact hst.identifiers_nodup
  have hreg : ∀ index, index ∈ store.refsByIdentifier ord ↔ store.Registered index := by
    intro index
    rw [mem_refsByIdentifier, hsch.indexesByIdentifier, ← hst.registered_iff, hsch.registered_iff]
  cases hcon : tx.clearedKeyValueMaps.contains ref with
  | true =>
    obtain ⟨result, heq, hclr⟩ := clear_of_contains hnd hcon
    rw [heq]
    have hobj : result.2 = store.indexObjects := by
      funext index
      rw [hclr.objects_eq, if_neg]
      rintro ⟨hmem, hfalse⟩
      rw [h.index_cleared hcon index ((hreg index).1 hmem)] at hfalse
      cases hfalse
    have hget : ∀ address, result.1.clearedIndexValueStores.get? address =
        tx.clearedIndexValueStores.get? address := by
      rintro ⟨r, index⟩
      rw [hclr.get?_eq]
      split_ifs with hadr
      · obtain ⟨rfl, hmem⟩ := hadr
        obtain ⟨records, hrecs⟩ := isSome_iff_exists.1
          (h.index_cleared hcon index ((hreg index).1 hmem))
        rw [hrecs]
        rfl
      · exact or_none
    have hnotes : ∀ r, SameNotes r tx result.1 := by
      intro r
      refine ⟨?_, ?_, ?_, fun index => hget (r, index)⟩ <;> rw [hclr.tx_eq]
    have hscope : SameScope tx result.1 := by rw [SameScope, hclr.tx_eq]
    rw [hobj]
    exact ⟨h.of_sameNotes hscope (hnotes ref), hscope, fun r _ => hnotes r⟩
  | false =>
    obtain ⟨result, heq, hclr⟩ := clear_of_not_contains hnd hcon
    rw [heq]
    have hbef : ∀ index, tx.clearedIndexValueStores.get? (ref, index) = none :=
      fun index => not_contains_iff.1 (h.index_not_cleared hcon index)
    have hres := h.restorable_of_uncleared hcon
    have hmaps : result.1.clearedKeyValueMaps =
        tx.clearedKeyValueMaps.set ref store.keyValueStore := by rw [hclr.tx_eq]
    have hkeys : result.1.clearedOrderedKeys =
        tx.clearedOrderedKeys.set ref store.orderedKeys := by rw [hclr.tx_eq]
    have hget : result.1.clearedKeyValueMaps.get? ref = some store.keyValueStore := by
      simp [hmaps]
    have hinfo : ∀ index, (result.2 index).info = (store.indexObjects index).info := by
      intro index
      rw [hclr.objects_eq]
      split_ifs <;> rfl
    have hntd : result.1.noted ref = tx.noted ref := by
      funext key
      rw [noted, hclr.tx_eq, noted]
    refine ⟨⟨?_, ?_, ?_, fun index hidx => ?_, fun _ index hidx => ?_, fun _ key => rfl⟩, ?_,
      fun r hr => ⟨?_, ?_, ?_, fun index => ?_⟩⟩
    · rw [hclr.tx_eq]
      exact h.isAborting
    · rw [hntd]
      refine hres.congr ⟨rfl, rfl, rfl, rfl⟩ hinfo (fun key => ?_) ?_ fun index hidx => ?_
      · simp [record?, restoredContents, hget]
      · cases hmap : store.keyValueStore with
        | some map => simp [MemoryObjectStore.keys, restoredContents, hget, hmap, hkeys]
        | none =>
          -- a store without a map has no keys
          ext key
          rw [hres.indexed.wellFormed.mem_keys]
          simp [MemoryObjectStore.keys, record?, restoredContents, hget, hmap]
      · have hrecs : result.1.clearedIndexValueStores.get? (ref, index) =
            some (store.indexObjects index).records := by
          rw [hclr.get?_eq, if_pos ⟨rfl, (hreg index).2 hidx⟩]
          simp [hbef]
        simp [restoredContents, hrecs, MemoryIndex.store]
    · rw [hclr.tx_eq]
      exact h.keyGenerator
    · rw [contains, hget]
      rfl
    · rw [hclr.contains_iff]
      exact Or.inr ((hreg index).2 hidx)
    · rw [SameScope, hclr.tx_eq]
    · rw [hclr.tx_eq]
    · rw [hmaps, get?_set, if_neg hr]
    · rw [hkeys, get?_set, if_neg hr]
    · rw [hclr.get?_eq, if_neg fun hadr => hr hadr.1]
      exact or_none

end

/-! ### Operations -/

section

variable [LinearOrder Key]

/-- The operations on the records of a store, with the orders in which the hash tables are
iterated. -/
inductive RecordOperation (Key Buffer : Type*)
  | putOrAdd (ord : IterationOrder (String × IndexRef)) (keyData : Key) (value : Option Buffer)
    (mode : ObjectStoreOverwriteMode)
  | deleteRange (ord : IterationOrder (String × IndexRef)) (range : IDBKeyRangeData Key)
  | clear (ord : IterationOrder (ℕ × IndexRef))
  | generateKeyNumber
  | revertGeneratedKeyNumber (keyNumber : ℕ)
  | maybeUpdateKeyGeneratorNumber (newKeyNumber : Float)

omit [LinearOrder Key] in
def generateKeyNumber (store : MemoryObjectStore Key Buffer) : MemoryObjectStore Key Buffer :=
  if maxGeneratedKeyValue < store.keyGeneratorValue then store
  else store.setKeyGeneratorValue (store.keyGeneratorValue + 1)

/-- What an operation leaves, whether it fails or not. -/
def perform (js : Bindings Key Buffer JSValue) (ref : StoreRef)
    (tx : MemoryBackingStoreTransaction Key Buffer) (store : MemoryObjectStore Key Buffer) :
    RecordOperation Key Buffer →
      MemoryBackingStoreTransaction Key Buffer × MemoryObjectStore Key Buffer
  | .putOrAdd ord keyData value mode =>
    (store.performPutOrAdd js ord tx ref keyData value mode).2
  | .deleteRange ord range => store.deleteRange js ord tx ref range
  | .clear ord => store.clear ord tx ref
  | .generateKeyNumber => (tx, store.generateKeyNumber)
  | .revertGeneratedKeyNumber keyNumber => (tx, store.setKeyGeneratorValue keyNumber)
  | .maybeUpdateKeyGeneratorNumber newKeyNumber =>
    (tx, store.maybeUpdateKeyGeneratorNumber newKeyNumber)

/-- Requests have valid keys. -/
def ValidRequest (js : Bindings Key Buffer JSValue) (store : MemoryObjectStore Key Buffer) :
    RecordOperation Key Buffer → Prop
  | .putOrAdd _ keyData _ _ => js.isValidType (store.usedKey js keyData)
  | _ => True

instance (js : Bindings Key Buffer JSValue) (store : MemoryObjectStore Key Buffer)
    (op : RecordOperation Key Buffer) : Decidable (ValidRequest js store op) := by
  cases op <;> unfold ValidRequest <;> infer_instance

/-- The key has a record, or it had one when it was changed first. -/
def HadRecord (tx : MemoryBackingStoreTransaction Key Buffer) (ref : StoreRef)
    (store : MemoryObjectStore Key Buffer) (key : Key) : Prop :=
  (store.record? key).isSome ∨ (tx.noted ref key).isSome

/-- A put that an index does not take, once the old record is deleted, takes index keys out that no
other record has. -/
def RollsBack (js : Bindings Key Buffer JSValue) (ord : IterationOrder (String × IndexRef))
    (tx : MemoryBackingStoreTransaction Key Buffer) (ref : StoreRef)
    (store : MemoryObjectStore Key Buffer) (keyData : Key) (value : Option Buffer) : Prop :=
  let usedKey := store.usedKey js keyData
  let deleted := ((store.advanced js keyData).deleteRecord ord tx ref usedKey).2
  ¬deleted.AllAccept js value →
    ∀ index ∈ deleted.acceptedRefs js value ord,
      ∀ k ∈ js.recordKeys (deleted.indexObjects index).info value,
        (deleted.indexObjects index).store.keysOf k = ∅

/-- The condition under which an operation can be undone. -/
def Undoes (js : Bindings Key Buffer JSValue) (ref : StoreRef)
    (tx : MemoryBackingStoreTransaction Key Buffer) (store : MemoryObjectStore Key Buffer) :
    RecordOperation Key Buffer → Prop
  | .putOrAdd ord keyData value mode =>
    ∀ newValue, store.preparePutOrAdd js keyData value mode = .ok newValue →
      tx.clearedKeyValueMaps.get? ref ≠ some none ∧
        (tx.clearedKeyValueMaps.contains ref = false →
          HadRecord tx ref store (store.usedKey js keyData) ∧
            store.RollsBack js ord tx ref keyData newValue)
  | .deleteRange _ range =>
    tx.clearedKeyValueMaps.contains ref = false → range.isExactlyOneKey js →
      ∀ key, range.lowerKey = some key → HadRecord tx ref store key
  | _ => True

variable {js : Bindings Key Buffer JSValue} {tx : MemoryBackingStoreTransaction Key Buffer}
  {ref : StoreRef} {start store : MemoryObjectStore Key Buffer}

variable (ord tx ref store) in
lemma notesOnly_deleteRecord (key : Key) :
    NotesOnly ref tx (store.deleteRecord ord tx ref key).1 := by
  rw [deleteRecord_fst]
  exact notesOnly_recordValueChanged ref key tx _

lemma Undoable.deleteRange (ord : IterationOrder (String × IndexRef)) (range : IDBKeyRangeData Key)
    (h : Undoable start tx ref store) (hundo : Undoes js ref tx store (.deleteRange ord range)) :
    Undoable start (store.deleteRange js ord tx ref range).1 ref
        (store.deleteRange js ord tx ref range).2 ∧
      NotesOnly ref tx (store.deleteRange js ord tx ref range).1 := by
  refine deleteRange_cases js
    (P := fun tx' store' => Undoable start tx' ref store' ∧ NotesOnly ref tx tx') range ?_ ?_
    ⟨h, .refl ref tx⟩
  · intro key hone hkey
    exact ⟨(h.deleteRecord ord fun hclr => hundo hclr hone key hkey).1,
      notesOnly_deleteRecord ord tx ref store key⟩
  · rintro tx' store' key hmem ⟨h', hnotes⟩
    refine ⟨(h'.deleteRecord ord fun hclr => Or.inl ?_).1,
      hnotes.trans (notesOnly_deleteRecord ord tx' ref store' key)⟩
    -- the loop visits keys that have a record
    rcases hmem with hsome | hmem
    · exact hsome
    · exact ((h'.restorable_of_uncleared hclr).indexed.wellFormed.mem_keys key).1 hmem

lemma Undoable.putOrAdd {keyData : Key} {mode : ObjectStoreOverwriteMode}
    (h : Undoable start tx ref store) (hkey : js.isValidType (store.usedKey js keyData))
    (hundo : Undoes js ref tx store (.putOrAdd ord keyData value mode)) :
    Undoable start (store.performPutOrAdd js ord tx ref keyData value mode).2.1 ref
        (store.performPutOrAdd js ord tx ref keyData value mode).2.2 ∧
      NotesOnly ref tx (store.performPutOrAdd js ord tx ref keyData value mode).2.1 := by
  cases hprep : store.preparePutOrAdd js keyData value mode with
  | error error =>
    rw [performPutOrAdd_of_error hprep]
    exact ⟨h, .refl ref tx⟩
  | ok newValue =>
    obtain ⟨hnotNull, hcond⟩ := hundo newValue hprep
    obtain ⟨-, htx, generator, hres, -⟩ := performPutOrAdd_of_ok ord tx ref hkey hprep
    obtain ⟨advancedGenerator, hadv⟩ := advanced_eq
    unfold RollsBack at hcond
    rw [hadv] at htx hres hcond
    have h' := h.setKeyGeneratorValue advancedGenerator
    obtain ⟨hdel, hntd⟩ := h'.deleteRecord ord fun hclr => (hcond hclr).1
    have hnotes := notesOnly_deleteRecord ord tx ref
      (store.setKeyGeneratorValue advancedGenerator) (store.usedKey js keyData)
    have hmaps : ((store.setKeyGeneratorValue advancedGenerator).deleteRecord ord tx ref
        (store.usedKey js keyData)).1.clearedKeyValueMaps = tx.clearedKeyValueMaps := by
      simp [deleteRecord_fst]
    rw [htx, hres]
    refine ⟨(hdel.addRecord ?_ ?_ ?_ ?_).setKeyGeneratorValue generator, hnotes⟩
    · exact (record?_deleteRecord ord tx ref h'.refsNodup _).trans (if_pos rfl)
    · rwa [hmaps]
    · rwa [hmaps]
    · rw [hmaps]
      exact fun hclr => (hcond hclr).2

/-- One operation on a store that can be undone. -/
lemma Undoable.perform (op : RecordOperation Key Buffer) (hst : start.Committed js)
    (h : Undoable start tx ref store) (hvld : ValidRequest js store op)
    (hundo : Undoes js ref tx store op) :
    Undoable start (store.perform js ref tx op).1 ref (store.perform js ref tx op).2 ∧
      NotesOnly ref tx (store.perform js ref tx op).1 := by
  cases op with
  | putOrAdd ord keyData value mode => exact h.putOrAdd hvld hundo
  | deleteRange ord range => exact h.deleteRange ord range hundo
  | clear ord => exact h.clear ord hst
  | generateKeyNumber =>
    refine ⟨?_, .refl ref tx⟩
    change Undoable start tx ref store.generateKeyNumber
    unfold MemoryObjectStore.generateKeyNumber
    split_ifs
    · exact h
    · exact h.setKeyGeneratorValue _
  | revertGeneratedKeyNumber keyNumber => exact ⟨h.setKeyGeneratorValue keyNumber, .refl ref tx⟩
  | maybeUpdateKeyGeneratorNumber newKeyNumber =>
    refine ⟨?_, .refl ref tx⟩
    change Undoable start tx ref (store.maybeUpdateKeyGeneratorNumber newKeyNumber)
    unfold MemoryObjectStore.maybeUpdateKeyGeneratorNumber
    split_ifs
    · exact h
    · exact h.setKeyGeneratorValue _

end

end MemoryObjectStore

end WebKit.IndexedDB
