import WebKit.IndexedDB.MemoryIndex

/-!
# In-memory object stores and the transactions that write to them

An object store keeps its records in a hash map and their keys in an ordered set, next to its
indexes. The write transaction notes what it needs to undo the changes when it is aborted.
-/

namespace WebKit.IndexedDB

open WTF

/-- The address of an object store. -/
abbrev StoreRef := ℕ

/-- The address of an index among those that were made for an object store. -/
abbrev IndexRef := ℕ

structure IDBObjectStoreInfo where
  identifier : ℕ
  name : String
  keyPath : Option IDBKeyPath
  autoIncrement : Bool
  indexMap : HashMap ℕ IDBIndexInfo
  maxIndexID : ℕ

namespace IDBObjectStoreInfo

def addExistingIndex (info : IDBObjectStoreInfo) (index : IDBIndexInfo) : IDBObjectStoreInfo :=
  { info with
    maxIndexID := max info.maxIndexID index.identifier
    indexMap := info.indexMap.set index.identifier index }

def hasIndex (info : IDBObjectStoreInfo) (name : String) : Bool :=
  info.indexMap.entries.any (·.2.name = name)

end IDBObjectStoreInfo

structure IDBDatabaseInfo where
  name : String
  version : ℕ
  maxObjectStoreID : ℕ
  objectStoreMap : HashMap ℕ IDBObjectStoreInfo

namespace IDBDatabaseInfo

end IDBDatabaseInfo

/-- The records of a store; a buffer can be null. -/
abbrev KeyValueMap (Key Buffer : Type*) := HashMap Key (Option Buffer)

/-- `m_keyValueStore` and `m_orderedKeys` are null until the first record comes. The index objects
of a store are found at their address, whether they are registered or not. -/
structure MemoryObjectStore (Key Buffer : Type*) where
  info : IDBObjectStoreInfo
  keyGeneratorValue : ℕ
  keyValueStore : Option (KeyValueMap Key Buffer)
  orderedKeys : Option (Finset Key)
  indexObjects : IndexRef → MemoryIndex Key
  nextIndexRef : ℕ
  indexesByIdentifier : HashMap ℕ IndexRef
  indexesByName : HashMap String IndexRef

structure MemoryBackingStoreTransaction (Key Buffer : Type*) where
  isVersionChange : Bool
  originalDatabaseInfo : Option IDBDatabaseInfo
  isAborting : Bool
  objectStores : HashSet StoreRef
  versionChangeAddedObjectStores : HashSet StoreRef
  indexes : HashSet (StoreRef × IndexRef)
  versionChangeAddedIndexes : HashSet (StoreRef × IndexRef)
  originalKeyGenerators : HashMap StoreRef ℕ
  deletedObjectStores : HashMap String StoreRef
  deletedIndexes : HashMap String (StoreRef × IndexRef)
  originalValues : HashMap StoreRef (KeyValueMap Key Buffer)
  clearedKeyValueMaps : HashMap StoreRef (Option (KeyValueMap Key Buffer))
  clearedOrderedKeys : HashMap StoreRef (Option (Finset Key))
  originalObjectStoreNames : HashMap StoreRef String
  originalIndexNames : HashMap (StoreRef × IndexRef) String
  clearedIndexValueStores : HashMap (StoreRef × IndexRef) (Option (IndexValueStore Key))

variable {Key Buffer JSValue : Type*}

/-! ### What a transaction notes -/

namespace MemoryBackingStoreTransaction

def create (isVersionChange : Bool) (originalDatabaseInfo : Option IDBDatabaseInfo) :
    MemoryBackingStoreTransaction Key Buffer where
  isVersionChange := isVersionChange
  originalDatabaseInfo := originalDatabaseInfo
  isAborting := false
  objectStores := .empty
  versionChangeAddedObjectStores := .empty
  indexes := .empty
  versionChangeAddedIndexes := .empty
  originalKeyGenerators := .empty
  deletedObjectStores := .empty
  deletedIndexes := .empty
  originalValues := .empty
  clearedKeyValueMaps := .empty
  clearedOrderedKeys := .empty
  originalObjectStoreNames := .empty
  originalIndexNames := .empty
  clearedIndexValueStores := .empty

variable (tx : MemoryBackingStoreTransaction Key Buffer)

def addExistingObjectStore (ref : StoreRef) (currentKeyGeneratorValue : ℕ) :
    MemoryBackingStoreTransaction Key Buffer :=
  { tx with
    objectStores := tx.objectStores.add ref
    originalKeyGenerators := tx.originalKeyGenerators.add ref currentKeyGeneratorValue }

/-- The first change of a record notes its value, or a null buffer for a key without a record. -/
def recordValueChanged [DecidableEq Key] (ref : StoreRef) (key : Key)
    (value : Option (Option Buffer)) : MemoryBackingStoreTransaction Key Buffer :=
  if tx.isAborting then tx
  else if tx.clearedKeyValueMaps.contains ref then tx
  else
    { tx with
      originalValues := tx.originalValues.modify ref .empty (·.add key (value.getD none)) }

/-- The first clearing of a store takes its containers. Later ones leave them where they are. -/
def objectStoreCleared (ref : StoreRef) (keyValueMap : Option (KeyValueMap Key Buffer))
    (orderedKeys : Option (Finset Key)) :
    MemoryBackingStoreTransaction Key Buffer ×
      Option (KeyValueMap Key Buffer) × Option (Finset Key) :=
  if tx.clearedKeyValueMaps.contains ref then (tx, keyValueMap, orderedKeys)
  else
    ({ tx with
        clearedKeyValueMaps := tx.clearedKeyValueMaps.set ref keyValueMap
        clearedOrderedKeys := tx.clearedOrderedKeys.set ref orderedKeys },
      none, none)

def indexCleared (index : StoreRef × IndexRef) (valueStore : Option (IndexValueStore Key)) :
    MemoryBackingStoreTransaction Key Buffer × Option (IndexValueStore Key) :=
  if tx.clearedIndexValueStores.contains index then (tx, valueStore)
  else
    ({ tx with clearedIndexValueStores := tx.clearedIndexValueStores.set index valueStore }, none)

def addExistingIndex (index : StoreRef × IndexRef) : MemoryBackingStoreTransaction Key Buffer :=
  { tx with indexes := tx.indexes.add index }

def addNewIndex (index : StoreRef × IndexRef) : MemoryBackingStoreTransaction Key Buffer :=
  addExistingIndex
    { tx with versionChangeAddedIndexes := tx.versionChangeAddedIndexes.add index } index

end MemoryBackingStoreTransaction

/-! ### Key ranges -/

/-- A null key is `none`. -/
structure IDBKeyRangeData (Key : Type*) where
  isNull : Bool
  lowerKey : Option Key
  upperKey : Option Key
  lowerOpen : Bool
  upperOpen : Bool

namespace IDBKeyRangeData

variable (js : Bindings Key Buffer JSValue)

/-- The range of one key. -/
def only (key : Key) : IDBKeyRangeData Key := ⟨false, some key, some key, false, false⟩

def isExactlyOneKey [DecidableEq Key] (range : IDBKeyRangeData Key) : Bool :=
  if range.isNull || range.lowerOpen || range.upperOpen || !range.upperKey.any js.isValidType
      || !range.lowerKey.any js.isValidType then false
  else range.lowerKey = range.upperKey

end IDBKeyRangeData

/-! ### Records -/

namespace MemoryObjectStore

section

variable [DecidableEq Key] (js : Bindings Key Buffer JSValue)
  (ord : IterationOrder (String × IndexRef)) (tx : MemoryBackingStoreTransaction Key Buffer)
  (ref : StoreRef)
  (store : MemoryObjectStore Key Buffer)

/-- The value of the record of a key. -/
def record? (key : Key) : Option (Option Buffer) :=
  store.keyValueStore.bind (·.get? key)

def containsRecord (key : Key) : Bool :=
  match store.keyValueStore with
  | none => false
  | some map => map.contains key

/-- The indexes in the order in which `m_indexesByName` is iterated. -/
def refsByName : List IndexRef := (store.indexesByName.iterate ord).map Prod.snd

def updateIndexesForDeleteRecord (value : Key) : MemoryObjectStore Key Buffer :=
  { store with
    indexObjects := (store.refsByName ord).foldl (fun objects ref =>
        Function.update objects ref ((objects ref).removeEntriesWithValueKey value))
      store.indexObjects }

def deleteRecord (key : Key) :
    MemoryBackingStoreTransaction Key Buffer × MemoryObjectStore Key Buffer :=
  match store.keyValueStore with
  | none => (tx.recordValueChanged ref key none, store)
  | some map =>
    match map.get? key with
    | none => (tx.recordValueChanged ref key none, store)
    | some value =>
      (tx.recordValueChanged ref key (some value),
        updateIndexesForDeleteRecord ord
          { store with
            keyValueStore := some (map.remove key)
            orderedKeys := store.orderedKeys.map (·.erase key) } key)

/-- The loop over the indexes, with the indexes it changed and their keys. -/
def putIndexKeys (js : Bindings Key Buffer JSValue) (key : Key) (value : JSValue) :
    List IndexRef → (IndexRef → MemoryIndex Key) →
      Option IDBError × (IndexRef → MemoryIndex Key) × List (IndexRef × List Key)
  | [], objects => (none, objects, [])
  | ref :: refs, objects =>
    let indexKey := js.generateIndexKeyForValue (objects ref).info value
    if indexKey.isEmpty then putIndexKeys js key value refs objects
    else
      let put := (objects ref).putIndexKey js key indexKey
      match put.1 with
      | some error => (some error, Function.update objects ref put.2, [])
      | none =>
        let result := putIndexKeys js key value refs (Function.update objects ref put.2)
        (result.1, result.2.1, (ref, indexKey) :: result.2.2)

def revertIndexKeys (key : Key) (changedIndexRecords : List (IndexRef × List Key))
    (objects : IndexRef → MemoryIndex Key) : IndexRef → MemoryIndex Key :=
  changedIndexRecords.foldl (fun objects record =>
      Function.update objects record.1 ((objects record.1).removeRecord js key record.2))
    objects

def updateIndexesForPutRecord (key : Key) (value : Option Buffer) :
    Option IDBError × MemoryObjectStore Key Buffer :=
  let jsValue := js.deserializeIDBValueToJSValue value
  if js.isUndefinedOrNull jsValue then (none, store)
  else
    let put := putIndexKeys js key jsValue (store.refsByName ord) store.indexObjects
    match put.1 with
    | none => (none, { store with indexObjects := put.2.1 })
    | some error =>
      (some error, { store with indexObjects := revertIndexKeys js key put.2.2 put.2.1 })

def addRecord (keyData : Key) (value : Option Buffer) :
    Option IDBError × MemoryObjectStore Key Buffer :=
  let map := (store.keyValueStore.getD .empty).set keyData value
  let orderedKeys := insert keyData (store.orderedKeys.getD ∅)
  let result := updateIndexesForPutRecord js ord
    { store with keyValueStore := some map, orderedKeys := some orderedKeys } keyData value
  match result.1 with
  | none => (none, result.2)
  | some error =>
    (some error,
      { result.2 with
        keyValueStore := some (map.remove keyData)
        orderedKeys := some (orderedKeys.erase keyData) })

/-- `objectStoreCleared` of one index after the other. -/
def clearIndexes (ref : StoreRef) :
    List IndexRef → MemoryBackingStoreTransaction Key Buffer → (IndexRef → MemoryIndex Key) →
      MemoryBackingStoreTransaction Key Buffer × (IndexRef → MemoryIndex Key)
  | [], tx, objects => (tx, objects)
  | index :: indexes, tx, objects =>
    let result := tx.indexCleared (ref, index) (objects index).records
    clearIndexes ref indexes result.1
      (Function.update objects index { objects index with records := result.2 })

/-- The indexes in the order in which `m_indexesByIdentifier` is iterated. -/
def refsByIdentifier (ord : IterationOrder (ℕ × IndexRef))
    (store : MemoryObjectStore Key Buffer) : List IndexRef :=
  (store.indexesByIdentifier.iterate ord).map Prod.snd

def clear (ord : IterationOrder (ℕ × IndexRef)) (tx : MemoryBackingStoreTransaction Key Buffer)
    (ref : StoreRef) (store : MemoryObjectStore Key Buffer) :
    MemoryBackingStoreTransaction Key Buffer × MemoryObjectStore Key Buffer :=
  let cleared := tx.objectStoreCleared ref store.keyValueStore store.orderedKeys
  let indexes := clearIndexes ref (store.refsByIdentifier ord) cleared.1 store.indexObjects
  (indexes.1,
    { store with
      keyValueStore := cleared.2.1
      orderedKeys := cleared.2.2
      indexObjects := indexes.2 })

/-! ### Making an index -/

/-- The loop over the records. A record whose value is undefined or null ends it. -/
def populateIndex (js : Bindings Key Buffer JSValue) :
    List (Key × Option Buffer) → MemoryIndex Key → Option IDBError × MemoryIndex Key
  | [], index => (none, index)
  | record :: records, index =>
    let jsValue := js.deserializeIDBValueToJSValue record.2
    if js.isUndefinedOrNull jsValue then (none, index)
    else
      let indexKey := js.generateIndexKeyForValue index.info jsValue
      if indexKey.isEmpty then populateIndex js records index
      else
        let put := index.putIndexKey js record.1 indexKey
        match put.1 with
        | some error => (some error, put.2)
        | none => populateIndex js records put.2

def populateIndexWithExistingRecords (js : Bindings Key Buffer JSValue)
    (ord : IterationOrder (Key × Option Buffer)) (store : MemoryObjectStore Key Buffer)
    (index : MemoryIndex Key) : Option IDBError × MemoryIndex Key :=
  match store.keyValueStore with
  | none => (none, index)
  | some map => populateIndex js (map.iterate ord) index

def registerIndex (index : IndexRef) : MemoryObjectStore Key Buffer :=
  let info := (store.indexObjects index).info
  { store with
    indexesByName := store.indexesByName.set info.name index
    indexesByIdentifier := store.indexesByIdentifier.set info.identifier index }

/-- The store with an index that was made for it. -/
def installIndex (index : MemoryIndex Key) : MemoryObjectStore Key Buffer :=
  registerIndex
    { store with
      info := store.info.addExistingIndex index.info
      indexObjects := Function.update store.indexObjects store.nextIndexRef index
      nextIndexRef := store.nextIndexRef + 1 } store.nextIndexRef

def createIndex (js : Bindings Key Buffer JSValue) (ord : IterationOrder (Key × Option Buffer))
    (tx : MemoryBackingStoreTransaction Key Buffer) (ref : StoreRef)
    (store : MemoryObjectStore Key Buffer) (info : IDBIndexInfo) :
    Option IDBError × MemoryBackingStoreTransaction Key Buffer × MemoryObjectStore Key Buffer :=
  if tx.isVersionChange then
    let populated := store.populateIndexWithExistingRecords js ord ⟨info, none⟩
    match populated.1 with
    | some error => (some error, tx, store)
    | none =>
      (none, tx.addNewIndex (ref, store.nextIndexRef), store.installIndex populated.2)
  else (some { code := .ConstraintError }, tx, store)

end

/-! ### Ranges of records -/

section

variable [LinearOrder Key] (js : Bindings Key Buffer JSValue)
  (ord : IterationOrder (String × IndexRef)) (tx : MemoryBackingStoreTransaction Key Buffer)
  (ref : StoreRef)
  (store : MemoryObjectStore Key Buffer)

/-- The first key of a set. -/
def first (keys : Finset Key) : Option Key :=
  if h : keys.Nonempty then some (keys.min' h) else none

/-- A null key is below all others. -/
def lowerBound (keys : Finset Key) : Option Key → Option Key
  | none => first keys
  | some key => first (keys.filter (key ≤ ·))

/-- `++iterator`. -/
def next (keys : Finset Key) (key : Key) : Option Key := first (keys.filter (key < ·))

def lowestKeyWithRecordInRange (range : IDBKeyRangeData Key) : Option Key :=
  match store.keyValueStore with
  | none => none
  | some map =>
    if range.isExactlyOneKey js && range.lowerKey.any map.contains then range.lowerKey
    else
      let keys := store.orderedKeys.getD ∅
      let lowest := (lowerBound keys range.lowerKey).bind fun key =>
        if range.lowerOpen && some key = range.lowerKey then next keys key else some key
      lowest.filter fun key => range.upperKey.all fun upper =>
        key ≤ upper && !(range.upperOpen && key = upper)

/-- The loop of `deleteRange`, which goes upwards through the keys of the store. -/
def deleteKeysInRange (ord : IterationOrder (String × IndexRef)) (ref : StoreRef) :
    ℕ → IDBKeyRangeData Key → MemoryBackingStoreTransaction Key Buffer →
      MemoryObjectStore Key Buffer →
      MemoryBackingStoreTransaction Key Buffer × MemoryObjectStore Key Buffer
  | 0, _, tx, store => (tx, store)
  | fuel + 1, range, tx, store =>
    match store.lowestKeyWithRecordInRange js range with
    | none => (tx, store)
    | some key =>
      let result := store.deleteRecord ord tx ref key
      deleteKeysInRange ord ref fuel { range with lowerKey := some key, lowerOpen := true }
        result.1 result.2

def deleteRange (inputRange : IDBKeyRangeData Key) :
    MemoryBackingStoreTransaction Key Buffer × MemoryObjectStore Key Buffer :=
  match inputRange.isExactlyOneKey js, inputRange.lowerKey with
  | true, some key => store.deleteRecord ord tx ref key
  | _, _ => deleteKeysInRange js ord ref (store.orderedKeys.getD ∅).card inputRange tx store

end

end MemoryObjectStore

/-! ### Putting and adding -/

inductive ObjectStoreOverwriteMode
  | Overwrite
  | OverwriteForCursor
  | NoOverwrite
deriving DecidableEq, Repr

def maxGeneratedKeyValue : ℕ := 0x20000000000000

namespace MemoryObjectStore

variable [LinearOrder Key] (js : Bindings Key Buffer JSValue)
  (ord : IterationOrder (String × IndexRef)) (tx : MemoryBackingStoreTransaction Key Buffer)
  (ref : StoreRef)
  (store : MemoryObjectStore Key Buffer) (keyData : Key)

omit [LinearOrder Key] in
def setKeyGeneratorValue (value : ℕ) : MemoryObjectStore Key Buffer :=
  { store with keyGeneratorValue := value }

/-- The number is below the current value, or the generator goes on after it. -/
def maybeUpdateKeyGeneratorNumber (newKeyNumber : Float) : MemoryObjectStore Key Buffer :=
  if newKeyNumber < Float.ofNat store.keyGeneratorValue then store
  else store.setKeyGeneratorValue (newKeyNumber.toUInt64 + 1).toNat

/-- The key is generated by the store. -/
def generatesKey : Bool :=
  store.info.autoIncrement && !js.isValidType keyData

/-- The key of the record that is put. -/
def usedKey : Key :=
  if store.generatesKey js keyData then js.numberKey store.keyGeneratorValue else keyData

/-- The store whose key generator was advanced if it made the key. -/
def advanced : MemoryObjectStore Key Buffer :=
  if store.generatesKey js keyData then store.setKeyGeneratorValue (store.keyGeneratorValue + 1)
  else store

/-- The value of the record, into which a generated key is injected if the store has a key path. -/
def injectedRecordValue (originalRecordValue : Option Buffer) : Except IDBError (Option Buffer) :=
  match store.generatesKey js keyData, store.info.keyPath with
  | true, some keyPath =>
    let value := js.deserializeIDBValueToJSValue originalRecordValue
    if js.isUndefined value then
      .error ⟨.ConstraintError, "Unable to deserialize record value for record key injection"⟩
    else
      match js.injectKey (store.usedKey js keyData) value keyPath with
      | none => .error ⟨.ConstraintError, "Unable to inject record key into record value"⟩
      | some value =>
        match js.serialize value with
        | none =>
          .error ⟨.ConstraintError, "Unable to serialize record value after injecting record key"⟩
        | some data => .ok (some data)
  | _, _ => .ok originalRecordValue

/-- What is checked before the store is changed: the value to be stored, or an error. -/
def preparePutOrAdd (originalRecordValue : Option Buffer)
    (overwriteMode : ObjectStoreOverwriteMode) : Except IDBError (Option Buffer) :=
  if store.generatesKey js keyData && maxGeneratedKeyValue < store.keyGeneratorValue then
    .error ⟨.ConstraintError, "Cannot generate new key value over 2^53 for object store operation"⟩
  else if overwriteMode = .NoOverwrite && store.containsRecord (store.usedKey js keyData) then
    .error ⟨.ConstraintError, "Key already exists in the object store"⟩
  else store.injectedRecordValue js keyData originalRecordValue

/-- Delete the record of the key and add the new one. The generator was advanced before; it goes
back when the record cannot be added. -/
def performPutOrAdd (originalRecordValue : Option Buffer)
    (overwriteMode : ObjectStoreOverwriteMode) :
    Option IDBError × MemoryBackingStoreTransaction Key Buffer × MemoryObjectStore Key Buffer :=
  match store.preparePutOrAdd js keyData originalRecordValue overwriteMode with
  | .error error => (some error, tx, store)
  | .ok value =>
    let usedKey := store.usedKey js keyData
    let deleted := (store.advanced js keyData).deleteRange js ord tx ref (.only usedKey)
    let added := deleted.2.addRecord js ord usedKey value
    match added.1 with
    | some error =>
      (some error, deleted.1, added.2.setKeyGeneratorValue store.keyGeneratorValue)
    | none =>
      match store.info.autoIncrement, js.number? keyData with
      | true, some number =>
        if overwriteMode = .OverwriteForCursor then (none, deleted.1, added.2)
        else (none, deleted.1, added.2.maybeUpdateKeyGeneratorNumber number)
      | _, _ => (none, deleted.1, added.2)

end MemoryObjectStore

end WebKit.IndexedDB
