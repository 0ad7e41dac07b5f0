import WebKit.IndexedDB.MemoryObjectStore

/-!
# The in-memory backing store and aborting a transaction

The backing store finds its object stores by identifier and by name. A transaction notes what it
makes, deletes, renames and overwrites; aborting it replays what it has noted.
-/

namespace WebKit.IndexedDB

open WTF

variable {Key Buffer JSValue : Type*}

/-- Object stores are found at their address, whether they are registered or not. -/
structure MemoryIDBBackingStore (Key Buffer : Type*) where
  databaseInfo : IDBDatabaseInfo
  storeObjects : StoreRef → MemoryObjectStore Key Buffer
  nextStoreRef : ℕ
  objectStoresByIdentifier : HashMap ℕ StoreRef
  objectStoresByName : HashMap String StoreRef

namespace MemoryObjectStore

def rename (store : MemoryObjectStore Key Buffer) (newName : String) :
    MemoryObjectStore Key Buffer := { store with info := { store.info with name := newName } }

/-- Update an index object. -/
def updateIndex (store : MemoryObjectStore Key Buffer) (index : IndexRef)
    (f : MemoryIndex Key → MemoryIndex Key) : MemoryObjectStore Key Buffer :=
  { store with
    indexObjects := Function.update store.indexObjects index (f (store.indexObjects index)) }

end MemoryObjectStore

namespace MemoryIndex

def rename (index : MemoryIndex Key) (newName : String) : MemoryIndex Key :=
  { index with info := { index.info with name := newName } }

def replaceIndexValueStore (index : MemoryIndex Key) (valueStore : Option (IndexValueStore Key)) :
    MemoryIndex Key := { index with records := valueStore }

end MemoryIndex

inductive IDBTransactionMode
  | Readonly
  | Readwrite
  | Versionchange
deriving DecidableEq, Repr

/-- The scope of a version change transaction is all object stores, that of a readwrite transaction
the ones with the names `objectStores`. -/
def MemoryIDBBackingStore.beginTransaction (ordId : IterationOrder (ℕ × StoreRef))
    (ordName : IterationOrder (String × StoreRef)) (mode : IDBTransactionMode)
    (objectStores : List String) (db : MemoryIDBBackingStore Key Buffer) :
    MemoryBackingStoreTransaction Key Buffer :=
  let addExisting (tx : MemoryBackingStoreTransaction Key Buffer) (ref : StoreRef) :=
    tx.addExistingObjectStore ref (db.storeObjects ref).keyGeneratorValue
  match mode with
  | .Versionchange =>
    ((db.objectStoresByIdentifier.iterate ordId).map Prod.snd).foldl addExisting
      (.create true (some db.databaseInfo))
  | .Readwrite =>
    (((db.objectStoresByName.iterate ordName).filter (·.1 ∈ objectStores)).map Prod.snd).foldl
      addExisting (.create false none)
  | .Readonly => .create false none

namespace MemoryObjectStore

def maybeRestoreDeletedIndex [DecidableEq Key] (js : Bindings Key Buffer JSValue)
    (ord : IterationOrder (Key × Option Buffer)) (store : MemoryObjectStore Key Buffer)
    (index : IndexRef) : MemoryObjectStore Key Buffer :=
  let info := (store.indexObjects index).info
  if store.info.hasIndex info.name then store
  else
    let populated := store.populateIndexWithExistingRecords js ord ⟨info, none⟩
    registerIndex
      { store with
        info := store.info.addExistingIndex info
        indexObjects := Function.update store.indexObjects index populated.2 } index

end MemoryObjectStore

namespace MemoryIDBBackingStore

variable (db : MemoryIDBBackingStore Key Buffer)

/-- Update an object store. -/
def updateStore (ref : StoreRef) (f : MemoryObjectStore Key Buffer → MemoryObjectStore Key Buffer) :
    MemoryIDBBackingStore Key Buffer :=
  { db with storeObjects := Function.update db.storeObjects ref (f (db.storeObjects ref)) }

def registerObjectStore (ref : StoreRef) : MemoryIDBBackingStore Key Buffer :=
  let info := (db.storeObjects ref).info
  { db with
    objectStoresByName := db.objectStoresByName.set info.name ref
    objectStoresByIdentifier := db.objectStoresByIdentifier.set info.identifier ref }

def unregisterObjectStore (ref : StoreRef) : MemoryIDBBackingStore Key Buffer :=
  let info := (db.storeObjects ref).info
  { db with
    objectStoresByName := db.objectStoresByName.remove info.name
    objectStoresByIdentifier := db.objectStoresByIdentifier.remove info.identifier }

variable (tx : MemoryBackingStoreTransaction Key Buffer)

/-! ### Aborting -/

/-- The orders in which the tables are iterated while a transaction is aborted. -/
structure AbortOrders (Key Buffer : Type*) where
  originalIndexNames : IterationOrder ((StoreRef × IndexRef) × String)
  originalObjectStoreNames : IterationOrder (StoreRef × String)
  addedObjectStores : IterationOrder StoreRef
  deletedObjectStores : IterationOrder (String × StoreRef)
  clearedIndexValueStores : IterationOrder ((StoreRef × IndexRef) × Option (IndexValueStore Key))
  objectStores : IterationOrder StoreRef
  originalValues : IterationOrder (Key × Option Buffer)
  indexesByName : IterationOrder (String × IndexRef)
  deletedIndexes : IterationOrder (String × (StoreRef × IndexRef))
  records : IterationOrder (Key × Option Buffer)

def removeObjectStoreForVersionChangeAbort (ref : StoreRef) : MemoryIDBBackingStore Key Buffer :=
  if db.objectStoresByIdentifier.contains (db.storeObjects ref).info.identifier then
    db.unregisterObjectStore ref
  else db

/-- The names of indexes and object stores, the registered object stores and the description of
the database are put back. -/
def restoreSchema (orders : AbortOrders Key Buffer) : MemoryIDBBackingStore Key Buffer :=
  let db := (tx.originalIndexNames.iterate orders.originalIndexNames).foldl
    (fun db entry => db.updateStore entry.1.1 (·.updateIndex entry.1.2 (·.rename entry.2))) db
  let db := (tx.originalObjectStoreNames.iterate orders.originalObjectStoreNames).foldl
    (fun db entry => db.updateStore entry.1 (·.rename entry.2)) db
  let db := (tx.versionChangeAddedObjectStores.iterate orders.addedObjectStores).foldl
    removeObjectStoreForVersionChangeAbort db
  let db := (tx.deletedObjectStores.iterate orders.deletedObjectStores).foldl
    (fun db entry => db.registerObjectStore entry.2) db
  match tx.originalDatabaseInfo with
  | none => db
  | some info => { db with databaseInfo := info }

/-- The cleared indexes get their contents back. -/
def restoreIndexes (orders : AbortOrders Key Buffer) : MemoryIDBBackingStore Key Buffer :=
  (tx.clearedIndexValueStores.iterate orders.clearedIndexValueStores).foldl
    (fun db entry => db.updateStore entry.1.1
      (·.updateIndex entry.1.2 (·.replaceIndexValueStore entry.2))) db

end MemoryIDBBackingStore

namespace MemoryObjectStore

variable [DecidableEq Key] (js : Bindings Key Buffer JSValue)

/-- The noted values are put back one after the other. -/
def replayOriginalValues (ord : IterationOrder (String × IndexRef))
    (tx : MemoryBackingStoreTransaction Key Buffer) (ref : StoreRef)
    (values : List (Key × Option Buffer)) (store : MemoryObjectStore Key Buffer) :
    MemoryObjectStore Key Buffer :=
  values.foldl (fun store entry =>
      ((store.deleteRecord ord tx ref entry.1).2.addRecord js ord entry.1 entry.2).2)
    store

/-- The key generator and the records of a store are put back. -/
def restoreRecords (orders : MemoryIDBBackingStore.AbortOrders Key Buffer)
    (tx : MemoryBackingStoreTransaction Key Buffer) (ref : StoreRef)
    (store : MemoryObjectStore Key Buffer) : MemoryObjectStore Key Buffer :=
  let store :=
    { store with keyGeneratorValue := (tx.originalKeyGenerators.get? ref).getD 0 }
  let store :=
    match tx.clearedKeyValueMaps.get? ref with
    | some (some clearedKeyValueMap) =>
      { store with
        keyValueStore := some clearedKeyValueMap
        orderedKeys := (tx.clearedOrderedKeys.get? ref).getD none }
    | _ => store
  match tx.originalValues.get? ref with
  | none => store
  | some keyValueMap =>
    store.replayOriginalValues js orders.indexesByName tx ref
      (keyValueMap.iterate orders.originalValues)

end MemoryObjectStore

namespace MemoryIDBBackingStore

variable [DecidableEq Key] (js : Bindings Key Buffer JSValue)

/-- The deleted object stores are among those that are restored. -/
def objectStoresToRestore (tx : MemoryBackingStoreTransaction Key Buffer)
    (orders : AbortOrders Key Buffer) : List StoreRef :=
  (tx.objectStores.addAll
    ((tx.deletedObjectStores.iterate orders.deletedObjectStores).map Prod.snd)).iterate
      orders.objectStores

def abort (orders : AbortOrders Key Buffer) (tx : MemoryBackingStoreTransaction Key Buffer)
    (db : MemoryIDBBackingStore Key Buffer) : MemoryIDBBackingStore Key Buffer :=
  let tx := { tx with isAborting := true }
  let db := db.restoreSchema tx orders
  let db := db.restoreIndexes tx orders
  let db := (objectStoresToRestore tx orders).foldl
    (fun db ref => db.updateStore ref (·.restoreRecords js orders tx ref)) db
  (tx.deletedIndexes.iterate orders.deletedIndexes).foldl
    (fun db entry => db.updateStore entry.2.1
      (·.maybeRestoreDeletedIndex js orders.records entry.2.2)) db

end MemoryIDBBackingStore

end WebKit.IndexedDB
