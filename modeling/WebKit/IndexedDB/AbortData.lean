import WebKit.Core.Run
import WebKit.IndexedDB.Undoable
import WebKit.IndexedDB.FailedPut

/-!
# Aborting a readwrite transaction

Aborting a readwrite transaction should leave the object stores of its scope as they were when it
began, whatever was put, deleted, cleared or generated in between.
-/

namespace WebKit.IndexedDB

open WTF WebKit.Core List HashMap

variable {Key Buffer JSValue : Type*} (js : Bindings Key Buffer JSValue)

namespace MemoryIDBBackingStore

open MemoryObjectStore MemoryBackingStoreTransaction

/-! ### The scope of the transaction -/

section

variable {db : MemoryIDBBackingStore Key Buffer} {ref : StoreRef}

/-- A transaction after it has added existing object stores. -/
lemma foldl_addExisting (value : StoreRef → ℕ) (refs : List StoreRef)
    (tx : MemoryBackingStoreTransaction Key Buffer) :
    let tx' := refs.foldl (fun tx ref => tx.addExistingObjectStore ref (value ref)) tx
    tx' = { tx with
        objectStores := tx'.objectStores
        originalKeyGenerators := tx'.originalKeyGenerators } ∧
      (∀ ref, ref ∈ tx'.objectStores ↔ ref ∈ tx.objectStores ∨ ref ∈ refs) ∧
      ∀ ref, tx'.originalKeyGenerators.get? ref =
        (tx.originalKeyGenerators.get? ref).or (if ref ∈ refs then some (value ref) else none) := by
  induction refs generalizing tx with
  | nil => simp
  | cons first refs ih =>
    obtain ⟨htx, hmem, hget⟩ := ih (tx.addExistingObjectStore first (value first))
    refine ⟨htx, fun ref => ?_, fun ref => ?_⟩
    · rw [foldl_cons, hmem]
      simp [addExistingObjectStore, or_assoc]
    · rw [foldl_cons, hget]
      simp only [addExistingObjectStore]
      by_cases hfst : ref = first
      · cases hold : tx.originalKeyGenerators.get? first <;> simp [hfst]
      · simp [hfst]

/-- A readwrite transaction knows the key generators of its stores, and nothing else. -/
lemma beginTransaction_readwrite (ordId : IterationOrder (ℕ × StoreRef))
    (ordName : IterationOrder (String × StoreRef)) (names : List String) :
    let tx := db.beginTransaction ordId ordName .Readwrite names
    tx = { (create false none : MemoryBackingStoreTransaction Key Buffer) with
        objectStores := tx.objectStores
        originalKeyGenerators := tx.originalKeyGenerators } ∧
      ∀ ref ∈ tx.objectStores,
        tx.originalKeyGenerators.get? ref = some (db.storeObjects ref).keyGeneratorValue := by
  obtain ⟨htx, hmem, hget⟩ := foldl_addExisting
    (fun ref => (db.storeObjects ref).keyGeneratorValue)
    (((db.objectStoresByName.iterate ordName).filter (·.1 ∈ names)).map Prod.snd)
    (create false none)
  refine ⟨htx, fun ref href => ?_⟩
  have hrefs := ((hmem ref).1 href).resolve_left (HashSet.not_mem_empty ref)
  exact (hget ref).trans (by rw [if_pos hrefs]; rfl)

end

/-! ### Runs -/

/-- A transaction and the backing store it works on. -/
structure DataState (Key Buffer : Type*) where
  tx : MemoryBackingStoreTransaction Key Buffer
  db : MemoryIDBBackingStore Key Buffer

namespace DataState

variable [LinearOrder Key] (js : Bindings Key Buffer JSValue)

/-- The state after an operation on an object store of the scope. An operation that fails leaves
what it has changed. -/
def step (st : DataState Key Buffer) (op : StoreRef × RecordOperation Key Buffer) :
    Option (DataState Key Buffer) :=
  let store := st.db.storeObjects op.1
  if st.tx.objectStores.contains op.1 ∧ ValidRequest js store op.2 then
    let result := store.perform js op.1 st.tx op.2
    some ⟨result.1, st.db.updateStore op.1 fun _ => result.2⟩
  else none

/-- The operation can be undone. -/
def Undoes (st : DataState Key Buffer) (op : StoreRef × RecordOperation Key Buffer) : Prop :=
  (st.db.storeObjects op.1).Undoes js op.1 st.tx op.2

variable {js} {start : MemoryIDBBackingStore Key Buffer}
  {tx : MemoryBackingStoreTransaction Key Buffer} {st st' : DataState Key Buffer}

/-- The stores of the scope can be restored. -/
structure Invariant (start : MemoryIDBBackingStore Key Buffer)
    (tx : MemoryBackingStoreTransaction Key Buffer) (st : DataState Key Buffer) : Prop where
  scope : SameScope tx st.tx
  undoable : ∀ ref ∈ tx.objectStores,
    (start.storeObjects ref).Undoable st.tx ref (st.db.storeObjects ref)

section

variable (h : Invariant start tx st)
  (hst : ∀ ref ∈ tx.objectStores, (start.storeObjects ref).Committed js)

include h hst

lemma Invariant.step {op : StoreRef × RecordOperation Key Buffer}
    (hundo : st.Undoes js op) (hstep : st.step js op = some st') : Invariant start tx st' := by
  obtain ⟨ref, op⟩ := op
  simp only [DataState.step, Option.ite_none_right_eq_some, Option.some.injEq] at hstep
  obtain ⟨⟨hscope, hvld⟩, rfl⟩ := hstep
  have href : ref ∈ tx.objectStores := by
    rw [h.scope] at hscope
    simpa using hscope
  obtain ⟨hundoable, hnotes⟩ := (h.undoable ref href).perform op (hst ref href) hvld hundo
  refine ⟨h.scope.trans hnotes.scope, fun r hr => ?_⟩
  by_cases heq : r = ref
  · subst heq
    simpa [updateStore] using hundoable
  · simpa [updateStore, heq] using (h.undoable r hr).of_sameNotes hnotes.scope (hnotes.same r heq)

/-- The stores can be restored after each run of operations that can be undone. -/
lemma Invariant.run {ops : List (StoreRef × RecordOperation Key Buffer)}
    (hundo : EachStep (DataState.step js) (Undoes js) st ops)
    (hrun : Core.run (DataState.step js) st ops = some st') : Invariant start tx st' :=
  run_induction (fun _ _ _ hstep hundo h => h.step hst hundo hstep) hrun hundo h

end

end DataState

/-! ### Aborting -/

section

variable {orders : AbortOrders Key Buffer} {tx : MemoryBackingStoreTransaction Key Buffer}
  {db : MemoryIDBBackingStore Key Buffer} {ref : StoreRef}

/-- The transaction has not changed the schema. -/
structure NoSchemaChange (tx : MemoryBackingStoreTransaction Key Buffer) : Prop where
  originalIndexNames : tx.originalIndexNames = .empty
  originalObjectStoreNames : tx.originalObjectStoreNames = .empty
  versionChangeAddedObjectStores : tx.versionChangeAddedObjectStores = .empty
  deletedObjectStores : tx.deletedObjectStores = .empty
  originalDatabaseInfo : tx.originalDatabaseInfo = none
  deletedIndexes : tx.deletedIndexes = .empty

lemma restoreSchema_of_noChange (h : NoSchemaChange tx) : db.restoreSchema tx orders = db := by
  simp [restoreSchema, h.originalIndexNames, h.originalObjectStoreNames,
    h.versionChangeAddedObjectStores, h.deletedObjectStores, h.originalDatabaseInfo]

/-- The cleared indexes of a store get their contents back. -/
lemma storeObjects_restoreIndexes :
    (db.restoreIndexes tx orders).storeObjects ref =
      { db.storeObjects ref with
        indexObjects := fun index =>
          { (db.storeObjects ref).indexObjects index with
            records := (tx.clearedIndexValueStores.get? (ref, index)).getD
              ((db.storeObjects ref).indexObjects index).records } } := by
  -- by induction on the entries: each address occurs once, so later ones do not undo it
  have hloop : ∀ (l : List ((StoreRef × IndexRef) × Option (IndexValueStore Key)))
      (db : MemoryIDBBackingStore Key Buffer), (l.map Prod.fst).Nodup →
      (l.foldl (fun db entry => db.updateStore entry.1.1
        (·.updateIndex entry.1.2 (·.replaceIndexValueStore entry.2))) db).storeObjects ref =
      { db.storeObjects ref with
        indexObjects := fun index =>
          { (db.storeObjects ref).indexObjects index with
            records := (find (ref, index) l).getD
              ((db.storeObjects ref).indexObjects index).records } } := by
    intro l
    induction l with
    | nil => exact fun db _ => rfl
    | cons entry l ih =>
      intro db hnd
      obtain ⟨⟨r, i⟩, records⟩ := entry
      obtain ⟨hnot, hnd⟩ := nodup_cons.1 hnd
      have hfind : find (r, i) l = none := by
        refine Option.eq_none_iff_forall_ne_some.2 fun value hval => hnot ?_
        have hmem := (get?_eq_some_iff (m := ⟨l, hnd⟩) (k := (r, i))).1 hval
        exact mem_map.2 ⟨_, hmem, rfl⟩
      rw [foldl_cons, ih _ hnd]
      by_cases hr : ref = r
      · subst hr
        simp only [updateStore, Function.update_self, MemoryObjectStore.updateIndex,
          MemoryIndex.replaceIndexValueStore, find]
        congr 1
        funext index
        by_cases hi : index = i
        · subst hi
          simp [hfind]
        · simp [hi, Ne.symm hi]
      · simp [updateStore, hr, find, Ne.symm hr]
  rw [restoreIndexes, hloop _ _ (nodup_fst_iterate _)]
  simp only [find_iterate]

/-- Before the noted values are replayed, the store has its contents and its key generator back. -/
lemma restoreRecords_eq [DecidableEq Key] :
    ((db.restoreIndexes tx orders).storeObjects ref).restoreRecords js orders tx ref =
      let contents := ((db.storeObjects ref).restoredContents tx ref).setKeyGeneratorValue
        ((tx.originalKeyGenerators.get? ref).getD 0)
      match tx.originalValues.get? ref with
      | none => contents
      | some values => contents.replayOriginalValues js orders.indexesByName tx ref
          (values.iterate orders.originalValues) := by
  rw [storeObjects_restoreIndexes]
  unfold restoreRecords restoredContents
  cases tx.clearedKeyValueMaps.get? ref with
  | none => rfl
  | some cleared => cases cleared <;> rfl

lemma foldl_updateStore {γ : Type*} (point : γ → StoreRef)
    (g : γ → MemoryObjectStore Key Buffer → MemoryObjectStore Key Buffer) (l : List γ)
    (db : MemoryIDBBackingStore Key Buffer) :
    l.foldl (fun db c => db.updateStore (point c) (g c)) db =
      { db with storeObjects := updateAt point g l db.storeObjects } := by
  induction l generalizing db with
  | nil => rfl
  | cons c l ih => exact ih _

/-- Without schema changes each store of the scope is restored by itself. -/
lemma storeObjects_abort [DecidableEq Key] (h : NoSchemaChange tx) (href : ref ∈ tx.objectStores) :
    (db.abort js orders tx).storeObjects ref =
      ((db.restoreIndexes { tx with isAborting := true } orders).storeObjects ref).restoreRecords js
        orders { tx with isAborting := true } ref := by
  have hnoSchemaChange : NoSchemaChange { tx with isAborting := true } :=
    ⟨h.originalIndexNames, h.originalObjectStoreNames, h.versionChangeAddedObjectStores,
      h.deletedObjectStores, h.originalDatabaseInfo, h.deletedIndexes⟩
  have href' : ref ∈ ({ tx with isAborting := true } :
      MemoryBackingStoreTransaction Key Buffer).objectStores := href
  unfold abort
  dsimp only
  generalize ({ tx with isAborting := true } : MemoryBackingStoreTransaction Key Buffer) = aborting
    at *
  have hrefs : objectStoresToRestore aborting orders =
      aborting.objectStores.iterate orders.objectStores := by
    simp [objectStoresToRestore, hnoSchemaChange.deletedObjectStores, HashSet.addAll]
  rw [h.deletedIndexes, iterate_empty, restoreSchema_of_noChange hnoSchemaChange, hrefs]
  have hloop := foldl_updateStore id
    (fun ref store => store.restoreRecords js orders aborting ref)
    (aborting.objectStores.iterate orders.objectStores) (db.restoreIndexes aborting orders)
  refine (congrArg (storeObjects · ref) hloop).trans ?_
  have hnd : ((aborting.objectStores.iterate orders.objectStores).map id).Nodup := by
    rw [map_id]
    exact HashSet.nodup_iterate _
  exact updateAt_of_mem hnd (HashSet.mem_iterate.2 href')

end

end MemoryIDBBackingStore

namespace MemoryObjectStore

variable [DecidableEq Key]

lemma keyGeneratorValue_replay (ord : IterationOrder (String × IndexRef))
    (tx : MemoryBackingStoreTransaction Key Buffer) (ref : StoreRef)
    (values : List (Key × Option Buffer)) (store : MemoryObjectStore Key Buffer) :
    (store.replayOriginalValues js ord tx ref values).keyGeneratorValue =
      store.keyGeneratorValue := by
  induction values generalizing store with
  | nil => rfl
  | cons entry values ih =>
    refine (ih _).trans ?_
    exact (sameSchema_addRecord js entry.1 entry.2 ord _).2.trans
      (sameSchema_deleteRecord entry.1 ord store tx ref).2

/-- The store has the records, the ordered keys, the pairs in the indexes and the key generator
that it had. -/
structure SameData (start store : MemoryObjectStore Key Buffer) : Prop where
  schema : SameSchema start store
  record?_eq : ∀ key, store.record? key = start.record? key
  keys_eq : store.keys = start.keys
  mem_keysOf : ∀ index, start.Registered index → ∀ key primaryKey,
    primaryKey ∈ (store.indexObjects index).store.keysOf key ↔
      primaryKey ∈ (start.indexObjects index).store.keysOf key
  keyGeneratorValue_eq : store.keyGeneratorValue = start.keyGeneratorValue

lemma sameData_of_restorable {start store : MemoryObjectStore Key Buffer}
    (hst : start.WellFormed) (h : Restorable start store fun _ => none)
    (hgen : store.keyGeneratorValue = start.keyGeneratorValue) : SameData start store where
  schema := h.schema
  record?_eq key := h.record?_eq key rfl
  keys_eq := by
    ext key
    rw [h.indexed.wellFormed.mem_keys, hst.mem_keys, h.record?_eq key rfl]
  mem_keysOf index hidx key primaryKey := h.mem_keysOf index hidx key primaryKey rfl
  keyGeneratorValue_eq := hgen

end MemoryObjectStore

namespace MemoryIDBBackingStore

open MemoryObjectStore MemoryBackingStoreTransaction

variable [LinearOrder Key] {js : Bindings Key Buffer JSValue}

/-- A store that can be undone and whose noted values can be put back. -/
lemma sameData_of_undoable {tx : MemoryBackingStoreTransaction Key Buffer} {ref : StoreRef}
    {db : MemoryIDBBackingStore Key Buffer} {start : MemoryObjectStore Key Buffer}
    (orders : AbortOrders Key Buffer) (hst : start.Committed js)
    (h : start.Undoable tx ref (db.storeObjects ref))
    (hrpl : Replayable js start ((db.storeObjects ref).restoredContents tx ref) (tx.noted ref)) :
    SameData start (((db.restoreIndexes { tx with isAborting := true } orders).storeObjects
      ref).restoreRecords js orders { tx with isAborting := true } ref) := by
  rw [restoreRecords_eq]
  have hgen : (tx.originalKeyGenerators.get? ref).getD 0 = start.keyGeneratorValue := by
    rw [h.keyGenerator]
    rfl
  have hres := (h.setKeyGeneratorValue start.keyGeneratorValue).restorable
  rw [hgen]
  cases hvals : tx.originalValues.get? ref with
  | none =>
    have hntd : tx.noted ref = fun _ => none := funext fun key => by simp [noted, hvals]
    rw [hntd] at hres
    exact sameData_of_restorable hst.indexed.wellFormed hres rfl
  | some values =>
    refine sameData_of_restorable hst.indexed.wellFormed ?_ (keyGeneratorValue_replay ..)
    refine replayOriginalValues_spec orders.indexesByName _ ref hst
      (HashMap.nodup_fst_iterate _) (fun k v => ?_) hres
      ⟨hrpl.complete, hrpl.free⟩
    rw [HashMap.mem_iterate, ← HashMap.get?_eq_some_iff, noted, hvals, Option.bind_some]

/-- Aborting a readwrite transaction restores the object stores of its scope, if the operations can
be undone and the noted values can be put back. -/
theorem abort_restores_data (start : MemoryIDBBackingStore Key Buffer)
    (ordId : IterationOrder (ℕ × StoreRef)) (ordName : IterationOrder (String × StoreRef))
    (names : List String) (orders : AbortOrders Key Buffer)
    (ops : List (StoreRef × RecordOperation Key Buffer)) {st : DataState Key Buffer}
    (hstart : ∀ ref ∈ (start.beginTransaction ordId ordName .Readwrite names).objectStores,
      (start.storeObjects ref).Committed js) (hrun : run (DataState.step js)
      ⟨start.beginTransaction ordId ordName .Readwrite names, start⟩ ops = some st)
    (hundoes : EachStep (DataState.step js) (DataState.Undoes js)
      ⟨start.beginTransaction ordId ordName .Readwrite names, start⟩ ops)
    (hreplay : ∀ ref ∈ (start.beginTransaction ordId ordName .Readwrite names).objectStores,
      Replayable js (start.storeObjects ref)
        ((st.db.storeObjects ref).restoredContents st.tx ref) (st.tx.noted ref)) :
    ∀ ref ∈ (start.beginTransaction ordId ordName .Readwrite names).objectStores,
      SameData (start.storeObjects ref) ((st.db.abort js orders st.tx).storeObjects ref) := by
  obtain ⟨htx, hgenerators⟩ := beginTransaction_readwrite ordId ordName names
  generalize start.beginTransaction ordId ordName .Readwrite names = tx at *
  have hcontents : ∀ ref, (start.storeObjects ref).restoredContents tx ref =
      start.storeObjects ref := by
    intro ref
    rw [htx]
    exact restoredContents_of_uncleared rfl fun _ => rfl
  -- nothing is noted at the beginning
  have hinitial : DataState.Invariant start tx ⟨tx, start⟩ := by
    refine ⟨rfl, fun ref href => ⟨by rw [htx]; rfl, ?_, hgenerators ref href, ?_, ?_, ?_⟩⟩
    · have hnoted : tx.noted ref = fun _ => none := by
        rw [htx]
        rfl
      rw [hcontents, hnoted]
      exact restorable_self (hstart ref href).indexed
    · rw [htx]
      exact fun index hindex => nomatch hindex
    · rw [htx]
      exact fun hcleared => nomatch hcleared
    · rw [htx]
      exact fun hnull => nomatch hnull
  have hinvariant := hinitial.run hstart hundoes hrun
  have hschema : NoSchemaChange st.tx := by
    rw [hinvariant.scope, htx]
    exact ⟨rfl, rfl, rfl, rfl, rfl, rfl⟩
  intro ref href
  have hscope : ref ∈ st.tx.objectStores := by
    rw [hinvariant.scope]
    exact href
  rw [storeObjects_abort js hschema hscope]
  exact sameData_of_undoable orders (hstart ref href) (hinvariant.undoable ref href)
    (hreplay ref href)

end MemoryIDBBackingStore

/-! ### A record that stays -/

/-- A database with the store `twoRecords`. -/
def oneStoreDatabase : MemoryIDBBackingStore ℕ ℕ where
  databaseInfo := ⟨"database", 1, 1, ⟨[(1, ⟨1, "store", none, false, .empty, 1⟩)], by decide⟩⟩
  storeObjects _ := twoRecords
  nextStoreRef := 1
  objectStoresByIdentifier := ⟨[(1, 0)], by decide⟩
  objectStoresByName := ⟨[("store", 0)], by decide⟩

def MemoryIDBBackingStore.AbortOrders.insertion : MemoryIDBBackingStore.AbortOrders ℕ ℕ :=
  ⟨.insertion, .insertion, .insertion, .insertion, .insertion, .insertion, .insertion, .insertion,
    .insertion, .insertion⟩

/-- A readwrite transaction on the store. -/
def writeTransaction : MemoryIDBBackingStore.DataState ℕ ℕ :=
  ⟨oneStoreDatabase.beginTransaction .insertion .insertion .Readwrite ["store"], oneStoreDatabase⟩

lemma record?_twoRecords (key : ℕ) : twoRecords.record? key =
    if key = 1 then some (some 5) else if key = 2 then some (some 6) else none := by
  simp [MemoryObjectStore.record?, twoRecords, get?, find, eq_comm]

lemma get?_twoRecords (index : IndexRef) (key : ℕ) :
    (twoRecords.indexObjects index).store.records.get? key =
      if key = 5 then some {1} else if key = 6 then some {2} else none := by
  simp [MemoryIndex.store, twoRecords, get?, find, eq_comm]

lemma mem_keysOf_twoRecords {index : IndexRef} {key primaryKey : ℕ} :
    primaryKey ∈ (twoRecords.indexObjects index).store.keysOf key ↔
      key = 5 ∧ primaryKey = 1 ∨ key = 6 ∧ primaryKey = 2 := by
  rw [IndexValueStore.keysOf, get?_twoRecords]
  by_cases h₅ : key = 5
  · simp [h₅]
  · by_cases h₆ : key = 6 <;> simp [h₅, h₆]

lemma committed_twoRecords : twoRecords.Committed .ofNat where
  indexed :=
    { wellFormed := wellFormed_twoRecords
      entry_ne := fun index _ key => by
        rw [get?_twoRecords]
        split_ifs <;> simp
      isSome_of_mem := fun index _ key primaryKey hmem => by
        rcases mem_keysOf_twoRecords.1 hmem with ⟨-, rfl⟩ | ⟨-, rfl⟩ <;> decide }
  registered_iff index := by simp [MemoryObjectStore.Registered, twoRecords]
  identifiers_nodup := nodup_singleton 0
  mem_recordKeys index _ key primaryKey value hmem hval := by
    rw [record?_twoRecords] at hval
    rcases mem_keysOf_twoRecords.1 hmem with ⟨rfl, rfl⟩ | ⟨rfl, rfl⟩
    · obtain rfl : some 5 = value := by simpa using hval
      exact mem_singleton_self 5
    · obtain rfl : some 6 = value := by simpa using hval
      exact mem_singleton_self 6
  unique index _ _ key primaryKey primaryKey' hmem hmem' := by
    rw [mem_keysOf_twoRecords] at hmem hmem'
    omega

/-- A record is overwritten, the other one deleted, the store cleared and a new key put. -/
def changesWithClear : List (StoreRef × MemoryObjectStore.RecordOperation ℕ ℕ) :=
  [(0, .putOrAdd .insertion 1 (some 7) .Overwrite), (0, .deleteRange .insertion (.only 2)),
    (0, .clear .insertion), (0, .putOrAdd .insertion 3 (some 8) .Overwrite)]

/-- Aborting after these changes restores the store. -/
theorem abort_after_clear :
    ∃ st, run (MemoryIDBBackingStore.DataState.step .ofNat) writeTransaction changesWithClear =
        some st ∧
      twoRecords.SameData ((st.db.abort .ofNat .insertion st.tx).storeObjects 0) := by
  refine ⟨_, rfl, MemoryIDBBackingStore.abort_restores_data oneStoreDatabase .insertion .insertion
    ["store"] .insertion changesWithClear (fun _ _ => committed_twoRecords) rfl ?_ ?_ 0
    (mem_singleton_self 0)⟩
  · refine ⟨?_, fun st hst => ⟨?_, fun st' hst' => ⟨trivial, fun st'' hst'' => ⟨?_,
      fun _ _ => trivial⟩⟩⟩⟩
    · intro newValue hvalue
      obtain rfl : some 7 = newValue := Except.ok.inj hvalue
      refine ⟨nofun, fun _ => ⟨Or.inl (by decide), fun hfail => absurd ?_ hfail⟩⟩
      rintro index ⟨name, hmem⟩
      obtain ⟨rfl, rfl⟩ := Prod.mk.inj (mem_singleton.1 hmem)
      decide
    · obtain rfl := Option.some.inj hst
      intro _ _ key hkey
      obtain rfl : 2 = key := Option.some.inj hkey
      exact Or.inl (by decide)
    · obtain rfl := Option.some.inj hst
      obtain rfl := Option.some.inj hst'
      obtain rfl := Option.some.inj hst''
      exact fun newValue _ => ⟨nofun, fun hcleared => absurd hcleared (by decide)⟩
  · intro ref href
    obtain rfl : ref = 0 := mem_singleton.1 href
    have hnoted : ∀ {key value}, (mk [(1, some 5), (2, some 6)] (by decide)).get? key =
        some value → key = 1 ∧ value = some 5 ∨ key = 2 ∧ value = some 6 := by
      intro key value hvalue
      simpa using get?_eq_some_iff.1 hvalue
    refine ⟨fun key value hvalue index _ k hk => ?_,
      fun key value hvalue index hindex _ k hk key' hne hsome hmem => ?_⟩
    · refine mem_keysOf_twoRecords.2 ?_
      rcases hnoted hvalue with ⟨rfl, rfl⟩ | ⟨rfl, rfl⟩
      · exact Or.inl ⟨mem_singleton.1 hk, rfl⟩
      · exact Or.inr ⟨mem_singleton.1 hk, rfl⟩
    · obtain ⟨value', hvalue'⟩ := Option.isSome_iff_exists.1 hsome
      obtain ⟨name, hname⟩ := hindex
      obtain rfl : index = 0 := (Prod.ext_iff.1 (mem_singleton.1 hname)).2
      rcases hnoted hvalue with ⟨rfl, rfl⟩ | ⟨rfl, rfl⟩ <;>
        rcases hnoted hvalue' with ⟨rfl, -⟩ | ⟨rfl, -⟩
      · exact hne rfl
      · obtain rfl := mem_singleton.1 hk
        revert hmem
        decide
      · obtain rfl := mem_singleton.1 hk
        revert hmem
        decide
      · exact hne rfl

/-- A record is put under a new key, and the transaction is aborted. The key keeps a record, with a
null value. -/
theorem abort_keeps_new_key :
    ∃ st, run (MemoryIDBBackingStore.DataState.step .ofNat) writeTransaction
        [(0, .putOrAdd .insertion 3 (some 7) .Overwrite)] = some st ∧
      twoRecords.record? 3 = none ∧
      ((st.db.abort .ofNat .insertion st.tx).storeObjects 0).record? 3 = some none ∧
      ¬twoRecords.SameData ((st.db.abort .ofNat .insertion st.tx).storeObjects 0) := by
  refine ⟨_, rfl, by decide, by decide, fun hsame => ?_⟩
  have hrecord := hsame.record?_eq 3
  revert hrecord
  decide

end WebKit.IndexedDB
