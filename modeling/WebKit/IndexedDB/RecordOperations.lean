import WebKit.Core.PointUpdate
import WebKit.IndexedDB.MemoryObjectStore

/-!
# What the operations on records do

One description for each operation of an object store: which records it leaves, and what it does
to each index.
-/

namespace WebKit.IndexedDB

open WTF WebKit.Core List Function HashMap

variable {Key Buffer JSValue : Type*}

/-! ### The keys of a record in an index -/

namespace Bindings

variable [DecidableEq Key] (js : Bindings Key Buffer JSValue)

/-- The keys under which an index enters a record with the value `value`. -/
def recordKeys (info : IDBIndexInfo) (value : Option Buffer) : List Key :=
  let jsValue := js.deserializeIDBValueToJSValue value
  if js.isUndefinedOrNull jsValue then []
  else
    match js.generateIndexKeyForValue info jsValue with
    | [] => []
    | indexKey => js.enteredKeys info indexKey

lemma nodup_recordKeys (info : IDBIndexInfo) (value : Option Buffer) :
    (js.recordKeys info value).Nodup := by
  unfold recordKeys
  dsimp only
  split_ifs
  · exact nodup_nil
  · split
    · exact nodup_nil
    · exact js.nodup_enteredKeys info _

variable {js} {info : IDBIndexInfo} {value : Option Buffer}

lemma recordKeys_of_isUndefined
    (h : js.isUndefinedOrNull (js.deserializeIDBValueToJSValue value)) :
    js.recordKeys info value = [] := if_pos h

lemma recordKeys_of_isEmpty
    (h : (js.generateIndexKeyForValue info (js.deserializeIDBValueToJSValue value)).isEmpty) :
    js.recordKeys info value = [] := by
  rw [List.isEmpty_iff] at h
  simp [recordKeys, h]

lemma recordKeys_of_nonempty (hval : ¬js.isUndefinedOrNull (js.deserializeIDBValueToJSValue value))
    (h : ¬(js.generateIndexKeyForValue info (js.deserializeIDBValueToJSValue value)).isEmpty) :
    js.recordKeys info value = js.enteredKeys info
      (js.generateIndexKeyForValue info (js.deserializeIDBValueToJSValue value)) := by
  rw [recordKeys, if_neg hval]
  split
  next hnil => simp [hnil] at h
  next => rfl

end Bindings

namespace MemoryIndex

variable [DecidableEq Key]

/-- Two indexes of one description with the same contents. -/
def SameContents (index index' : MemoryIndex Key) : Prop :=
  index'.info = index.info ∧
    (∀ key, index'.store.records.get? key = index.store.records.get? key) ∧
    index'.store.orderedKeys = index.store.orderedKeys

lemma sameContents_of_store {index index' : MemoryIndex Key} (hinfo : index'.info = index.info)
    (h : index'.store = index.store) : SameContents index index' :=
  ⟨hinfo, fun _ => by rw [h], by rw [h]⟩

lemma SameContents.refl (index : MemoryIndex Key) : SameContents index index :=
  sameContents_of_store rfl rfl

end MemoryIndex

namespace MemoryBackingStoreTransaction

variable [DecidableEq Key] (tx : MemoryBackingStoreTransaction Key Buffer) (ref : StoreRef)
  (key : Key) (value : Option (Option Buffer))

@[simp] lemma clearedKeyValueMaps_recordValueChanged :
    (tx.recordValueChanged ref key value).clearedKeyValueMaps = tx.clearedKeyValueMaps := by
  unfold recordValueChanged
  split_ifs <;> rfl

@[simp] lemma clearedIndexes_recordValueChanged :
    (tx.recordValueChanged ref key value).clearedIndexValueStores = tx.clearedIndexValueStores := by
  unfold recordValueChanged
  split_ifs <;> rfl

end MemoryBackingStoreTransaction

namespace MemoryObjectStore

/-! ### Adding a record to the indexes -/

variable {tx : MemoryBackingStoreTransaction Key Buffer} {ref : StoreRef}

section

variable [DecidableEq Key] (js : Bindings Key Buffer JSValue) (key : Key) (value : Option Buffer)
  {ref : IndexRef} {refs : List IndexRef} {objs : IndexRef → MemoryIndex Key}
  {changed : List (IndexRef × List Key)} {index : MemoryIndex Key}

/-- The index takes the record. -/
def AcceptsRecord (index : MemoryIndex Key) : Prop :=
  index.Accepts (js.recordKeys index.info value)

instance (index : MemoryIndex Key) : Decidable (AcceptsRecord js value index) :=
  inferInstanceAs (Decidable (index.Accepts _))

/-- The index after a step of the loop. -/
def enter (index : MemoryIndex Key) : MemoryIndex Key :=
  let indexKey := js.generateIndexKeyForValue index.info (js.deserializeIDBValueToJSValue value)
  if indexKey.isEmpty then index else (index.putIndexKey js key indexKey).2

@[simp] lemma info_enter (index : MemoryIndex Key) :
    (enter js key value index).info = index.info := by
  unfold enter
  dsimp only
  split_ifs <;> simp

variable {js key value}

lemma store_enter (hval : ¬js.isUndefinedOrNull (js.deserializeIDBValueToJSValue value))
    (h : AcceptsRecord js value index) :
    (enter js key value index).store =
      index.store.addRecords index.info.unique (js.recordKeys index.info value) key := by
  unfold enter
  dsimp only
  split_ifs with hemp
  · rw [Bindings.recordKeys_of_isEmpty hemp]
    rfl
  · rw [AcceptsRecord, Bindings.recordKeys_of_nonempty hval hemp] at h
    rw [MemoryIndex.store_putIndexKey js h, Bindings.recordKeys_of_nonempty hval hemp]

variable (js key value) in
/-- What the loop over the indexes has done when it ends. -/
structure PutSpec (refs : List IndexRef) (objs : IndexRef → MemoryIndex Key)
    (result : Option IDBError × (IndexRef → MemoryIndex Key) × List (IndexRef × List Key)) :
    Prop where
  error_eq : result.1 =
    if ∀ ref ∈ refs, AcceptsRecord js value (objs ref) then none
    else some { code := .ConstraintError }
  of_mem : ∀ ref ∈ refs.takeWhile (AcceptsRecord js value <| objs ·),
    result.2.1 ref = enter js key value (objs ref)
  outside : ∀ ref ∉ refs, result.2.1 ref = objs ref
  of_not_mem : ∀ ref ∉ refs.takeWhile (AcceptsRecord js value <| objs ·),
    (objs ref).SameContents (result.2.1 ref)
  mem_changed : ∀ ref ik, (ref, ik) ∈ result.2.2 ↔
    ref ∈ refs.takeWhile (AcceptsRecord js value <| objs ·) ∧ ik ≠ [] ∧
      ik = js.generateIndexKeyForValue (objs ref).info (js.deserializeIDBValueToJSValue value)
  sublist : (result.2.2.map Prod.fst).Sublist refs

lemma takeWhile_update (h : ref ∉ refs) :
    refs.takeWhile (AcceptsRecord js value <| Function.update objs ref index ·) =
      refs.takeWhile (AcceptsRecord js value <| objs ·) := by
  induction refs with
  | nil => rfl
  | cons r refs ih =>
    simp only [mem_cons, not_or] at h
    simp only [takeWhile_cons, update_of_ne (Ne.symm h.1), ih h.2]

section

variable (hval : ¬js.isUndefinedOrNull (js.deserializeIDBValueToJSValue value))

include hval

lemma putIndexKeys_of_accept (h : AcceptsRecord js value (objs ref)) :
    putIndexKeys js key (js.deserializeIDBValueToJSValue value) (ref :: refs) objs =
      let result := putIndexKeys js key (js.deserializeIDBValueToJSValue value) refs
        (Function.update objs ref (enter js key value (objs ref)))
      let ik := js.generateIndexKeyForValue (objs ref).info (js.deserializeIDBValueToJSValue value)
      (result.1, result.2.1, if ik.isEmpty then result.2.2 else (ref, ik) :: result.2.2) := by
  rw [putIndexKeys, enter]
  dsimp only
  split_ifs with hemp
  · rw [update_eq_self]
  · rw [AcceptsRecord, Bindings.recordKeys_of_nonempty hval hemp] at h
    simp only [MemoryIndex.putIndexKey_fst, if_pos h]

variable (key) in
lemma putIndexKeys_of_reject (refs : List IndexRef) (h : ¬AcceptsRecord js value (objs ref)) :
    putIndexKeys js key (js.deserializeIDBValueToJSValue value) (ref :: refs) objs =
        (some { code := .ConstraintError },
          Function.update objs ref (enter js key value (objs ref)), []) ∧
      (objs ref).SameContents (enter js key value (objs ref)) := by
  rw [putIndexKeys, enter]
  split_ifs with hemp
  · refine absurd ?_ h
    rw [AcceptsRecord, Bindings.recordKeys_of_isEmpty hemp]
    exact fun key hkey => nomatch hkey
  · rw [AcceptsRecord, Bindings.recordKeys_of_nonempty hval hemp] at h
    simp only [MemoryIndex.putIndexKey_fst, if_neg h, true_and]
    exact MemoryIndex.sameContents_of_store (MemoryIndex.info_putIndexKey js _ _)
      (MemoryIndex.store_putIndexKey_of_not js h key)

variable (key) in
lemma putSpec (hnd : refs.Nodup) (objs : IndexRef → MemoryIndex Key) :
    PutSpec js key value refs objs
      (putIndexKeys js key (js.deserializeIDBValueToJSValue value) refs objs) := by
  induction refs generalizing objs with
  | nil =>
    exact ⟨rfl, by simp, fun _ _ => rfl, fun ref _ => .refl _, by simp [putIndexKeys],
      by simp [putIndexKeys]⟩
  | cons ref refs ih =>
    obtain ⟨hnot, hnd⟩ := nodup_cons.1 hnd
    by_cases h : AcceptsRecord js value (objs ref)
    -- the loop goes on with the index entered, which is none of the others
    · obtain ⟨herr, hmem, hout, hnotMem, hchg, hsub⟩ :=
        ih hnd (update objs ref (enter js key value (objs ref)))
      have hoth : ∀ r ∈ refs, update objs ref (enter js key value (objs ref)) r =
          objs r :=
        fun r hr => update_of_ne (ne_of_mem_of_not_mem hr hnot) _ _
      rw [takeWhile_update hnot] at hmem hnotMem
      simp only [takeWhile_update hnot] at hchg
      have hsubset : ∀ r ∈ refs.takeWhile (AcceptsRecord js value <| objs ·), r ∈ refs :=
        fun r hr => (List.takeWhile_prefix _).subset hr
      have htake : (ref :: refs).takeWhile (AcceptsRecord js value <| objs ·) =
          ref :: refs.takeWhile (AcceptsRecord js value <| objs ·) := by
        simp [h]
      rw [putIndexKeys_of_accept hval h]
      refine ⟨?_, ?_, ?_, ?_, ?_, ?_⟩
      · have hall : (∀ r ∈ ref :: refs, AcceptsRecord js value (objs r)) ↔
            ∀ r ∈ refs, AcceptsRecord js value
              (update objs ref (enter js key value (objs ref)) r) := by
          rw [forall_mem_cons, and_iff_right h]
          exact forall₂_congr fun r hr => by rw [hoth r hr]
        simpa only [hall] using herr
      · rw [htake]
        refine forall_mem_cons.2 ⟨?_, fun r hr => ?_⟩
        · exact (hout ref hnot).trans (update_self ..)
        · exact (hmem r hr).trans (by rw [hoth r (hsubset r hr)])
      · intro r hr
        simp only [mem_cons, not_or] at hr
        exact (hout r hr.2).trans (update_of_ne hr.1 ..)
      · rw [htake]
        intro r hr
        simp only [mem_cons, not_or] at hr
        simpa [hr.1] using hnotMem r hr.2
      · rw [htake]
        intro r ik
        rw [mem_cons, or_and_right]
        have hrest := (hchg r ik).trans (and_congr_right fun hr => by
          rw [hoth r (hsubset r hr)])
        dsimp only
        -- an index without keys for the value is not noted as changed
        split_ifs with hemp
        · rw [hrest]
          refine (or_iff_right ?_).symm
          rintro ⟨rfl, hne, heq⟩
          exact hne (heq.trans (isEmpty_iff.1 hemp))
        · rw [mem_cons, hrest, Prod.mk.injEq]
          refine or_congr_left ⟨?_, ?_⟩
          · rintro ⟨rfl, rfl⟩
            exact ⟨rfl, fun hnil => hemp (isEmpty_iff.2 hnil), rfl⟩
          · rintro ⟨rfl, -, rfl⟩
            exact ⟨rfl, rfl⟩
      · dsimp only
        split_ifs
        · exact hsub.cons _
        · exact hsub.cons_cons _
    -- the loop ends at the first index that does not take the record
    · obtain ⟨hput, hsame⟩ := putIndexKeys_of_reject key hval refs h
      have htake : (ref :: refs).takeWhile (AcceptsRecord js value <| objs ·) = [] := by
        simp [h]
      rw [hput]
      refine ⟨?_, by simp [htake], ?_, ?_, by simp [htake], nil_sublist _⟩
      · rw [if_neg fun hall => h (hall ref mem_cons_self)]
      · intro r hr
        exact update_of_ne (ne_of_not_mem_cons hr) ..
      · intro r _
        by_cases hr : r = ref
        · rw [hr]
          simpa using hsame
        · simpa [hr] using MemoryIndex.SameContents.refl (objs r)

end

lemma revertIndexKeys_of_mem (hnd : (changed.map Prod.fst).Nodup) {ik : List Key}
    (h : (ref, ik) ∈ changed) :
    revertIndexKeys js key changed objs ref = (objs ref).removeRecord js key ik :=
  updateAt_of_mem (β := MemoryIndex Key) (c := (ref, ik))
    (g := fun (record : IndexRef × List Key) index => index.removeRecord js key record.2) hnd h

lemma revertIndexKeys_of_not_mem (h : ∀ ik, (ref, ik) ∉ changed) :
    revertIndexKeys js key changed objs ref = objs ref := by
  have hnot : ref ∉ changed.map Prod.fst := by simpa using h
  exact updateAt_of_not_mem (β := MemoryIndex Key)
    (g := fun record index => index.removeRecord js key record.2) hnot

/-- The ordered keys; no set is an empty set. -/
def keys (store : MemoryObjectStore Key Buffer) : Finset Key := store.orderedKeys.getD ∅

/-- The index is registered under some name. -/
def Registered (store : MemoryObjectStore Key Buffer) (ref : IndexRef) : Prop :=
  ∃ name, (name, ref) ∈ store.indexesByName.entries

/-- No index is registered under two names. -/
def RefsNodup (store : MemoryObjectStore Key Buffer) : Prop :=
  (store.indexesByName.entries.map Prod.snd).Nodup

variable {store : MemoryObjectStore Key Buffer}

omit [DecidableEq Key] in
@[simp] lemma mem_refsByName {ord : IterationOrder (String × IndexRef)}
    : ref ∈ store.refsByName ord ↔ store.Registered ref := by
  simp [refsByName, Registered]

omit [DecidableEq Key] in
lemma RefsNodup.nodup_refsByName (h : store.RefsNodup)
    (ord : IterationOrder (String × IndexRef)) : (store.refsByName ord).Nodup :=
  ((ord.perm _).map _).nodup_iff.2 h

variable {ord : IterationOrder (String × IndexRef)} {store : MemoryObjectStore Key Buffer}

variable (js ord store value) in
/-- The indexes that are visited before one that does not take the record. -/
def acceptedRefs : List IndexRef :=
  (store.refsByName ord).takeWhile (AcceptsRecord js value <| store.indexObjects ·)

lemma acceptsRecord_of_mem (h : ref ∈ store.acceptedRefs js value ord) :
    AcceptsRecord js value (store.indexObjects ref) := by
  simpa using mem_takeWhile_imp h

variable (js store value) in
/-- All indexes take the record. -/
def AllAccept : Prop :=
  ∀ ref, store.Registered ref → AcceptsRecord js value (store.indexObjects ref)

lemma acceptsRecord_of_isUndefined
    (h : js.isUndefinedOrNull (js.deserializeIDBValueToJSValue value)) :
    AcceptsRecord js value index := by
  rw [AcceptsRecord, Bindings.recordKeys_of_isUndefined h]
  exact fun key hkey => nomatch hkey

variable (js ord store key value) in
lemma updateIndexesForPut_snd :
    (store.updateIndexesForPutRecord js ord key value).2 = { store with
      indexObjects := (store.updateIndexesForPutRecord js ord key value).2.indexObjects } := by
  unfold updateIndexesForPutRecord
  dsimp only
  split_ifs
  · rfl
  · split <;> rfl

variable (js key value) in
/-- The record was entered into all registered indexes. -/
structure Entered (registered : IndexRef → Prop) (objs objs' : IndexRef → MemoryIndex Key) :
    Prop where
  info : ∀ ref, (objs' ref).info = (objs ref).info
  store_eq : ∀ ref, registered ref → (objs' ref).store =
    (objs ref).store.addRecords (objs ref).info.unique (js.recordKeys (objs ref).info value) key
  other : ∀ ref, ¬registered ref → objs' ref = objs ref

variable (js key value) in
/-- The record was entered into some indexes and taken out of them again. -/
structure Reverted (refs : List IndexRef) (objs objs' : IndexRef → MemoryIndex Key) :
    Prop where
  accepted : ∀ ref ∈ refs, (objs' ref).info = (objs ref).info ∧ (objs' ref).store =
    ((objs ref).store.addRecords (objs ref).info.unique
      (js.recordKeys (objs ref).info value) key).removeRecords
      (js.recordKeys (objs ref).info value) key
  other : ∀ ref ∉ refs, (objs ref).SameContents (objs' ref)

lemma updateIndexesForPut_of_allAccept (hnd : store.RefsNodup) (h : store.AllAccept js value) :
    (store.updateIndexesForPutRecord js ord key value).1 = none ∧
      Entered js key value store.Registered store.indexObjects
        (store.updateIndexesForPutRecord js ord key value).2.indexObjects := by
  by_cases hval : js.isUndefinedOrNull (js.deserializeIDBValueToJSValue value)
  · simp only [updateIndexesForPutRecord, hval, if_true, true_and]
    refine ⟨fun ref => rfl, fun ref _ => ?_, fun ref _ => rfl⟩
    rw [Bindings.recordKeys_of_isUndefined hval]
    rfl
  · obtain ⟨herr, hmem, houtside, -, -, -⟩ :=
      putSpec key hval (hnd.nodup_refsByName ord) store.indexObjects
    have hall : ∀ ref ∈ store.refsByName ord, AcceptsRecord js value (store.indexObjects ref) :=
      fun ref href => h ref (mem_refsByName.1 href)
    rw [if_pos hall] at herr
    rw [takeWhile_eq_self_iff.2 fun ref href => decide_eq_true (hall ref href)] at hmem
    simp only [updateIndexesForPutRecord, hval, Bool.false_eq_true, if_false, herr, true_and]
    have hout : ∀ ref, ¬store.Registered ref → _ :=
      fun ref href => houtside ref fun hmem => href (mem_refsByName.1 hmem)
    refine ⟨fun ref => ?_, fun ref href => ?_, hout⟩
    · by_cases href : store.Registered ref
      · simp [hmem ref (mem_refsByName.2 href)]
      · rw [hout ref href]
    · rw [hmem ref (mem_refsByName.2 href), store_enter hval (h ref href)]

/-- When an index does not take the record, the keys entered so far are taken out again. -/
lemma updateIndexesForPut_of_reject (hnd : store.RefsNodup) (h : ¬store.AllAccept js value) :
    (store.updateIndexesForPutRecord js ord key value).1 = some { code := .ConstraintError } ∧
      Reverted js key value (store.acceptedRefs js value ord) store.indexObjects
        (store.updateIndexesForPutRecord js ord key value).2.indexObjects := by
  have hval : ¬js.isUndefinedOrNull (js.deserializeIDBValueToJSValue value) :=
    fun hval => h fun ref _ => acceptsRecord_of_isUndefined hval
  have hall : ¬∀ ref ∈ store.refsByName ord, AcceptsRecord js value (store.indexObjects ref) :=
    fun hall => h fun ref href => hall ref (mem_refsByName.2 href)
  obtain ⟨herr, hmem, -, hnotMem, hchg, hsub⟩ :=
    putSpec key hval (hnd.nodup_refsByName ord) store.indexObjects
  rw [if_neg hall] at herr
  simp only [updateIndexesForPutRecord, hval, Bool.false_eq_true, if_false, herr, true_and]
  refine ⟨fun ref href => ?_, fun ref href => ?_⟩
  · by_cases hemp : (js.generateIndexKeyForValue (store.indexObjects ref).info
      (js.deserializeIDBValueToJSValue value)).isEmpty
    · rw [revertIndexKeys_of_not_mem, hmem ref href, info_enter,
        store_enter hval (acceptsRecord_of_mem href), Bindings.recordKeys_of_isEmpty hemp]
      · exact ⟨rfl, rfl⟩
      · intro ik hkey
        obtain ⟨-, hne, heq⟩ := (hchg ref ik).1 hkey
        exact hne (heq.trans (isEmpty_iff.1 hemp))
    · have hkey := (hchg ref _).2 ⟨href, fun hnil => hemp (isEmpty_iff.2 hnil), rfl⟩
      rw [revertIndexKeys_of_mem (hsub.nodup (hnd.nodup_refsByName ord)) hkey, hmem ref href,
        MemoryIndex.info_removeRecord, MemoryIndex.store_removeRecord, info_enter,
        store_enter hval (acceptsRecord_of_mem href), Bindings.recordKeys_of_nonempty hval hemp]
      exact ⟨rfl, rfl⟩
  · rw [revertIndexKeys_of_not_mem fun ik hkey => href ((hchg ref ik).1 hkey).1]
    exact hnotMem ref href

/-! ### Adding a record -/

variable (store key) in
lemma get?_getD_keyValueStore : (store.keyValueStore.getD .empty).get? key = store.record? key := by
  cases hmap : store.keyValueStore <;> simp [record?, hmap]

/-- The store after a record was added. -/
structure Added (js : Bindings Key Buffer JSValue) (key : Key) (value : Option Buffer)
    (store store' : MemoryObjectStore Key Buffer) : Prop where
  record?_eq : ∀ k, store'.record? k = if k = key then some value else store.record? k
  keys_eq : store'.keys = insert key store.keys
  entered : Entered js key value store.Registered store.indexObjects store'.indexObjects

/-- The store after a record was added that was not taken by all indexes. -/
structure NotAdded (js : Bindings Key Buffer JSValue) (ord : IterationOrder (String × IndexRef))
    (key : Key) (value : Option Buffer) (store store' : MemoryObjectStore Key Buffer) :
    Prop where
  record?_eq : ∀ k, store'.record? k = if k = key then none else store.record? k
  keys_eq : store'.keys = store.keys.erase key
  reverted : Reverted js key value (store.acceptedRefs js value ord) store.indexObjects
    store'.indexObjects

/-- What no operation on records changes. -/
structure SameSchema (store store' : MemoryObjectStore Key Buffer) : Prop where
  info : store'.info = store.info
  nextIndexRef : store'.nextIndexRef = store.nextIndexRef
  indexesByIdentifier : store'.indexesByIdentifier = store.indexesByIdentifier
  indexesByName : store'.indexesByName = store.indexesByName

omit [DecidableEq Key] in
lemma SameSchema.refl (store : MemoryObjectStore Key Buffer) : SameSchema store store :=
  ⟨rfl, rfl, rfl, rfl⟩

omit [DecidableEq Key] in
lemma SameSchema.trans {store' store'' : MemoryObjectStore Key Buffer}
    (h : SameSchema store store') (h' : SameSchema store' store'') : SameSchema store store'' :=
  ⟨h'.info.trans h.info, h'.nextIndexRef.trans h.nextIndexRef,
    h'.indexesByIdentifier.trans h.indexesByIdentifier, h'.indexesByName.trans h.indexesByName⟩

variable (key value store) in
/-- The store with the record, before the indexes are looked at. -/
def withRecord : MemoryObjectStore Key Buffer :=
  { store with
    keyValueStore := some ((store.keyValueStore.getD .empty).set key value)
    orderedKeys := some (insert key store.keys) }

variable (js ord key value store) in
lemma addRecord_eq : store.addRecord js ord key value =
    let result := (store.withRecord key value).updateIndexesForPutRecord js ord key value
    match result.1 with
    | none => (none, result.2)
    | some error => (some error,
        { result.2 with
          keyValueStore := some (((store.keyValueStore.getD .empty).set key value).remove key)
          orderedKeys := some ((insert key store.keys).erase key) }) := rfl

lemma addRecord_of_allAccept (hnd : store.RefsNodup) (h : store.AllAccept js value) :
    (store.addRecord js ord key value).1 = none ∧
      Added js key value store (store.addRecord js ord key value).2 := by
  obtain ⟨herr, hent⟩ :
      ((store.withRecord key value).updateIndexesForPutRecord js ord key value).1 = none ∧ _ :=
    updateIndexesForPut_of_allAccept hnd h
  simp only [addRecord_eq, herr]
  refine ⟨trivial, fun k => ?_, ?_, hent⟩
  · rw [updateIndexesForPut_snd]
    exact (get?_set _ _ _).trans (by rw [get?_getD_keyValueStore])
  · rw [updateIndexesForPut_snd]
    rfl

lemma addRecord_of_reject (hnd : store.RefsNodup) (h : ¬store.AllAccept js value) :
    (store.addRecord js ord key value).1 = some { code := .ConstraintError } ∧
      NotAdded js ord key value store (store.addRecord js ord key value).2 := by
  obtain ⟨herr, hrev⟩ :
      ((store.withRecord key value).updateIndexesForPutRecord js ord key value).1 = some _ ∧ _ :=
    updateIndexesForPut_of_reject hnd h
  simp only [addRecord_eq, herr]
  refine ⟨trivial, fun k => ?_, ?_, hrev⟩
  · refine (get?_remove _ _).trans ?_
    rw [get?_set, get?_getD_keyValueStore]
    split_ifs <;> rfl
  · exact Finset.ext fun k => by simp [keys]

/-- A record that was added without an error was taken by all indexes. -/
lemma added_of_eq_none (hnd : store.RefsNodup) (h : (store.addRecord js ord key value).1 = none) :
    store.AllAccept js value ∧ Added js key value store (store.addRecord js ord key value).2 := by
  by_cases hall : store.AllAccept js value
  · exact ⟨hall, (addRecord_of_allAccept hnd hall).2⟩
  · rw [(addRecord_of_reject hnd hall).1] at h
    cases h

variable (js ord store key value) in
lemma sameSchema_addRecord :
    SameSchema store (store.addRecord js ord key value).2 ∧
      (store.addRecord js ord key value).2.keyGeneratorValue = store.keyGeneratorValue := by
  have hput := updateIndexesForPut_snd js key value ord (withRecord key value store)
  rw [addRecord_eq]
  dsimp only
  rw [hput]
  split <;> exact ⟨⟨rfl, rfl, rfl, rfl⟩, rfl⟩

/-! ### Deleting a record -/

lemma deleteRecord_of_none (h : store.record? key = none) :
    store.deleteRecord ord tx ref key = (tx.recordValueChanged ref key none, store) := by
  unfold deleteRecord
  split
  · rfl
  next map hmap =>
    have hget : map.get? key = none := by simpa [record?, hmap] using h
    rw [hget]

lemma updateIndexesForDelete_of_mem (hnd : store.RefsNodup) (h : store.Registered ref) :
    (store.updateIndexesForDeleteRecord ord key).indexObjects ref =
      (store.indexObjects ref).removeEntriesWithValueKey key := by
  have hrefs : ((store.refsByName ord).map id).Nodup := by
    rw [map_id]
    exact hnd.nodup_refsByName ord
  exact updateAt_of_mem
    (g := fun _ (index : MemoryIndex Key) => index.removeEntriesWithValueKey key) hrefs
    (mem_refsByName.2 h)

lemma updateIndexesForDelete_of_notMem (h : ¬store.Registered ref) :
    (store.updateIndexesForDeleteRecord ord key).indexObjects ref = store.indexObjects ref := by
  have href : ref ∉ (store.refsByName ord).map id := by
    rw [map_id]
    exact fun hmem => h (mem_refsByName.1 hmem)
  exact updateAt_of_not_mem
    (g := fun _ (index : MemoryIndex Key) => index.removeEntriesWithValueKey key) href

/-- The store after a record was deleted. -/
structure Deleted (key : Key) (store store' : MemoryObjectStore Key Buffer) : Prop where
  record?_eq : ∀ k, store'.record? k = if k = key then none else store.record? k
  keys_eq : store'.keys = store.keys.erase key
  index_eq : ∀ ref, store.Registered ref →
    store'.indexObjects ref = (store.indexObjects ref).removeEntriesWithValueKey key
  other : ∀ ref, ¬store.Registered ref → store'.indexObjects ref = store.indexObjects ref

section

variable (ord) (tx : MemoryBackingStoreTransaction Key Buffer) (ref : StoreRef)

lemma deleteRecord_of_some (hnd : store.RefsNodup) {old : Option Buffer}
    (h : store.record? key = some old) :
    (store.deleteRecord ord tx ref key).1 = tx.recordValueChanged ref key (some old) ∧
      Deleted key store (store.deleteRecord ord tx ref key).2 := by
  obtain ⟨map, hmap, hget⟩ := Option.bind_eq_some_iff.1 h
  have hdelete : store.deleteRecord ord tx ref key =
      (tx.recordValueChanged ref key (some old),
        updateIndexesForDeleteRecord ord
          { store with
            keyValueStore := some (map.remove key)
            orderedKeys := store.orderedKeys.map (·.erase key) } key) := by
    simp only [deleteRecord, hmap, hget]
  rw [hdelete]
  refine ⟨rfl, fun k => ?_, ?_, fun r hr => ?_, fun r hr => ?_⟩
  · refine (get?_remove _ _).trans ?_
    simp [record?, hmap]
  · cases hkeys : store.orderedKeys <;> simp [keys, updateIndexesForDeleteRecord, hkeys]
  · exact updateIndexesForDelete_of_mem hnd hr
  · exact updateIndexesForDelete_of_notMem hr

lemma record?_deleteRecord (hnd : store.RefsNodup) (k : Key) :
    (store.deleteRecord ord tx ref key).2.record? k =
      if k = key then none else store.record? k := by
  cases hold : store.record? key with
  | none =>
    rw [deleteRecord_of_none hold]
    by_cases hk : k = key <;> simp [hk, hold]
  | some old => exact (deleteRecord_of_some ord tx ref hnd hold).2.record?_eq k

lemma info_deleteRecord (hnd : store.RefsNodup) (index : IndexRef) :
    ((store.deleteRecord ord tx ref key).2.indexObjects index).info =
      (store.indexObjects index).info := by
  cases hold : store.record? key with
  | none => rw [deleteRecord_of_none hold]
  | some old =>
    have hdel := (deleteRecord_of_some ord tx ref hnd hold).2
    by_cases hidx : store.Registered index
    · simp [hdel.index_eq index hidx]
    · rw [hdel.other index hidx]

variable (store key) in
lemma sameSchema_deleteRecord :
    SameSchema store (store.deleteRecord ord tx ref key).2 ∧
      (store.deleteRecord ord tx ref key).2.keyGeneratorValue = store.keyGeneratorValue := by
  unfold deleteRecord
  split
  · exact ⟨⟨rfl, rfl, rfl, rfl⟩, rfl⟩
  · split <;> exact ⟨⟨rfl, rfl, rfl, rfl⟩, rfl⟩

end

end

/-! ### Clearing -/

section

variable [DecidableEq Key]

/-- What clearing the indexes `refs` does: those that were not cleared before are emptied, and the
transaction keeps their contents. -/
structure IndexesCleared (ref : StoreRef) (refs : List IndexRef)
    (tx : MemoryBackingStoreTransaction Key Buffer) (objects : IndexRef → MemoryIndex Key)
    (result : MemoryBackingStoreTransaction Key Buffer × (IndexRef → MemoryIndex Key)) :
    Prop where
  objects_eq : ∀ index, result.2 index =
    if index ∈ refs ∧ tx.clearedIndexValueStores.contains (ref, index) = false then
      { objects index with records := none }
    else objects index
  get?_eq : ∀ address, result.1.clearedIndexValueStores.get? address =
    (tx.clearedIndexValueStores.get? address).or
      (if address.1 = ref ∧ address.2 ∈ refs then some (objects address.2).records else none)
  tx_eq : result.1 =
    { tx with clearedIndexValueStores := result.1.clearedIndexValueStores }

variable {refs : List IndexRef}

omit [DecidableEq Key] in
lemma IndexesCleared.contains_iff {objs : IndexRef → MemoryIndex Key}
    {result : MemoryBackingStoreTransaction Key Buffer × (IndexRef → MemoryIndex Key)}
    (h : IndexesCleared ref refs tx objs result) (index : IndexRef) :
    result.1.clearedIndexValueStores.contains (ref, index) ↔
      tx.clearedIndexValueStores.contains (ref, index) ∨ index ∈ refs := by
  rw [HashMap.contains, HashMap.contains, h.get?_eq]
  by_cases hidx : index ∈ refs <;> simp

omit [DecidableEq Key] in
lemma indexesCleared (ref : StoreRef) (hnd : refs.Nodup)
    (tx : MemoryBackingStoreTransaction Key Buffer) (objs : IndexRef → MemoryIndex Key) :
    IndexesCleared ref refs tx objs (clearIndexes ref refs tx objs) := by
  induction refs generalizing tx objs with
  | nil => exact ⟨by simp [clearIndexes], by simp [clearIndexes], rfl⟩
  | cons first refs ih =>
    obtain ⟨hnot, hnd⟩ := nodup_cons.1 hnd
    obtain ⟨hobj, hget, htx⟩ := ih hnd
      (tx.indexCleared (ref, first) (objs first).records).1
      (update objs first { objs first with
        records := (tx.indexCleared (ref, first) (objs first).records).2 })
    rw [clearIndexes]
    -- only the first clearing of an index in a transaction notes its records
    cases hclr : tx.clearedIndexValueStores.contains (ref, first) with
    | true =>
      simp only [MemoryBackingStoreTransaction.indexCleared, hclr] at hobj hget htx ⊢
      refine ⟨fun index => ?_, fun address => ?_, htx⟩
      · rw [hobj]
        by_cases hidx : index = first
        · simp [hidx, hclr]
        · simp [hidx]
      · rw [hget]
        by_cases hadr : address = (ref, first)
        · obtain ⟨value, hval⟩ := Option.isSome_iff_exists.1 hclr
          simp [hadr, hval]
        · have hne : address.1 = ref → address.2 ≠ first := fun h₁ h₂ => hadr (Prod.ext h₁ h₂)
          by_cases h₁ : address.1 = ref
          · simp [hne h₁]
          · simp [h₁]
    | false =>
      simp only [MemoryBackingStoreTransaction.indexCleared, hclr, Bool.false_eq_true,
        if_false] at hobj hget htx ⊢
      refine ⟨fun index => ?_, fun address => ?_, ?_⟩
      · rw [hobj]
        by_cases hidx : index = first
        · simp [hidx, hclr]
        · simp [hidx, HashMap.contains]
      · rw [hget, HashMap.get?_set]
        by_cases hadr : address = (ref, first)
        · simp [hadr, HashMap.not_contains_iff.1 hclr]
        · have hne : address.1 = ref → address.2 ≠ first := fun h₁ h₂ => hadr (Prod.ext h₁ h₂)
          rw [if_neg hadr]
          by_cases h₁ : address.1 = ref
          · simp [hne h₁]
          · simp [h₁]
      · exact htx

variable {ord : IterationOrder (ℕ × IndexRef)} {tx : MemoryBackingStoreTransaction Key Buffer}
  {ref : StoreRef} {store : MemoryObjectStore Key Buffer}

/-- The transaction that keeps the contents of the store. -/
abbrev keepContents (tx : MemoryBackingStoreTransaction Key Buffer) (ref : StoreRef)
    (store : MemoryObjectStore Key Buffer) : MemoryBackingStoreTransaction Key Buffer :=
  { tx with
    clearedKeyValueMaps := tx.clearedKeyValueMaps.set ref store.keyValueStore
    clearedOrderedKeys := tx.clearedOrderedKeys.set ref store.orderedKeys }

variable (hnd : (store.refsByIdentifier ord).Nodup)

include hnd

omit [DecidableEq Key] in
/-- A store that was cleared before in the transaction keeps its records. -/
lemma clear_of_contains (h : tx.clearedKeyValueMaps.contains ref = true) :
    ∃ result, store.clear ord tx ref = (result.1, { store with indexObjects := result.2 }) ∧
      IndexesCleared ref (store.refsByIdentifier ord) tx store.indexObjects result := by
  simp only [clear, MemoryBackingStoreTransaction.objectStoreCleared, h]
  exact ⟨_, rfl, indexesCleared ref hnd tx _⟩

omit [DecidableEq Key] in
lemma clear_of_not_contains (h : tx.clearedKeyValueMaps.contains ref = false) :
    ∃ result, store.clear ord tx ref = (result.1, { store with
        keyValueStore := none, orderedKeys := none, indexObjects := result.2 }) ∧
      IndexesCleared ref (store.refsByIdentifier ord) (keepContents tx ref store)
        store.indexObjects result := by
  simp only [clear, MemoryBackingStoreTransaction.objectStoreCleared, h]
  exact ⟨_, rfl, indexesCleared ref hnd (keepContents tx ref store) _⟩

end

/-! ### Populating an index -/

section

variable [DecidableEq Key] {js : Bindings Key Buffer JSValue}

variable (js) in
/-- The records that are visited: those before the first undefined or null value. -/
def visited (records : List (Key × Option Buffer)) : List (Key × Option Buffer) :=
  records.takeWhile fun record =>
    !js.isUndefinedOrNull (js.deserializeIDBValueToJSValue record.2)

/-- What a populated index holds. -/
structure Populated (js : Bindings Key Buffer JSValue) (records : List (Key × Option Buffer))
    (index index' : MemoryIndex Key) : Prop where
  info : index'.info = index.info
  tidy : index.store.Tidy → index'.store.Tidy
  mem_keysOf : ∀ key primaryKey, primaryKey ∈ index'.store.keysOf key ↔
    primaryKey ∈ index.store.keysOf key ∨
      ∃ value, (primaryKey, value) ∈ visited js records ∧ key ∈ js.recordKeys index.info value

variable {records : List (Key × Option Buffer)} {record : Key × Option Buffer}

lemma Populated.trans {index index' index'' : MemoryIndex Key}
    (h : Populated js [record] index index') (h' : Populated js records index' index'')
    (hval : ¬js.isUndefinedOrNull (js.deserializeIDBValueToJSValue record.2)) :
    Populated js (record :: records) index index'' where
  info := h'.info.trans h.info
  tidy htidy := h'.tidy (h.tidy htidy)
  mem_keysOf key primaryKey := by
    rw [h'.mem_keysOf, h.mem_keysOf, h.info]
    simp only [visited, takeWhile_cons, hval, Bool.not_false, if_true, takeWhile_nil,
      mem_cons, not_mem_nil, or_false, or_and_right, exists_or, or_assoc]

variable {index : MemoryIndex Key}

lemma populated_of_accepts (hval : ¬js.isUndefinedOrNull (js.deserializeIDBValueToJSValue record.2))
    (h : AcceptsRecord js record.2 index) :
    Populated js [record] index (enter js record.1 record.2 index) where
  info := info_enter ..
  tidy htidy := by
    rw [store_enter hval h]
    exact htidy.addRecords (js.nodup_recordKeys _ _) h record.1
  mem_keysOf key primaryKey := by
    have hvis : visited js [record] = [record] := by simp [visited, hval]
    rw [store_enter hval h, hvis, IndexValueStore.mem_keysOf_addRecords (js.nodup_recordKeys _ _) h]
    simp [Prod.ext_iff]

lemma populateIndex_cons (hval : ¬js.isUndefinedOrNull (js.deserializeIDBValueToJSValue record.2)) :
    (AcceptsRecord js record.2 index → populateIndex js (record :: records) index =
        populateIndex js records (enter js record.1 record.2 index)) ∧
      (¬AcceptsRecord js record.2 index →
        (populateIndex js (record :: records) index).1 = some { code := .ConstraintError }) := by
  rw [populateIndex, enter]
  dsimp only
  split_ifs with hemp
  · refine ⟨fun _ => rfl, fun h => absurd ?_ h⟩
    rw [AcceptsRecord, Bindings.recordKeys_of_isEmpty hemp]
    exact fun key hkey => nomatch hkey
  · rw [AcceptsRecord, Bindings.recordKeys_of_nonempty hval hemp, MemoryIndex.putIndexKey_fst]
    exact ⟨fun h => by rw [if_pos h], fun h => by rw [if_neg h]⟩

lemma populated_of_populateIndex (h : (populateIndex js records index).1 = none) :
    Populated js records index (populateIndex js records index).2 := by
  induction records generalizing index with
  | nil => exact ⟨rfl, id, by simp [populateIndex, visited]⟩
  | cons record records ih =>
    by_cases hval : js.isUndefinedOrNull (js.deserializeIDBValueToJSValue record.2)
    · simp only [populateIndex, hval]
      exact ⟨rfl, id, by simp [visited, hval]⟩
    · by_cases hacc : AcceptsRecord js record.2 index
      · rw [(populateIndex_cons hval).1 hacc] at h ⊢
        exact (populated_of_accepts hval hacc).trans (ih h) hval
      · rw [(populateIndex_cons hval).2 hacc] at h
        cases h

/-! ### Installing an index -/

variable {store : MemoryObjectStore Key Buffer} {index : MemoryIndex Key}

omit [DecidableEq Key] in
variable (store index) in
lemma byName_installIndex : (store.installIndex index).indexesByName =
    store.indexesByName.set index.info.name store.nextIndexRef := by
  simp [installIndex, registerIndex]

omit [DecidableEq Key] in
variable (store index) in
lemma byIdentifier_installIndex : (store.installIndex index).indexesByIdentifier =
    store.indexesByIdentifier.set index.info.identifier store.nextIndexRef := by
  simp [installIndex, registerIndex]

omit [DecidableEq Key] in
lemma registered_installIndex (hname : store.indexesByName.contains index.info.name = false)
    (ref : IndexRef) :
    (store.installIndex index).Registered ref ↔
      store.Registered ref ∨ ref = store.nextIndexRef := by
  simp [Registered, byName_installIndex, entries_set_of_notMem hname, exists_or]

omit [DecidableEq Key] in
lemma refsNodup_installIndex (hname : store.indexesByName.contains index.info.name = false)
    (hlt : ∀ ref, store.Registered ref → ref < store.nextIndexRef) (hnd : store.RefsNodup) :
    (store.installIndex index).RefsNodup := by
  rw [RefsNodup, byName_installIndex, entries_set_of_notMem hname, map_append, nodup_append]
  refine ⟨hnd, nodup_singleton _, ?_⟩
  rintro ref href _ hnext rfl
  obtain ⟨entry, hent, rfl⟩ := mem_map.1 href
  exact absurd (mem_singleton.1 hnext) (hlt entry.2 ⟨entry.1, hent⟩).ne

end

/-! ### Well-formed stores -/

section

variable [DecidableEq Key]

/-- The invariants of the containers of a store. -/
structure WellFormed (store : MemoryObjectStore Key Buffer) : Prop where
  refs_nodup : store.RefsNodup
  mem_keys : ∀ key, key ∈ store.keys ↔ (store.record? key).isSome

variable {js : Bindings Key Buffer JSValue} {store store' : MemoryObjectStore Key Buffer}
  {key : Key} {value : Option Buffer} {ref : IndexRef}

omit [DecidableEq Key] in
lemma SameSchema.registered_iff (h : SameSchema store store') :
    store'.Registered ref ↔ store.Registered ref := by
  simp [Registered, h.indexesByName]

omit [DecidableEq Key] in
lemma refsNodup_of_sameSchema (h : SameSchema store store') (hnd : store.RefsNodup) :
    store'.RefsNodup := by
  unfold RefsNodup
  rwa [h.indexesByName]

lemma WellFormed.of_deleted (hwf : store.WellFormed) (hsch : SameSchema store store')
    (h : Deleted key store store') : store'.WellFormed where
  refs_nodup := refsNodup_of_sameSchema hsch hwf.refs_nodup
  mem_keys k := by
    rw [h.keys_eq, Finset.mem_erase, hwf.mem_keys, h.record?_eq]
    by_cases hk : k = key <;> simp [hk]

lemma WellFormed.of_added (hwf : store.WellFormed) (hsch : SameSchema store store')
    (h : Added js key value store store') : store'.WellFormed where
  refs_nodup := refsNodup_of_sameSchema hsch hwf.refs_nodup
  mem_keys k := by
    rw [h.keys_eq, Finset.mem_insert, hwf.mem_keys, h.record?_eq]
    by_cases hk : k = key <;> simp [hk]

omit [DecidableEq Key] in
lemma mem_refsByIdentifier {ord : IterationOrder (ℕ × IndexRef)} :
    ref ∈ store.refsByIdentifier ord ↔
      ∃ identifier, (identifier, ref) ∈ store.indexesByIdentifier.entries := by
  simp [refsByIdentifier]

end

/-! ### Ranges and puts -/

section

variable [LinearOrder Key] {js : Bindings Key Buffer JSValue}
  {ord : IterationOrder (String × IndexRef)} {tx : MemoryBackingStoreTransaction Key Buffer}
  {ref : StoreRef} {store : MemoryObjectStore Key Buffer} {keyData : Key} {value : Option Buffer}
  {mode : ObjectStoreOverwriteMode}

lemma deleteRange_only (hkey : js.isValidType keyData) :
    store.deleteRange js ord tx ref (.only keyData) = store.deleteRecord ord tx ref keyData := by
  have hone : (IDBKeyRangeData.only keyData).isExactlyOneKey js = true := by
    simp [IDBKeyRangeData.isExactlyOneKey, IDBKeyRangeData.only, hkey]
  unfold deleteRange
  rw [hone]
  rfl

lemma mem_of_first_eq_some {keys : Finset Key} {key : Key}
    (h : first keys = some key) : key ∈ keys := by
  unfold first at h
  split_ifs at h with hne
  exact Option.some.inj h ▸ keys.min'_mem hne

/-- The loop finds keys of the store only. -/
lemma mem_of_lowestKey {range : IDBKeyRangeData Key} {key : Key}
    (h : store.lowestKeyWithRecordInRange js range = some key) :
    (store.record? key).isSome ∨ key ∈ store.keys := by
  unfold lowestKeyWithRecordInRange at h
  split at h
  · cases h
  next map hmap =>
    split_ifs at h with hone
    · rw [h, Bool.and_eq_true] at hone
      left
      simpa [record?, hmap, HashMap.contains] using hone.2
    · right
      obtain ⟨lowest, hlowest, hkey⟩ := Option.bind_eq_some_iff.1 (Option.filter_eq_some_iff.1 h).1
      have hsub : ∀ {p : Key → Prop} [DecidablePred p] {k : Key},
          first ((store.orderedKeys.getD ∅).filter p) = some k → k ∈ store.keys :=
        fun hfst => Finset.mem_of_mem_filter _ (mem_of_first_eq_some hfst)
      split_ifs at hkey
      · exact hsub hkey
      · obtain rfl := Option.some.inj hkey
        cases hlo : range.lowerKey with
        | none =>
          rw [hlo] at hlowest
          exact mem_of_first_eq_some hlowest
        | some lower =>
          rw [hlo] at hlowest
          exact hsub hlowest

variable {P : MemoryBackingStoreTransaction Key Buffer → MemoryObjectStore Key Buffer → Prop}

variable (js) in
/-- The deletion of a range deletes one key, or keys of the store one after the other. -/
lemma deleteRange_cases (range : IDBKeyRangeData Key)
    (hone : ∀ key, range.isExactlyOneKey js → range.lowerKey = some key →
      P (store.deleteRecord ord tx ref key).1 (store.deleteRecord ord tx ref key).2)
    (hstep : ∀ tx store key, (store.record? key).isSome ∨ key ∈ store.keys → P tx store →
      P (store.deleteRecord ord tx ref key).1 (store.deleteRecord ord tx ref key).2)
    (h : P tx store) :
    P (store.deleteRange js ord tx ref range).1 (store.deleteRange js ord tx ref range).2 := by
  have hloop : ∀ fuel range tx store, P tx store →
      P (deleteKeysInRange js ord ref fuel range tx store).1
        (deleteKeysInRange js ord ref fuel range tx store).2 := by
    intro fuel
    induction fuel with
    | zero => exact fun range tx store h => h
    | succ fuel ih =>
      intro range tx store h
      unfold deleteKeysInRange
      split
      · exact h
      next key hkey => exact ih _ _ _ (hstep _ _ _ (mem_of_lowestKey hkey) h)
  unfold deleteRange
  split
  next key hexactly hkey => exact hone key hexactly hkey
  · exact hloop _ _ _ _ h

variable (js) in
/-- What each deletion of a record keeps is kept by the deletion of a range. -/
lemma deleteRange_induction (hstep : ∀ tx store key, P tx store →
      P (store.deleteRecord ord tx ref key).1 (store.deleteRecord ord tx ref key).2)
    (range : IDBKeyRangeData Key) (h : P tx store) :
    P (store.deleteRange js ord tx ref range).1 (store.deleteRange js ord tx ref range).2 :=
  deleteRange_cases js range (fun key _ _ => hstep _ _ key h)
    (fun tx store key _ => hstep tx store key) h

lemma performPutOrAdd_of_error {error : IDBError}
    (h : store.preparePutOrAdd js keyData value mode = .error error) :
    store.performPutOrAdd js ord tx ref keyData value mode = (some error, tx, store) := by
  simp only [performPutOrAdd, h]

variable (ord tx ref) in
/-- A put that is not refused at once deletes the record of the key and adds the new one. -/
lemma performPutOrAdd_of_ok (hkey : js.isValidType (store.usedKey js keyData))
    {newValue : Option Buffer} (h : store.preparePutOrAdd js keyData value mode = .ok newValue) :
    let deleted := (store.advanced js keyData).deleteRecord ord tx ref (store.usedKey js keyData)
    let added := deleted.2.addRecord js ord (store.usedKey js keyData) newValue
    let result := store.performPutOrAdd js ord tx ref keyData value mode
    result.1 = added.1 ∧ result.2.1 = deleted.1 ∧
      ∃ generator, result.2.2 = added.2.setKeyGeneratorValue generator ∧
        (result.1 ≠ none → generator = store.keyGeneratorValue) := by
  simp only [performPutOrAdd, h, deleteRange_only hkey]
  split
  next error herr => exact ⟨herr.symm, rfl, _, rfl, fun _ => rfl⟩
  next hnone =>
    rw [hnone]
    unfold maybeUpdateKeyGeneratorNumber
    split
    · split_ifs <;> exact ⟨rfl, rfl, _, rfl, fun hne => absurd rfl hne⟩
    · exact ⟨rfl, rfl, _, rfl, fun hne => absurd rfl hne⟩

omit [LinearOrder Key] in
/-- Advancing the key generator changes neither records nor indexes. -/
lemma advanced_eq :
    ∃ generator, store.advanced js keyData = store.setKeyGeneratorValue generator := by
  unfold advanced
  split_ifs
  · exact ⟨_, rfl⟩
  · exact ⟨store.keyGeneratorValue, rfl⟩

end

end MemoryObjectStore

end WebKit.IndexedDB
