import WebKit.IndexedDB.MemoryIDBBackingStore
import WebKit.IndexedDB.RecordOperations

/-!
# Putting the noted values back

A store that was changed since a transaction began differs from what it was at the keys that the
transaction has noted only. Replaying the noted values takes these keys away one by one.
-/

namespace WebKit.IndexedDB

open WTF IndexValueStore Function

variable {Key Buffer JSValue : Type*} [DecidableEq Key]

namespace MemoryObjectStore

variable {js : Bindings Key Buffer JSValue} {store store' store'' : MemoryObjectStore Key Buffer}
  {key : Key} {value : Option Buffer}

/-! ### Changes at one key -/

/-- No entry of an index is empty, and all its primary keys have a record. -/
structure Indexed (store : MemoryObjectStore Key Buffer) : Prop where
  wellFormed : store.WellFormed
  entry_ne : ∀ index, store.Registered index →
    ∀ k, (store.indexObjects index).store.records.get? k ≠ some ∅
  isSome_of_mem : ∀ index, store.Registered index →
    ∀ k primaryKey, primaryKey ∈ (store.indexObjects index).store.keysOf k →
      (store.record? primaryKey).isSome

/-- The stores differ at one key only, in the records and in the indexes. -/
structure ChangesOnly (key : Key) (store store' : MemoryObjectStore Key Buffer) : Prop where
  schema : SameSchema store store'
  info : ∀ index, (store'.indexObjects index).info = (store.indexObjects index).info
  record?_eq : ∀ k, k ≠ key → store'.record? k = store.record? k
  mem_keysOf : ∀ index, store.Registered index → ∀ k primaryKey, primaryKey ≠ key →
    (primaryKey ∈ (store'.indexObjects index).store.keysOf k ↔
      primaryKey ∈ (store.indexObjects index).store.keysOf k)

lemma ChangesOnly.refl (key : Key) (store : MemoryObjectStore Key Buffer) :
    ChangesOnly key store store :=
  ⟨.refl store, fun _ => rfl, fun _ _ => rfl, fun _ _ _ _ _ => Iff.rfl⟩

lemma ChangesOnly.trans (h : ChangesOnly key store store') (h' : ChangesOnly key store' store'') :
    ChangesOnly key store store'' where
  schema := h.schema.trans h'.schema
  info index := (h'.info index).trans (h.info index)
  record?_eq k hk := (h'.record?_eq k hk).trans (h.record?_eq k hk)
  mem_keysOf index hidx k pk hne :=
    (h'.mem_keysOf index (h.schema.registered_iff.2 hidx) k pk hne).trans
      (h.mem_keysOf index hidx k pk hne)

/-- What deleting a record does. The key is in no index afterwards. -/
structure Erased (key : Key) (store store' : MemoryObjectStore Key Buffer) : Prop where
  changesOnly : ChangesOnly key store store'
  indexed : store'.Indexed
  record?_eq : store'.record? key = none
  not_mem_keysOf : ∀ index, store.Registered index →
    ∀ k, key ∉ (store'.indexObjects index).store.keysOf k

lemma erased_deleteRecord (ord : IterationOrder (String × IndexRef))
    (tx : MemoryBackingStoreTransaction Key Buffer) (ref : StoreRef) (key : Key)
    (h : store.Indexed) : Erased key store (store.deleteRecord ord tx ref key).2 := by
  have hnd := h.wellFormed.refs_nodup
  cases hold : store.record? key with
  | none =>
    rw [deleteRecord_of_none hold]
    refine ⟨.refl key store, h, hold, fun index hidx k hmem => ?_⟩
    have hsome := h.isSome_of_mem index hidx k key hmem
    rw [hold] at hsome
    cases hsome
  | some old =>
    have hdel := (deleteRecord_of_some ord tx ref hnd hold).2
    have hsch := (sameSchema_deleteRecord key ord store tx ref).1
    have hinfo : ∀ index, ((store.deleteRecord ord tx ref key).2.indexObjects index).info =
        (store.indexObjects index).info := info_deleteRecord ord tx ref hnd
    generalize (store.deleteRecord ord tx ref key).2 = store' at *
    have hkeysOf : ∀ index, store.Registered index → ∀ k,
        (store'.indexObjects index).store.keysOf k =
          ((store.indexObjects index).store.keysOf k).erase key := by
      intro index hidx k
      simp [hdel.index_eq index hidx, MemoryIndex.store_removeEntries]
    refine ⟨⟨hsch, hinfo, fun k hk => ?_, fun index hidx k pk hne => ?_⟩,
      ⟨h.wellFormed.of_deleted hsch hdel, fun index hidx k => ?_,
        fun index hidx k pk hmem => ?_⟩, ?_, fun index hidx k => ?_⟩
    · rw [hdel.record?_eq, if_neg hk]
    · simp [hkeysOf index hidx, and_iff_right hne]
    · rw [hsch.registered_iff] at hidx
      rw [hdel.index_eq index hidx, MemoryIndex.store_removeEntries, get?_removeEntriesWithValueKey]
      split_ifs with hemp
      · simp
      · simpa using hemp
    · rw [hsch.registered_iff] at hidx
      rw [hkeysOf index hidx, Finset.mem_erase] at hmem
      rw [hdel.record?_eq, if_neg hmem.1]
      exact h.isSome_of_mem index hidx k pk hmem.2
    · simp [hdel.record?_eq]
    · rw [hkeysOf index hidx]
      exact Finset.notMem_erase key _

/-- What adding a record does to a store without the key. -/
structure Entry (js : Bindings Key Buffer JSValue) (key : Key) (value : Option Buffer)
    (store store' : MemoryObjectStore Key Buffer) : Prop where
  changesOnly : ChangesOnly key store store'
  indexed : store'.Indexed
  record?_eq : store'.record? key = some value
  mem_keysOf : ∀ index, store.Registered index → ∀ k,
    key ∈ (store'.indexObjects index).store.keysOf k ↔
      k ∈ js.recordKeys (store.indexObjects index).info value

lemma entry_of_added (h : store.Indexed) (hnone : store.record? key = none)
    (hsch : SameSchema store store') (hacc : store.AllAccept js value)
    (hadd : Added js key value store store') : Entry js key value store store' := by
  have hget : ∀ index, store.Registered index → ∀ k,
      (store'.indexObjects index).store.records.get? k =
        if k ∈ js.recordKeys (store.indexObjects index).info value then
          some (insert key ((store.indexObjects index).store.keysOf k))
        else (store.indexObjects index).store.records.get? k := by
    intro index hidx k
    rw [hadd.entered.store_eq index hidx]
    exact get?_addRecords (js.nodup_recordKeys _ _) (hacc index hidx) key k
  have hmem : ∀ index, store.Registered index → ∀ k pk,
      pk ∈ (store'.indexObjects index).store.keysOf k ↔
        pk ∈ (store.indexObjects index).store.keysOf k ∨
          pk = key ∧ k ∈ js.recordKeys (store.indexObjects index).info value := by
    intro index hidx k pk
    rw [hadd.entered.store_eq index hidx]
    exact mem_keysOf_addRecords (js.nodup_recordKeys _ _) (hacc index hidx) ..
  have hrec : ∀ k, k ≠ key → store'.record? k = store.record? k := by
    intro k hk
    rw [hadd.record?_eq, if_neg hk]
  have hnew : store'.record? key = some value := by simp [hadd.record?_eq]
  refine ⟨⟨hsch, hadd.entered.info, hrec, fun index hidx k pk hne => ?_⟩,
    ⟨h.wellFormed.of_added hsch hadd, fun index hidx k => ?_,
      fun index hidx k pk hk => ?_⟩, hnew, fun index hidx k => ?_⟩
  · rw [hmem index hidx]
    exact or_iff_left fun hkey => hne hkey.1
  · rw [hsch.registered_iff] at hidx
    rw [hget index hidx]
    split_ifs
    · simp
    · exact h.entry_ne index hidx k
  · rw [hsch.registered_iff] at hidx
    by_cases hne : pk = key
    · rw [hne, hnew]
      rfl
    · rw [hrec pk hne]
      rcases (hmem index hidx k pk).1 hk with hk | hk
      · exact h.isSome_of_mem index hidx k pk hk
      · exact absurd hk.1 hne
  · rw [hmem index hidx, and_iff_right rfl]
    -- no index had an entry of a key without a record
    refine or_iff_right fun hk => ?_
    have hsome := h.isSome_of_mem index hidx k key hk
    rw [hnone] at hsome
    cases hsome

/-- An index key that is taken out again had no other primary key. -/
lemma indexed_of_notAdded {ord : IterationOrder (String × IndexRef)} (h : store.Indexed)
    (hnone : store.record? key = none) (hsch : SameSchema store store')
    (hnotAdded : NotAdded js ord key value store store')
    (hcln : ∀ index ∈ store.acceptedRefs js value ord,
      ∀ k ∈ js.recordKeys (store.indexObjects index).info value,
        (store.indexObjects index).store.keysOf k = ∅) :
    ChangesOnly key store store' ∧ store'.Indexed := by
  have hinfo : ∀ index, (store'.indexObjects index).info = (store.indexObjects index).info := by
    intro index
    by_cases hidx : index ∈ store.acceptedRefs js value ord
    · exact (hnotAdded.reverted.accepted index hidx).1
    · exact (hnotAdded.reverted.other index hidx).1
  -- an accepted index loses the entries it got; an entry that is left empty is removed
  have hget : ∀ index k, (store'.indexObjects index).store.records.get? k =
        (store.indexObjects index).store.records.get? k ∨
      (store'.indexObjects index).store.records.get? k = none ∧
        (store.indexObjects index).store.keysOf k = ∅ := by
    intro index k
    by_cases hidx : index ∈ store.acceptedRefs js value ord
    · have hacc := acceptsRecord_of_mem hidx
      have hnd := js.nodup_recordKeys (store.indexObjects index).info value
      rw [(hnotAdded.reverted.accepted index hidx).2, get?_removeRecords hnd,
        get?_addRecords hnd hacc]
      · by_cases hk : k ∈ js.recordKeys (store.indexObjects index).info value
        · exact Or.inr ⟨if_pos hk, hcln index hidx k hk⟩
        · exact Or.inl ((if_neg hk).trans (if_neg hk))
      · exact fun k hk =>
          (mem_keysOf_addRecords hnd hacc ..).2 (.inr ⟨rfl, hk⟩)
    · exact Or.inl ((hnotAdded.reverted.other index hidx).2.1 k)
  have hkeysOf : ∀ index k, (store'.indexObjects index).store.keysOf k =
      (store.indexObjects index).store.keysOf k := by
    intro index k
    rcases hget index k with hk | ⟨hk, hemp⟩
    · rw [keysOf, hk, keysOf]
    · rw [hemp, keysOf, hk, Option.getD_none]
  have hrec : ∀ k, store'.record? k = store.record? k := by
    intro k
    rw [hnotAdded.record?_eq]
    split_ifs with hk
    · rw [hk, hnone]
    · rfl
  refine ⟨⟨hsch, hinfo, fun k _ => hrec k, fun index _ k pk _ => by rw [hkeysOf]⟩,
    ⟨⟨refsNodup_of_sameSchema hsch h.wellFormed.refs_nodup, fun k => ?_⟩,
      fun index hidx k => ?_, fun index hidx k pk hmem => ?_⟩⟩
  · rw [hnotAdded.keys_eq, Finset.mem_erase, h.wellFormed.mem_keys, hrec]
    refine and_iff_right_of_imp fun hk heq => ?_
    rw [heq, hnone] at hk
    cases hk
  · rw [hsch.registered_iff] at hidx
    rcases hget index k with hk | ⟨hk, -⟩
    · rw [hk]
      exact h.entry_ne index hidx k
    · simp [hk]
  · rw [hsch.registered_iff] at hidx
    rw [hkeysOf] at hmem
    rw [hrec]
    exact h.isSome_of_mem index hidx k pk hmem

/-! ### Stores that can be restored -/

/-- What holds of a store when a transaction begins. The indexes need not have all the keys of the
records, but they have no others. -/
structure Committed (js : Bindings Key Buffer JSValue) (store : MemoryObjectStore Key Buffer) :
    Prop where
  indexed : store.Indexed
  registered_iff : ∀ index, store.Registered index ↔
    ∃ identifier, (identifier, index) ∈ store.indexesByIdentifier.entries
  identifiers_nodup : (store.indexesByIdentifier.entries.map Prod.snd).Nodup
  mem_recordKeys : ∀ index, store.Registered index → ∀ k primaryKey recordValue,
    primaryKey ∈ (store.indexObjects index).store.keysOf k →
      store.record? primaryKey = some recordValue →
        k ∈ js.recordKeys (store.indexObjects index).info recordValue
  unique : ∀ index, store.Registered index → (store.indexObjects index).info.unique →
    ∀ k primaryKey primaryKey', primaryKey ∈ (store.indexObjects index).store.keysOf k →
      primaryKey' ∈ (store.indexObjects index).store.keysOf k → primaryKey = primaryKey'

/-- The store differs from the one at the beginning at noted keys only, and the noted values are
those at the beginning. -/
structure Restorable (start store : MemoryObjectStore Key Buffer)
    (noted : Key → Option (Option Buffer)) : Prop where
  indexed : store.Indexed
  schema : SameSchema start store
  info : ∀ index, (store.indexObjects index).info = (start.indexObjects index).info
  record?_of_noted : ∀ k v, noted k = some v → start.record? k = some v
  record?_eq : ∀ k, noted k = none → store.record? k = start.record? k
  mem_keysOf : ∀ index, start.Registered index → ∀ k primaryKey, noted primaryKey = none →
    (primaryKey ∈ (store.indexObjects index).store.keysOf k ↔
      primaryKey ∈ (start.indexObjects index).store.keysOf k)

variable {start : MemoryObjectStore Key Buffer} {noted noted' : Key → Option (Option Buffer)}

lemma restorable_self (h : start.Indexed) : Restorable start start fun _ => none :=
  ⟨h, .refl start, fun _ => rfl, (fun _ _ h => nomatch h), fun _ _ => rfl, fun _ _ _ _ _ => Iff.rfl⟩

/-- Changes at a key that is noted afterwards. -/
lemma Restorable.of_changesOnly (h : Restorable start store noted)
    (hch : ChangesOnly key store store') (hidxd : store'.Indexed)
    (hoth : ∀ k, k ≠ key → noted' k = noted k)
    (hkey : ∃ v, noted' key = some v ∧ start.record? key = some v) :
    Restorable start store' noted' := by
  obtain ⟨v, hv, hst⟩ := hkey
  have hne : ∀ {k}, noted' k = none → k ≠ key := by
    rintro k hk rfl
    rw [hv] at hk
    cases hk
  refine ⟨hidxd, h.schema.trans hch.schema, fun index => (hch.info index).trans (h.info index),
    fun k w hk => ?_, fun k hk => ?_, fun index hidx k pk hk => ?_⟩
  · by_cases heq : k = key
    · rw [heq, hv] at hk
      rw [heq, hst, Option.some.inj hk]
    · rw [hoth k heq] at hk
      exact h.record?_of_noted k w hk
  · rw [hch.record?_eq k (hne hk)]
    exact h.record?_eq k ((hoth k (hne hk)).symm.trans hk)
  · rw [hch.mem_keysOf index (h.schema.registered_iff.2 hidx) k pk (hne hk)]
    exact h.mem_keysOf index hidx k pk ((hoth _ (hne hk)).symm.trans hk)

/-! ### Replaying -/

/-- The noted values can be put back in any order: the indexes had all their keys, and no other
noted key holds one of their keys in a unique index. -/
structure Replayable (js : Bindings Key Buffer JSValue) (start store : MemoryObjectStore Key Buffer)
    (noted : Key → Option (Option Buffer)) : Prop where
  complete : ∀ key value, noted key = some value → ∀ index, start.Registered index →
    ∀ k ∈ js.recordKeys (start.indexObjects index).info value,
      key ∈ (start.indexObjects index).store.keysOf k
  free : ∀ key value, noted key = some value → ∀ index, start.Registered index →
    (start.indexObjects index).info.unique →
      ∀ k ∈ js.recordKeys (start.indexObjects index).info value, ∀ key', key' ≠ key →
        (noted key').isSome → key' ∉ (store.indexObjects index).store.keysOf k

/-- All indexes take a noted value when the record of its key is gone. -/
lemma allAccept_of_erased (hst : start.Committed js) (h : Restorable start store noted)
    (hrpl : Replayable js start store noted) (hntd : noted key = some value)
    (hers : Erased key store store') : store'.AllAccept js value := by
  intro index hidx k hk huniq
  rw [hers.changesOnly.schema.registered_iff] at hidx
  have hidx' : start.Registered index := h.schema.registered_iff.1 hidx
  rw [hers.changesOnly.info, h.info] at hk huniq
  have hemp : (store'.indexObjects index).store.keysOf k = ∅ := by
    refine Finset.eq_empty_of_forall_notMem fun pk hmem => ?_
    have hne : pk ≠ key := by
      rintro rfl
      exact hers.not_mem_keysOf index hidx k hmem
    rw [hers.changesOnly.mem_keysOf index hidx k pk hne] at hmem
    cases hoth : noted pk with
    | some other =>
      exact hrpl.free key value hntd index hidx' huniq k hk pk hne (by simp [hoth]) hmem
    | none =>
      -- an untouched record with the same unique key was there at the beginning
      rw [h.mem_keysOf index hidx' k pk hoth] at hmem
      exact hne (hst.unique index hidx' huniq k pk key hmem
        (hrpl.complete key value hntd index hidx' k hk))
  cases hget : (store'.indexObjects index).store.records.get? k with
  | none => rfl
  | some entry =>
    rw [keysOf, hget, Option.getD_some] at hemp
    rw [hemp] at hget
    exact absurd hget (hers.indexed.entry_ne index
      (hers.changesOnly.schema.registered_iff.2 hidx) k)

section

variable (ord : IterationOrder (String × IndexRef))
  (tx : MemoryBackingStoreTransaction Key Buffer)
  (ref : StoreRef)
  (hst : start.Committed js)

include ord tx ref hst

/-- One noted value is put back, and its key is as it was. -/
lemma replay_step (h : Restorable start store noted) (hrpl : Replayable js start store noted)
    (hntd : noted key = some value) :
    let store' := ((store.deleteRecord ord tx ref key).2.addRecord js ord key value).2
    Restorable start store' (Function.update noted key none) ∧
      Replayable js start store' (Function.update noted key none) := by
  have hers := erased_deleteRecord ord tx ref key h.indexed
  have hacc := allAccept_of_erased hst h hrpl hntd hers
  have hadd : Added js key value _
      ((store.deleteRecord ord tx ref key).2.addRecord js ord key value).2 :=
    (addRecord_of_allAccept hers.indexed.wellFormed.refs_nodup hacc).2
  have hsch := (sameSchema_addRecord js key value ord (store.deleteRecord ord tx ref key).2).1
  have hent := entry_of_added hers.indexed hers.record?_eq hsch hacc hadd
  -- together the two operations change nothing but the entries of `key`
  have hch := hers.changesOnly.trans hent.changesOnly
  have hoth : ∀ {k}, k ≠ key → Function.update noted key none k = noted k :=
    fun hk => update_of_ne hk _ _
  have hof : ∀ {k v}, Function.update noted key none k = some v → noted k = some v := by
    intro k v hk
    by_cases heq : k = key
    · rw [heq, update_self] at hk
      cases hk
    · rwa [hoth heq] at hk
  have hstartRecord := h.record?_of_noted key value hntd
  refine ⟨⟨hent.indexed, h.schema.trans hch.schema,
    fun index => (hch.info index).trans (h.info index),
    fun k v hk => h.record?_of_noted k v (hof hk), fun k hk => ?_, fun index hidx k pk hk => ?_⟩,
    ⟨fun k v hk => hrpl.complete k v (hof hk),
      fun k v hk index hidx huniq indexKey hmem key' hne hsome => ?_⟩⟩
  · by_cases heq : k = key
    · rw [heq, hent.record?_eq, hstartRecord]
    · rw [hoth heq] at hk
      rw [hch.record?_eq k heq, h.record?_eq k hk]
  · have hidx' : store.Registered index := h.schema.registered_iff.2 hidx
    by_cases heq : pk = key
    · rw [heq, hent.mem_keysOf index (hers.changesOnly.schema.registered_iff.2 hidx') k,
        hers.changesOnly.info, h.info]
      exact ⟨hrpl.complete key value hntd index hidx k,
        fun hmem => hst.mem_recordKeys index hidx k key value hmem hstartRecord⟩
    · rw [hoth heq] at hk
      rw [hch.mem_keysOf index hidx' k pk heq, h.mem_keysOf index hidx k pk hk]
  · obtain ⟨w, hw⟩ := Option.isSome_iff_exists.1 hsome
    have hkey' : key' ≠ key := by
      rintro rfl
      rw [update_self] at hw
      cases hw
    rw [hch.mem_keysOf index (h.schema.registered_iff.2 hidx) indexKey key' hkey']
    exact hrpl.free k v (hof hk) index hidx huniq indexKey hmem key' hne (by simp [hof hw])

/-- All noted values are put back, in whatever order. -/
lemma replayOriginalValues_spec {values : List (Key × Option Buffer)}
    (hnd : (values.map Prod.fst).Nodup) (hvals : ∀ k v, noted k = some v ↔ (k, v) ∈ values)
    (h : Restorable start store noted) (hrpl : Replayable js start store noted) :
    Restorable start (store.replayOriginalValues js ord tx ref values) fun _ => none := by
  induction values generalizing store noted with
  | nil =>
    have hnone : noted = fun _ => none := by
      funext k
      exact Option.eq_none_iff_forall_ne_some.2 fun v hk => nomatch (hvals k v).1 hk
    exact hnone ▸ h
  | cons entry values ih =>
    obtain ⟨key, value⟩ := entry
    obtain ⟨hnot, hnd⟩ := List.nodup_cons.1 hnd
    obtain ⟨h', hrpl'⟩ := replay_step ord tx ref hst h hrpl ((hvals key value).2 List.mem_cons_self)
    refine ih hnd (fun k v => ?_) h' hrpl'
    by_cases heq : k = key
    · rw [heq, update_self]
      exact iff_of_false (fun h => nomatch h) fun hmem =>
        hnot (List.mem_map.2 ⟨_, hmem, rfl⟩)
    · rw [update_of_ne heq, hvals, List.mem_cons, Prod.mk.injEq]
      exact or_iff_right fun hk => heq hk.1

end

end MemoryObjectStore

end WebKit.IndexedDB
