import WebKit.WTF.HashMap

/-!
# The indexes of an in-memory object store

An index maps index keys to the primary keys of the records that have them. It keeps two coupled
containers: a hash map from index keys to entries, and the ordered set of the index keys.
-/

namespace WebKit.IndexedDB

open WTF List

inductive ExceptionCode
  | ConstraintError
  | InvalidStateError
  | UnknownError
deriving DecidableEq, Repr

structure IDBError where
  code : ExceptionCode
  message : Option String := none
deriving DecidableEq, Repr

inductive IDBKeyPath
  | string (path : String)
  | array (paths : List String)
deriving DecidableEq, Repr

structure IDBIndexInfo where
  identifier : ℕ
  objectStoreIdentifier : ℕ
  name : String
  keyPath : IDBKeyPath
  unique : Bool
  multiEntry : Bool
deriving DecidableEq, Repr

/-! ### Entries and their store -/

variable {Key : Type*} [DecidableEq Key]

namespace IndexValueEntry

/-- An entry is the set of its primary keys. A unique entry has one key at most. -/
def addKey (unique : Bool) (keys : Finset Key) (key : Key) : Finset Key :=
  if unique then {key} else insert key keys

end IndexValueEntry

/-- The store of an index. Its `m_unique` is a copy of the index's, which is passed in here. -/
structure IndexValueStore (Key : Type*) where
  records : HashMap Key (Finset Key)
  orderedKeys : Finset Key

variable {keys : List Key} {key : Key}

namespace IndexValueStore

def empty : IndexValueStore Key := ⟨HashMap.empty, ∅⟩

def contains (store : IndexValueStore Key) (key : Key) : Bool := store.records.contains key

def addRecord (unique : Bool) (store : IndexValueStore Key) (indexKey valueKey : Key) :
    Option IDBError × IndexValueStore Key :=
  match store.records.get? indexKey with
  | some entry =>
    if unique then (some { code := .ConstraintError }, store)
    else
      (none,
        { records := store.records.set indexKey (IndexValueEntry.addKey unique entry valueKey)
          orderedKeys := insert indexKey store.orderedKeys })
  | none =>
    (none,
      { records := store.records.set indexKey (IndexValueEntry.addKey unique ∅ valueKey)
        orderedKeys := insert indexKey store.orderedKeys })

/-- The entry goes as a whole when the primary key was in it, and the index key stays in the
ordered set. -/
def removeRecord (store : IndexValueStore Key) (indexKey valueKey : Key) : IndexValueStore Key :=
  match store.records.get? indexKey with
  | none => store
  | some entry =>
    if valueKey ∈ entry then { store with records := store.records.remove indexKey } else store

/-- The index keys whose entry has no primary key but `valueKey`. -/
def entryKeysToRemove (store : IndexValueStore Key) (valueKey : Key) : List Key :=
  (store.records.entries.filter fun e => e.2.erase valueKey = ∅).map Prod.fst

def removeEntriesWithValueKey (store : IndexValueStore Key) (valueKey : Key) :
    IndexValueStore Key :=
  let keys := store.entryKeysToRemove valueKey
  { store with
    records := keys.foldl HashMap.remove (store.records.mapValues (·.erase valueKey))
    orderedKeys := keys.foldl Finset.erase store.orderedKeys }

/-- The primary keys of the records with an index key. -/
def keysOf (store : IndexValueStore Key) (indexKey : Key) : Finset Key :=
  (store.records.get? indexKey).getD ∅

@[simp] lemma get?_empty (key : Key) : (empty : IndexValueStore Key).records.get? key = none := rfl

@[simp] lemma keysOf_empty (key : Key) : (empty : IndexValueStore Key).keysOf key = ∅ := rfl

omit [DecidableEq Key] in
@[simp] lemma orderedKeys_empty : (empty : IndexValueStore Key).orderedKeys = ∅ := rfl

/-- The store takes a primary key for `indexKey`. -/
def Accepts (unique : Bool) (store : IndexValueStore Key) (indexKey : Key) : Prop :=
  unique = true → store.records.get? indexKey = none

instance (unique : Bool) (store : IndexValueStore Key) (indexKey : Key) :
    Decidable (store.Accepts unique indexKey) := inferInstanceAs (Decidable (_ → _))

variable {unique : Bool}

lemma addRecord_fst (store : IndexValueStore Key) (ik vk : Key) :
    (store.addRecord unique ik vk).1 =
      if store.Accepts unique ik then none else some { code := .ConstraintError } := by
  unfold addRecord
  cases hget : store.records.get? ik with
  | none => simp [Accepts, hget]
  | some entry => cases unique <;> simp [Accepts, hget]

variable {store : IndexValueStore Key} {ik : Key}

lemma addRecord_of_not_accepts (h : ¬store.Accepts unique ik) (vk : Key) :
    (store.addRecord unique ik vk).2 = store := by
  obtain ⟨huniq, hget⟩ := Classical.not_imp.1 h
  obtain ⟨entry, hent⟩ := Option.ne_none_iff_exists'.1 hget
  simp [addRecord, hent, huniq]

lemma get?_addRecord (h : store.Accepts unique ik) (vk key : Key) :
    (store.addRecord unique ik vk).2.records.get? key =
      if key = ik then some (insert vk (store.keysOf ik))
      else store.records.get? key := by
  unfold addRecord
  cases hget : store.records.get? ik with
  | none => cases unique <;> simp [keysOf, hget, IndexValueEntry.addKey]
  | some entry =>
    cases unique with
    | false => simp [keysOf, hget, IndexValueEntry.addKey]
    | true => rw [h rfl] at hget; cases hget

lemma orderedKeys_addRecord (h : store.Accepts unique ik) (vk : Key) :
    (store.addRecord unique ik vk).2.orderedKeys = insert ik store.orderedKeys := by
  unfold addRecord
  cases hget : store.records.get? ik with
  | none => rfl
  | some entry =>
    cases unique with
    | false => rfl
    | true => rw [h rfl] at hget; cases hget

lemma get?_removeRecord {ik vk : Key} (h : vk ∈ store.keysOf ik) (key : Key) :
    (store.removeRecord ik vk).records.get? key =
      if key = ik then none else store.records.get? key := by
  cases hget : store.records.get? ik with
  | none => simp [keysOf, hget] at h
  | some entry =>
    have hmem : vk ∈ entry := by simpa [keysOf, hget] using h
    simp [removeRecord, hget, hmem]

@[simp] lemma orderedKeys_removeRecord (ik vk : Key) :
    (store.removeRecord ik vk).orderedKeys = store.orderedKeys := by
  unfold removeRecord
  split
  · rfl
  · split_ifs <;> rfl

/-! ### Several index keys for one record -/

def addRecords (unique : Bool) (store : IndexValueStore Key) (keys : List Key) (valueKey : Key) :
    IndexValueStore Key :=
  keys.foldl (fun store key => (store.addRecord unique key valueKey).2) store

def removeRecords (store : IndexValueStore Key) (keys : List Key) (valueKey : Key) :
    IndexValueStore Key :=
  keys.foldl (fun store key => store.removeRecord key valueKey) store

/-- Adding one key leaves the others acceptable. -/
lemma accepts_addRecord (hnot : ik ∉ keys) (h : ∀ key ∈ ik :: keys, store.Accepts unique key)
    (vk : Key) : ∀ key ∈ keys, (store.addRecord unique ik vk).2.Accepts unique key := by
  intro key hkey huniq
  have hne : key ≠ ik := fun heq => hnot (heq ▸ hkey)
  rw [get?_addRecord (h ik mem_cons_self), if_neg hne]
  exact h key (mem_cons_of_mem _ hkey) huniq

section

variable (hnd : keys.Nodup) (h : ∀ key ∈ keys, store.Accepts unique key)

include hnd h

lemma get?_addRecords (vk key : Key) :
    (store.addRecords unique keys vk).records.get? key =
      if key ∈ keys then some (insert vk (store.keysOf key))
      else store.records.get? key := by
  induction keys generalizing store with
  | nil => simp [addRecords]
  | cons ik keys ih =>
    obtain ⟨hnot, hnd⟩ := nodup_cons.1 hnd
    have hhead := h ik mem_cons_self
    change ((store.addRecord unique ik vk).2.addRecords unique keys vk).records.get? key = _
    rw [ih hnd (accepts_addRecord hnot h vk)]
    by_cases hkey : key ∈ keys
    · have hne : key ≠ ik := fun heq => hnot (heq ▸ hkey)
      simp [keysOf, get?_addRecord hhead, hne]
    · rw [if_neg hkey, get?_addRecord hhead]
      by_cases heq : key = ik
      · simp [heq]
      · simp [heq, hkey]

lemma mem_keysOf_addRecords (vk key pk : Key) :
    pk ∈ (store.addRecords unique keys vk).keysOf key ↔
      pk ∈ store.keysOf key ∨ pk = vk ∧ key ∈ keys := by
  rw [keysOf, get?_addRecords hnd h]
  by_cases hkey : key ∈ keys
  · simp [hkey, or_comm]
  · simp [hkey, keysOf]

lemma orderedKeys_addRecords (vk : Key) :
    (store.addRecords unique keys vk).orderedKeys = store.orderedKeys ∪ keys.toFinset := by
  induction keys generalizing store with
  | nil => simp [addRecords]
  | cons ik keys ih =>
    obtain ⟨hnot, hnd⟩ := nodup_cons.1 hnd
    change ((store.addRecord unique ik vk).2.addRecords unique keys vk).orderedKeys = _
    rw [ih hnd (accepts_addRecord hnot h vk), orderedKeys_addRecord (h ik mem_cons_self)]
    simp

end

lemma get?_removeRecords {vk : Key}
    (hnd : keys.Nodup) (h : ∀ key ∈ keys, vk ∈ store.keysOf key) (key : Key) :
    (store.removeRecords keys vk).records.get? key =
      if key ∈ keys then none else store.records.get? key := by
  induction keys generalizing store with
  | nil => simp [removeRecords]
  | cons ik keys ih =>
    obtain ⟨hnot, hnd⟩ := nodup_cons.1 hnd
    have hhead := h ik mem_cons_self
    have htail : ∀ k ∈ keys, vk ∈ (store.removeRecord ik vk).keysOf k := by
      intro k hk
      have hne : k ≠ ik := fun heq => hnot (heq ▸ hk)
      simpa [keysOf, get?_removeRecord hhead, hne] using h k (mem_cons_of_mem _ hk)
    change ((store.removeRecord ik vk).removeRecords keys vk).records.get? key = _
    rw [ih hnd htail, get?_removeRecord hhead]
    by_cases hkey : key ∈ keys
    · simp [hkey]
    · by_cases heq : key = ik <;> simp [heq]

@[simp] lemma orderedKeys_removeRecords (store : IndexValueStore Key) (keys : List Key)
    (vk : Key) : (store.removeRecords keys vk).orderedKeys = store.orderedKeys := by
  induction keys generalizing store with
  | nil => rfl
  | cons key keys ih => exact (ih _).trans (orderedKeys_removeRecord key vk)

@[simp] lemma removeRecords_empty (vk : Key) :
    (empty : IndexValueStore Key).removeRecords keys vk = empty := by
  induction keys with
  | nil => rfl
  | cons key keys ih => exact ih

/-! ### Removing a record from all entries -/

lemma mem_foldl_erase (s : Finset Key) (key : Key) :
    key ∈ keys.foldl Finset.erase s ↔ key ∈ s ∧ key ∉ keys := by
  induction keys generalizing s with
  | nil => simp
  | cons k keys ih =>
    rw [foldl_cons, ih, Finset.mem_erase, mem_cons]
    tauto

lemma mem_entryKeysToRemove {vk : Key} : key ∈ store.entryKeysToRemove vk ↔
      ∃ entry, store.records.get? key = some entry ∧ entry.erase vk = ∅ := by
  simp [entryKeysToRemove, HashMap.get?_eq_some_iff]

lemma get?_removeEntriesWithValueKey (vk key : Key) :
    (store.removeEntriesWithValueKey vk).records.get? key =
      if (store.keysOf key).erase vk = ∅ then none
      else some ((store.keysOf key).erase vk) := by
  change ((store.entryKeysToRemove vk).foldl HashMap.remove _).get? key = _
  simp only [HashMap.get?_foldl_remove, mem_entryKeysToRemove]
  cases hget : store.records.get? key with
  | none => simp [keysOf, hget]
  | some entry => simp [keysOf, hget]

@[simp] lemma keysOf_removeEntries (vk key : Key) :
    (store.removeEntriesWithValueKey vk).keysOf key = (store.keysOf key).erase vk := by
  rw [keysOf, get?_removeEntriesWithValueKey]
  split_ifs with h
  · simp [h]
  · rfl

lemma mem_orderedKeys_removeEntries {vk : Key} :
    key ∈ (store.removeEntriesWithValueKey vk).orderedKeys ↔
      key ∈ store.orderedKeys ∧
        ∀ entry, store.records.get? key = some entry → entry.erase vk ≠ ∅ := by
  change key ∈ (store.entryKeysToRemove vk).foldl Finset.erase store.orderedKeys ↔ _
  rw [mem_foldl_erase, mem_entryKeysToRemove]
  simp

/-- The ordered set has the keys that have an entry, and no entry is empty. -/
structure Tidy (store : IndexValueStore Key) : Prop where
  entry_ne : ∀ key, store.records.get? key ≠ some ∅
  mem_orderedKeys : ∀ key, key ∈ store.orderedKeys ↔ (store.keysOf key).Nonempty

lemma tidy_empty : (empty : IndexValueStore Key).Tidy where
  entry_ne key := by simp
  mem_orderedKeys key := by simp

lemma Tidy.removeEntriesWithValueKey (h : store.Tidy)
    (vk : Key) : (store.removeEntriesWithValueKey vk).Tidy where
  entry_ne key := by
    rw [get?_removeEntriesWithValueKey]
    split_ifs with hemp
    · simp
    · simpa using hemp
  mem_orderedKeys key := by
    rw [mem_orderedKeys_removeEntries, keysOf_removeEntries, h.mem_orderedKeys, keysOf]
    cases hget : store.records.get? key with
    | none => simp
    | some entry =>
      simp only [Option.some.injEq, forall_eq', ← Finset.nonempty_iff_ne_empty]
      exact ⟨And.right, fun hne => ⟨hne.mono (Finset.erase_subset _ _), hne⟩⟩

lemma Tidy.addRecords (htidy : store.Tidy)
    (hnd : keys.Nodup) (h : ∀ key ∈ keys, store.Accepts unique key) (vk : Key) :
    (store.addRecords unique keys vk).Tidy where
  entry_ne key := by
    rw [get?_addRecords hnd h]
    split_ifs with hkey
    · simp
    · exact htidy.entry_ne key
  mem_orderedKeys key := by
    rw [orderedKeys_addRecords hnd h, Finset.mem_union, htidy.mem_orderedKeys, keysOf, keysOf,
      get?_addRecords hnd h]
    by_cases hkey : key ∈ keys <;> simp [hkey]

end IndexValueStore

/-! ### Index keys of a value -/

/-- What the stores ask of the script bindings and of the keys. -/
structure Bindings (Key Buffer JSValue : Type*) where
  undefined : JSValue
  isUndefined : JSValue → Bool
  isNull : JSValue → Bool
  isUndefined_undefined : isUndefined undefined = true
  /-- The value of a stored buffer. -/
  deserialize : Buffer → JSValue
  /-- The buffer of a value, unless serializing it throws. -/
  serialize : JSValue → Option Buffer
  /-- `internalCreateIDBKeyFromScriptValueAndKeyPath`. -/
  keyOnPath : JSValue → String → Option Key
  /-- `injectIDBKeyIntoScriptValue`, with the changed value. -/
  injectKey : Key → JSValue → IDBKeyPath → Option JSValue
  /-- `IDBKey::isValid`: neither the key nor an element of it is invalid. -/
  isValid : Key → Bool
  /-- `IDBKeyData::isValid` looks at the type of the key alone. -/
  isValidType : Key → Bool
  nullKey : Key
  /-- The key made of several keys. -/
  arrayKey : List Key → Key
  /-- The elements of a key of type `Array`. -/
  array? : Key → Option (List Key)
  numberKey : ℕ → Key
  isValidType_numberKey : ∀ number, isValidType (numberKey number) = true
  /-- The number of a key of type `Number`. -/
  number? : Key → Option Float

namespace Bindings

variable {Buffer JSValue : Type*} (js : Bindings Key Buffer JSValue)

def deserializeIDBValueToJSValue : Option Buffer → JSValue
  | none => js.undefined
  | some data => js.deserialize data

def isUndefinedOrNull (value : JSValue) : Bool := js.isUndefined value || js.isNull value

def createKeyPathArray (info : IDBIndexInfo) (value : JSValue) : List Key :=
  match info.keyPath with
  | .string path =>
    match js.keyOnPath value path with
    | none => []
    | some key =>
      match js.array? key with
      | some keys => if info.multiEntry then keys else [key]
      | none => [key]
  | .array paths => (paths.mapM fun path => (js.keyOnPath value path).filter js.isValid).getD []

/-- The keys of the `IndexKey`; the null key has none. -/
def generateIndexKeyForValue (info : IDBIndexInfo) (value : JSValue) : List Key :=
  js.createKeyPathArray info value

/-- `IndexKey::asOneKey`. -/
def asOneKey : List Key → Key
  | [] => js.nullKey
  | [key] => key
  | keys => js.arrayKey keys

/-- `IndexKey::multiEntry`. -/
def multiEntry (keys : List Key) : List Key :=
  keys.foldl
    (fun result key => if !js.isValidType key || key ∈ result then result else result ++ [key]) []

/-- The keys under which an index enters a record with the index key `indexKey`. -/
def enteredKeys (info : IDBIndexInfo) (indexKey : List Key) : List Key :=
  if info.multiEntry then js.multiEntry indexKey else [js.asOneKey indexKey]

lemma nodup_multiEntry : (js.multiEntry keys).Nodup := by
  refine foldlRecOn keys _ nodup_nil fun result h key _ => ?_
  split_ifs with hskip
  · exact h
  · have hnot : key ∉ result := by simp_all
    exact nodup_append_comm.1 (nodup_cons.2 ⟨hnot, h⟩)

lemma mem_multiEntry : key ∈ js.multiEntry keys ↔ key ∈ keys ∧ js.isValidType key := by
  refine (foldl_iff (P := (key ∈ ·)) (Q := fun k => key = k ∧ js.isValidType k)
    (fun result k _ => ?_) []).trans (by simp)
  by_cases hk : key = k
  · subst hk
    by_cases hvld : js.isValidType key <;> by_cases hmem : key ∈ result <;> simp [hvld, hmem]
  · split_ifs <;> simp [hk]

lemma nodup_enteredKeys (info : IDBIndexInfo) (ik : List Key) : (js.enteredKeys info ik).Nodup := by
  unfold enteredKeys
  split_ifs
  · exact js.nodup_multiEntry
  · exact nodup_singleton _

end Bindings

/-- Numbers as keys, buffers and values. A value is its own index key, and `0` is null. -/
def Bindings.ofNat : Bindings ℕ ℕ (Option ℕ) where
  undefined := none
  isUndefined := Option.isNone
  isNull value := value = some 0
  isUndefined_undefined := rfl
  deserialize := some
  serialize := id
  keyOnPath value _ := value
  injectKey _ value _ := some value
  isValid _ := true
  isValidType _ := true
  isValidType_numberKey _ := rfl
  nullKey := 0
  arrayKey := List.sum
  array? _ := none
  numberKey := id
  number? _ := none

/-! ### Indexes -/

structure MemoryIndex (Key : Type*) where
  info : IDBIndexInfo
  records : Option (IndexValueStore Key)

namespace MemoryIndex

variable {Buffer JSValue : Type*} (js : Bindings Key Buffer JSValue)

def putIndexKey (index : MemoryIndex Key) (valueKey : Key) (indexKey : List Key) :
    Option IDBError × MemoryIndex Key :=
  let records := index.records.getD .empty
  if index.info.multiEntry then
    let keys := js.multiEntry indexKey
    if index.info.unique && keys.any records.contains then
      (some { code := .ConstraintError }, { index with records := some records })
    else
      (none, { index with records := some (records.addRecords index.info.unique keys valueKey) })
  else
    let result := records.addRecord index.info.unique (js.asOneKey indexKey) valueKey
    (result.1, { index with records := some result.2 })

def removeRecord (index : MemoryIndex Key) (valueKey : Key) (indexKey : List Key) :
    MemoryIndex Key :=
  if index.info.multiEntry then
    { index with
      records := index.records.map (·.removeRecords (js.multiEntry indexKey) valueKey) }
  else
    { index with
      records := index.records.map (·.removeRecord (js.asOneKey indexKey) valueKey) }

def removeEntriesWithValueKey (index : MemoryIndex Key) (valueKey : Key) : MemoryIndex Key :=
  { index with records := index.records.map (·.removeEntriesWithValueKey valueKey) }

/-- The contents of an index; no store is an empty store. -/
def store (index : MemoryIndex Key) : IndexValueStore Key := index.records.getD .empty

/-- The index takes a record with the keys `keys`. -/
def Accepts (index : MemoryIndex Key) (keys : List Key) : Prop :=
  ∀ key ∈ keys, index.store.Accepts index.info.unique key

instance (index : MemoryIndex Key) (keys : List Key) : Decidable (index.Accepts keys) :=
  List.decidableBAll _ keys

variable {index : MemoryIndex Key}

lemma accepts_iff :
    index.Accepts keys ↔ ¬(index.info.unique && keys.any index.store.contains) = true := by
  simp only [IndexValueStore.contains, Bool.and_eq_true,
    any_eq_true, not_and, not_exists, Bool.not_eq_true, HashMap.not_contains_iff]
  exact ⟨fun h huniq key hkey => h key hkey huniq, fun h key hkey huniq => h huniq key hkey⟩

variable (vk : Key)

variable (ik : List Key)

/-- Single and multiple entries alike: the keys are entered together or not at all. -/
lemma putIndexKey_eq :
    index.putIndexKey js vk ik =
      if index.Accepts (js.enteredKeys index.info ik) then
        (none, { index with
          records := some (index.store.addRecords index.info.unique
            (js.enteredKeys index.info ik) vk) })
      else (some { code := .ConstraintError }, { index with records := some index.store }) := by
  cases hmulti : index.info.multiEntry with
  | true =>
    simp only [putIndexKey, Bindings.enteredKeys, hmulti, accepts_iff, ite_not]
    rfl
  | false =>
    have hone : index.Accepts [js.asOneKey ik] ↔
        index.store.Accepts index.info.unique (js.asOneKey ik) := by simp [Accepts]
    simp only [putIndexKey, Bindings.enteredKeys, hmulti, Bool.false_eq_true, if_false, hone]
    split_ifs with h
    · exact Prod.ext ((IndexValueStore.addRecord_fst _ _ _).trans (if_pos h)) rfl
    · refine Prod.ext ((IndexValueStore.addRecord_fst _ _ _).trans (if_neg h)) ?_
      exact congrArg (fun r => MemoryIndex.mk index.info (some r))
        (IndexValueStore.addRecord_of_not_accepts h vk)

lemma putIndexKey_fst :
    (index.putIndexKey js vk ik).1 =
      if index.Accepts (js.enteredKeys index.info ik) then none
      else some { code := .ConstraintError } := by
  rw [putIndexKey_eq]
  split_ifs <;> rfl

@[simp] lemma info_putIndexKey : (index.putIndexKey js vk ik).2.info = index.info := by
  rw [putIndexKey_eq]
  split_ifs <;> rfl

variable {ik : List Key}

lemma store_putIndexKey (h : index.Accepts (js.enteredKeys index.info ik)) (vk : Key) :
    (index.putIndexKey js vk ik).2.store =
      index.store.addRecords index.info.unique (js.enteredKeys index.info ik) vk := by
  rw [putIndexKey_eq, if_pos h]
  rfl

lemma store_putIndexKey_of_not (h : ¬index.Accepts (js.enteredKeys index.info ik))
    (vk : Key) : (index.putIndexKey js vk ik).2.store = index.store := by
  rw [putIndexKey_eq, if_neg h]
  rfl

@[simp] lemma info_removeRecord : (index.removeRecord js vk ik).info = index.info := by
  unfold removeRecord
  split_ifs <;> rfl

lemma store_removeRecord :
    (index.removeRecord js vk ik).store =
      index.store.removeRecords (js.enteredKeys index.info ik) vk := by
  unfold removeRecord Bindings.enteredKeys
  cases hrecs : index.records with
  | none => split_ifs <;> simp [store, hrecs]
  | some records => split_ifs <;> simp [store, hrecs, IndexValueStore.removeRecords]

@[simp] lemma info_removeEntries : (index.removeEntriesWithValueKey vk).info = index.info := rfl

lemma store_removeEntries :
    (index.removeEntriesWithValueKey vk).store = index.store.removeEntriesWithValueKey vk := by
  cases hrecs : index.records with
  | none => simp [removeEntriesWithValueKey, store, hrecs]; rfl
  | some records => simp [removeEntriesWithValueKey, store, hrecs]

end MemoryIndex

end WebKit.IndexedDB
