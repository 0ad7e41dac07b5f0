import Mathlib

/-!
# The order in which transactions are started

Transactions wait in the order in which they were enqueued. Each time the timer fires, one that can
run is taken. Those that cannot are skipped, and only the scopes of the skipped readwrite ones hold
back what comes after them.
-/

namespace WebKit.IndexedDB

open Finset
open List hiding disjoint_left

/-- `IDBTransactionMode` without the version change, which is not enqueued. -/
inductive UniqueIDBDatabase.Mode where
  | readonly
  | readwrite
  deriving DecidableEq

open UniqueIDBDatabase.Mode

def scopesOverlap {T : Type} [Membership ℕ T] (aScopes : T) (bScopes : Finset ℕ) : Prop :=
  ∃ scope ∈ bScopes, scope ∈ aScopes

instance {T : Type} [Membership ℕ T] (aScopes : T) [∀ n, Decidable (n ∈ aScopes)]
    (bScopes : Finset ℕ) : Decidable (scopesOverlap aScopes bScopes) :=
  inferInstanceAs (Decidable (∃ scope ∈ bScopes, scope ∈ aScopes))

/-- Transactions are numbered in the order of enqueueing. No identifier of an object store comes
twice, and the loops over them do not depend on their order. -/
structure UniqueIDBDatabase.Transaction where
  identifier : ℕ
  mode : UniqueIDBDatabase.Mode
  objectStores : Finset ℕ
  deriving DecidableEq

/-- The part of the state of a database that its scheduler uses, with the number of transactions
enqueued so far. -/
structure UniqueIDBDatabase where
  supportsSimultaneousTransactions : Bool
  pending : List UniqueIDBDatabase.Transaction := []
  inProgress : Finset UniqueIDBDatabase.Transaction := ∅
  finishing : Finset UniqueIDBDatabase.Transaction := ∅
  transactionCounts : Multiset ℕ := 0
  writeTransactions : Finset ℕ := ∅
  enqueued : ℕ := 0

namespace UniqueIDBDatabase

variable (db : UniqueIDBDatabase)

def hasUnfinishedTransactions : Bool := db.inProgress ≠ ∅ || db.finishing ≠ ∅

def hasOverlappingScopes (deferredReadWriteScopes : Finset ℕ) (t : Transaction) : Bool :=
  match t.mode with
  | readonly =>
    scopesOverlap deferredReadWriteScopes t.objectStores ||
      scopesOverlap db.writeTransactions t.objectStores
  | readwrite =>
    scopesOverlap db.transactionCounts t.objectStores ||
      scopesOverlap deferredReadWriteScopes t.objectStores

/-- The loop over the pending transactions. It gives the transaction to run and what is pending
afterwards. -/
def takeNextRunnableLoop :
    Finset ℕ → List Transaction → List Transaction → Option Transaction × List Transaction
  | _, deferred, [] => (none, deferred)
  | scopes, deferred, t :: pending =>
    if db.hasOverlappingScopes scopes t then
      takeNextRunnableLoop (if t.mode = readwrite then scopes ∪ t.objectStores else scopes)
        (deferred ++ [t]) pending
    else (some t, deferred ++ pending)

def takeNextRunnableTransaction : Option Transaction × List Transaction :=
  if !db.supportsSimultaneousTransactions && db.hasUnfinishedTransactions then (none, db.pending)
  else db.takeNextRunnableLoop ∅ [] db.pending

def enqueueTransaction (mode : Mode) (objectStores : Finset ℕ) : UniqueIDBDatabase :=
  { db with
    pending := db.pending ++ [⟨db.enqueued, mode, objectStores⟩]
    enqueued := db.enqueued + 1 }

def operationAndTransactionTimerFired : UniqueIDBDatabase :=
  match db.takeNextRunnableTransaction with
  | (none, pending) => { db with pending }
  | (some t, pending) =>
    { db with
      pending
      inProgress := insert t db.inProgress
      transactionCounts := db.transactionCounts + t.objectStores.val
      writeTransactions :=
        if t.mode = readonly then db.writeTransactions else db.writeTransactions ∪ t.objectStores }

def prepareToFinishTransaction (t : Transaction) : UniqueIDBDatabase :=
  if t ∈ db.inProgress then
    { db with inProgress := db.inProgress.erase t, finishing := insert t db.finishing }
  else db

/-- A transaction that was finishing is taken out when its commit or abort is done. -/
def transactionCompleted (t : Transaction) : UniqueIDBDatabase :=
  if t ∈ db.finishing then
    { db with
      finishing := db.finishing.erase t
      transactionCounts := db.transactionCounts - t.objectStores.val
      writeTransactions :=
        if t.mode = readonly then db.writeTransactions else db.writeTransactions \ t.objectStores }
  else db

inductive Event where
  | enqueue (mode : Mode) (objectStores : Finset ℕ)
  | timerFired
  | prepareToFinish (t : Transaction)
  | completed (t : Transaction)

def step : Event → UniqueIDBDatabase
  | .enqueue mode objectStores => db.enqueueTransaction mode objectStores
  | .timerFired => db.operationAndTransactionTimerFired
  | .prepareToFinish t => db.prepareToFinishTransaction t
  | .completed t => db.transactionCompleted t

/-- The state after a sequence of events, with a backing store that supports simultaneous
transactions. -/
def run (events : List Event) : UniqueIDBDatabase := events.foldl step ⟨true, [], ∅, ∅, 0, ∅, 0⟩

/-- The transactions that were started and have not been completed. -/
def started : Finset Transaction := db.inProgress ∪ db.finishing

def Unfinished (t : Transaction) : Prop := t ∈ db.pending ∨ t ∈ db.started

/-- The scopes of two transactions overlap, and one of the two is readwrite. -/
def Transaction.Conflicts (t u : Transaction) : Prop :=
  (t.mode = readwrite ∨ u.mode = readwrite) ∧ scopesOverlap t.objectStores u.objectStores

/-- The transaction that the timer would start now has no conflict with one that was enqueued
earlier and has not finished. -/
def StartsInOrder : Prop :=
  ∀ u, db.takeNextRunnableTransaction.1 = some u → ∀ t, db.Unfinished t →
    t.identifier < u.identifier → ¬ t.Conflicts u

/-- What holds of the scheduler after any events, where `C` holds of the modes and scopes that were
enqueued. -/
structure Inv (C : Mode → Finset ℕ → Prop) : Prop where
  sorted : db.pending.Pairwise (·.identifier < ·.identifier)
  unfinished : ∀ t, db.Unfinished t → t.identifier < db.enqueued ∧ C t.mode t.objectStores
  not_started : ∀ t ∈ db.pending, t ∉ db.started
  disjoint : Disjoint db.inProgress db.finishing
  counts : db.transactionCounts = ∑ t ∈ db.started, t.objectStores.val
  writes : ∀ s, s ∈ db.writeTransactions ↔ ∃ t ∈ db.started, t.mode = readwrite ∧ s ∈ t.objectStores
  exclusive : (db.started : Set Transaction).Pairwise fun t u => ¬ t.Conflicts u

variable {db} {C : Mode → Finset ℕ → Prop} {t u : Transaction}
  {pending deferred : List Transaction} {scopes : Finset ℕ}

lemma Transaction.Conflicts.symm (h : t.Conflicts u) : u.Conflicts t :=
  ⟨h.1.symm, h.2.imp fun _ => And.symm⟩

variable {rest : List Transaction}

namespace Inv

variable (h : db.Inv C)

include h

/-- A transaction is held back by the scopes that are deferred and by what was started. -/
lemma overlapping_iff : db.hasOverlappingScopes scopes t ↔
    scopesOverlap scopes t.objectStores ∨ ∃ w ∈ db.started, w.Conflicts t := by
  have hc : ∀ s, s ∈ db.transactionCounts ↔ ∃ t ∈ db.started, s ∈ t.objectStores := by
    simp [h.counts]
  unfold hasOverlappingScopes Transaction.Conflicts
  cases hm : t.mode <;> simp only [scopesOverlap, h.writes]
  all_goals grind

/-- The transaction that is taken stands behind those that are deferred, and the scopes of the
readwrite ones among these are considered. -/
lemma loop_eq_some (hu : db.takeNextRunnableLoop scopes deferred pending = (some u, rest)) :
    ∃ before after scopes', pending = before ++ u :: after ∧ rest = deferred ++ (before ++ after) ∧
      (∀ s, s ∈ scopes' ↔ s ∈ scopes ∨ ∃ w ∈ before, w.mode = readwrite ∧ s ∈ w.objectStores) ∧
      ¬ db.hasOverlappingScopes scopes' u ∧ ∀ t ∈ before, db.hasOverlappingScopes scopes' t := by
  induction pending generalizing scopes deferred with
  | nil => cases hu
  | cons t pending ih =>
    rw [takeNextRunnableLoop] at hu
    split at hu
    case isTrue ht =>
      obtain ⟨before, after, scopes', rfl, rfl, hmem, hrun, hdef⟩ := ih hu
      have hmem' : ∀ s, s ∈ scopes' ↔
          s ∈ scopes ∨ ∃ w ∈ t :: before, w.mode = readwrite ∧ s ∈ w.objectStores := by
        intro s
        rw [hmem]
        split <;> simp [*, or_assoc]
      refine ⟨t :: before, after, scopes', rfl, by simp, hmem', hrun, ?_⟩
      refine forall_mem_cons.2 ⟨?_, hdef⟩
      rw [h.overlapping_iff] at ht ⊢
      exact ht.imp_left fun ⟨s, hs, hsc⟩ => ⟨s, hs, (hmem' s).2 (.inl hsc)⟩
    case isFalse ht =>
      cases hu
      exact ⟨[], pending, scopes, rfl, rfl, by simp, ht, by simp⟩

end Inv

lemma loop_eq_none (hu : db.takeNextRunnableLoop scopes deferred pending = (none, rest)) :
    rest = deferred ++ pending := by
  induction pending generalizing scopes deferred with
  | nil => simpa [takeNextRunnableLoop] using hu.symm
  | cons t pending ih =>
    rw [takeNextRunnableLoop] at hu
    split at hu
    · simpa using ih hu
    · cases hu

lemma take_eq_none (hu : db.takeNextRunnableTransaction = (none, rest)) : rest = db.pending := by
  unfold takeNextRunnableTransaction at hu
  split at hu
  · exact (Prod.mk.inj hu).2.symm
  · exact loop_eq_none hu

lemma Inv.take_eq_some (h : db.Inv C) (hu : db.takeNextRunnableTransaction = (some u, rest)) :
    ∃ before after scopes, db.pending = before ++ u :: after ∧ rest = before ++ after ∧
      (∀ s, s ∈ scopes ↔ ∃ w ∈ before, w.mode = readwrite ∧ s ∈ w.objectStores) ∧
      ¬ db.hasOverlappingScopes scopes u ∧ ∀ t ∈ before, db.hasOverlappingScopes scopes t := by
  unfold takeNextRunnableTransaction at hu
  split at hu
  · cases hu
  · simpa using h.loop_eq_some hu

lemma Inv.lt_of_eq_append (h : db.Inv C) {before after : List Transaction}
    (hp : db.pending = before ++ u :: after) :
    (∀ t ∈ before, t.identifier < u.identifier) ∧ ∀ t ∈ after, u.identifier < t.identifier := by
  obtain ⟨-, hafter, hbefore⟩ := pairwise_append.1 (hp ▸ h.sorted)
  exact ⟨fun t ht => hbefore t ht u mem_cons_self, (pairwise_cons.1 hafter).1⟩

lemma Inv.timerFired (h : db.Inv C) : db.operationAndTransactionTimerFired.Inv C := by
  unfold operationAndTransactionTimerFired
  split
  case h_1 rest hu =>
    rw [take_eq_none hu]
    exact h
  case h_2 u rest hu =>
    obtain ⟨before, after, scopes, hp, rfl, -, hrun, -⟩ := h.take_eq_some hu
    have hu : u ∈ db.pending := by simp [hp]
    have hns : u ∉ db.started := h.not_started u hu
    have hrest : ∀ t ∈ before ++ after, t ∈ db.pending ∧ t ≠ u := by
      obtain ⟨hlt, hgt⟩ := h.lt_of_eq_append hp
      intro t ht
      rw [mem_append] at ht
      refine ⟨by rw [hp, mem_append]; exact ht.imp_right (mem_cons_of_mem u), ?_⟩
      rintro rfl
      exact ht.elim (fun ht => (hlt t ht).false) fun ht => (hgt t ht).false
    -- the transaction that starts overlaps none that has started
    rw [h.overlapping_iff, not_or, not_exists] at hrun
    have hins : insert u db.inProgress ∪ db.finishing = insert u db.started := insert_union ..
    constructor
    case sorted => exact h.sorted.sublist (by simp [hp])
    case disjoint =>
      exact disjoint_insert_left.2 ⟨fun hf => hns (mem_union_right _ hf), h.disjoint⟩
    all_goals simp only [Unfinished, started]; rw [hins]
    case unfinished =>
      intro t ht
      refine h.unfinished t ?_
      rw [mem_insert] at ht
      rcases ht with ht | rfl | ht
      · exact .inl (hrest t ht).1
      · exact .inl hu
      · exact .inr ht
    case not_started =>
      intro t ht
      rw [mem_insert, not_or]
      exact ⟨(hrest t ht).2, h.not_started t (hrest t ht).1⟩
    case counts => rw [sum_insert hns, ← h.counts, add_comm]
    case writes =>
      cases hm : u.mode <;> simp [hm, h.writes, or_comm]
    case exclusive =>
      rw [coe_insert, Set.pairwise_insert]
      refine ⟨h.exclusive, fun t ht _ => ⟨fun hc => ?_, fun hc => ?_⟩⟩
      · exact hrun.2 t ⟨ht, hc.symm⟩
      · exact hrun.2 t ⟨ht, hc⟩

lemma Inv.completed (h : db.Inv C) (t : Transaction) : (db.transactionCompleted t).Inv C := by
  unfold transactionCompleted
  split
  case isFalse => exact h
  case isTrue ht =>
    have hs : t ∈ db.started := mem_union_right _ ht
    have herase : db.inProgress ∪ db.finishing.erase t = db.started.erase t := by
      rw [started, erase_union_distrib, erase_eq_of_notMem (disjoint_right.1 h.disjoint ht)]
    constructor
    case sorted => exact h.sorted
    case disjoint => exact h.disjoint.mono_right (erase_subset ..)
    all_goals simp only [Unfinished, started]; rw [herase]
    case unfinished =>
      exact fun u hu => h.unfinished u (hu.imp_right mem_of_mem_erase)
    case not_started =>
      exact fun u hu hmem => h.not_started u hu (mem_of_mem_erase hmem)
    case counts =>
      simp [h.counts, ← add_sum_erase _ _ hs]
    case writes =>
      intro s
      have hex : ∀ u ∈ db.started, u ≠ t → t.mode = readwrite → s ∈ t.objectStores →
          s ∉ u.objectStores := fun u hu hne hm hst hsu =>
        h.exclusive hs hu hne.symm ⟨.inl hm, s, hsu, hst⟩
      have hw := h.writes s
      cases hm : t.mode
      · grind
      · grind
    case exclusive =>
      exact h.exclusive.mono (by simp)

lemma Inv.step (h : db.Inv C) {e : Event}
    (he : ∀ mode objectStores, e = .enqueue mode objectStores → C mode objectStores) :
    (db.step e).Inv C := by
  cases e with
  | timerFired => exact h.timerFired
  | completed t => exact h.completed t
  | prepareToFinish t =>
    simp only [UniqueIDBDatabase.step, prepareToFinishTransaction]
    split
    case isFalse => exact h
    case isTrue ht =>
      have hs : db.inProgress.erase t ∪ insert t db.finishing = db.started := by
        rw [union_insert, ← insert_union, insert_erase ht, started]
      have hdisj := h.disjoint
      refine ⟨h.sorted, ?_, ?_, ?_, ?_, ?_, ?_⟩
      case refine_3 => grind [disjoint_left]
      all_goals simp only [Unfinished, started]; rw [hs]
      · exact h.unfinished
      · exact h.not_started
      · exact h.counts
      · exact h.writes
      · exact h.exclusive
  | enqueue mode objectStores =>
    have hun := h.unfinished
    refine ⟨?_, ?_, ?_, h.disjoint, h.counts, h.writes, h.exclusive⟩
    · refine pairwise_append.2 ⟨h.sorted, pairwise_singleton .., fun t ht u hu => ?_⟩
      rw [List.mem_singleton.1 hu]
      exact (hun t (.inl ht)).1
    · rintro t (ht | ht)
      · rcases mem_append.1 ht with ht | ht
        · exact (hun t (.inl ht)).imp_left Nat.lt_succ_of_lt
        · rw [List.mem_singleton.1 ht]
          exact ⟨Nat.lt_succ_self _, he mode objectStores rfl⟩
      · exact (hun t (.inr ht)).imp_left Nat.lt_succ_of_lt
    · intro t ht
      rcases mem_append.1 ht with ht | ht
      · exact h.not_started t ht
      · rw [List.mem_singleton.1 ht]
        exact fun hs => (hun _ (.inr hs)).1.false

lemma run_inv {events : List Event} (he : ∀ mode objectStores,
    .enqueue mode objectStores ∈ events → C mode objectStores) : (run events).Inv C := by
  induction events using List.reverseRecOn with
  | nil => exact ⟨.nil, by simp [run, Unfinished, started], by simp [run], by simp [run],
      by simp [run, started], by simp [run, started], by simp [run, started]⟩
  | append_singleton events e ih =>
    rw [run, foldl_append]
    have ih := ih fun m o hm => he m o (mem_append_left _ hm)
    exact ih.step fun m o hm => he m o (by simp [hm])

lemma supports_run (events : List Event) : (run events).supportsSimultaneousTransactions := by
  induction events using reverseRecOn with
  | nil => rfl
  | append_singleton events e ih =>
    rw [run, foldl_append]
    unfold foldl step operationAndTransactionTimerFired prepareToFinishTransaction
      transactionCompleted
    repeat' split
    all_goals exact ih

/-- In any order of events, no two started transactions conflict, and the first pending one is taken
unless one of them conflicts with it. -/
theorem run_exclusive (events : List Event) :
    ((run events).started : Set Transaction).Pairwise (¬ ·.Conflicts ·) ∧
    ∀ t rest, (run events).pending = t :: rest → (∀ w ∈ (run events).started, ¬ w.Conflicts t) →
      (run events).takeNextRunnableTransaction = (some t, rest) := by
  have hinv : (run events).Inv fun _ _ => True := run_inv fun _ _ _ => trivial
  refine ⟨hinv.exclusive, fun t rest hp hfree => ?_⟩
  have hrun : ¬ (run events).hasOverlappingScopes ∅ t := by
    rw [hinv.overlapping_iff]
    simpa [scopesOverlap] using hfree
  simp [takeNextRunnableTransaction, supports_run, hp, takeNextRunnableLoop, hrun]

/-! ### When transactions are started in order -/

/-- A readonly transaction that waits for a running one does not hold back a readwrite one that
was enqueued after it. -/
lemma not_startsInOrder {a b c : Finset ℕ} (hab : scopesOverlap a b) (hbc : scopesOverlap b c)
    (hac : ¬ scopesOverlap a c) :
    ¬ (run [.enqueue .readwrite a, .timerFired, .enqueue .readonly b,
      .enqueue .readwrite c]).StartsInOrder := by
  intro h
  unfold scopesOverlap at hab hac
  refine h ⟨2, readwrite, c⟩ ?_ ⟨1, readonly, b⟩ (.inl ?_) Nat.one_lt_two ⟨.inr rfl, hbc⟩
  all_goals simp [run, step, enqueueTransaction, operationAndTransactionTimerFired,
    takeNextRunnableTransaction, takeNextRunnableLoop, hasOverlappingScopes, scopesOverlap, hab,
    hac]

/-- If no readonly scope overlaps two readwrite scopes that do not overlap, then transactions are
started in order. -/
lemma Inv.startsInOrder (h : db.Inv C) (hC : ∀ a b c, C readwrite a → C readonly b →
    C readwrite c → scopesOverlap a b → scopesOverlap b c → scopesOverlap a c) :
    db.StartsInOrder := by
  intro u hu t ht hlt hc
  obtain ⟨before, after, scopes, hp, -, hscopes, hrun, hdef⟩ := h.take_eq_some (Prod.ext hu rfl)
  rw [h.overlapping_iff, not_or, not_exists] at hrun
  rcases ht with ht | ht
  case inr => exact hrun.2 t ⟨ht, hc⟩
  have htb : t ∈ before := by
    rw [hp, mem_append, List.mem_cons] at ht
    rcases ht with ht | rfl | ht
    · exact ht
    · exact absurd hlt (lt_irrefl _)
    · exact absurd hlt ((h.lt_of_eq_append hp).2 t ht).asymm
  have hfree : ∀ w ∈ before, w.mode = readwrite → ¬ scopesOverlap w.objectStores u.objectStores :=
    fun w hw hm ⟨s, hs, hsw⟩ => hrun.1 ⟨s, hs, (hscopes s).2 ⟨w, hw, hm, hsw⟩⟩
  have hpend : ∀ w ∈ before, C w.mode w.objectStores :=
    fun w hw => (h.unfinished w (.inl (by simp [hp, hw]))).2
  have hu : C u.mode u.objectStores := (h.unfinished u (.inl (by simp [hp]))).2
  cases hm : t.mode
  case readwrite => exact hfree t htb hm hc.2
  have hmu : u.mode = readwrite := by simpa [hm] using hc.1
  have htC := hpend t htb
  rw [hm] at htC
  rw [hmu] at hu
  -- what held `t` back overlaps it and runs or waits, but does not hold back `u`
  rcases h.overlapping_iff.1 (hdef t htb) with ⟨s, hst, hs⟩ | ⟨w, hw, hwt, hover⟩
  · obtain ⟨w, hw, hwm, hsw⟩ := (hscopes s).1 hs
    exact hfree w hw hwm (hC _ _ _ (hwm ▸ hpend w hw) htC hu ⟨s, hst, hsw⟩ hc.2)
  · have hwm : w.mode = readwrite := by simpa [hm] using hwt
    have hwC := (h.unfinished w (.inr hw)).2
    exact hrun.2 w ⟨hw, .inl hwm, hC _ _ _ (hwm ▸ hwC) htC hu hover hc.2⟩

/-- Transactions are started in order, whatever is enqueued from a class of modes and scopes, if and
only if no readonly scope of the class overlaps two readwrite scopes that do not overlap. -/
theorem startsInOrder_iff (C : Mode → Finset ℕ → Prop) :
    (∀ events, (∀ mode objectStores, .enqueue mode objectStores ∈ events → C mode objectStores) →
      (run events).StartsInOrder) ↔
    ∀ a b c, C readwrite a → C readonly b → C readwrite c →
      scopesOverlap a b → scopesOverlap b c → scopesOverlap a c := by
  refine ⟨fun h a b c ha hb hc hab hbc => ?_, fun hC events he => (run_inv he).startsInOrder hC⟩
  by_contra hac
  refine not_startsInOrder hab hbc hac (h _ ?_)
  simp only [List.mem_cons]
  rintro m o (h | h | h | h | h) <;> cases h <;> assumption

/-- With a readwrite transaction running in store 1, a readonly one enqueued for the stores 1 and 2
is overtaken by a readwrite one enqueued later for store 2. -/
theorem readwrite_overtakes_readonly :
    ¬ (run [.enqueue .readwrite {1}, .timerFired, .enqueue .readonly {1, 2},
      .enqueue .readwrite {2}]).StartsInOrder :=
  not_startsInOrder (by decide) (by decide) (by decide)

end UniqueIDBDatabase

end WebKit.IndexedDB
