import WebKit.Core.RangeMap
import WebKit.Core.Vec

/-!
# Exploring a deterministic automaton by hash-consing its states

The states of an automaton are given by keys, and the transitions of a key are a list of ranges
whose data is the key they lead to. `explore` numbers the keys in the order in which they are met.
A table finds the number of a key met before, and a stack keeps the keys whose transitions were
not read yet. What keys stand for is a denotation `den`, and the graph that is built realizes the
transition function on the denotations (`explore_realizes`).
-/

namespace Explore

open RangeMap List Option

variable {κ β D : Type*}

/-- A node of the graph: what was made of its key, and its transitions to other nodes. -/
structure Node (β : Type*) where
  label : β
  transitions : List (Range ℕ)

instance [Inhabited β] : Inhabited (Node β) := ⟨⟨default, []⟩⟩

/-- An exploration: how keys are compared, what is made of a new key, where it leads to and how a
list of transitions is stored. -/
structure Problem (κ β : Type*) where
  same : κ → κ → Bool
  make : κ → Option β
  expand : κ → List (Range κ)
  store : List (Range ℕ) → List (Range ℕ)

structure State (κ β : Type*) where
  table : List (κ × ℕ)
  nodes : Vec (Node β)
  unprocessed : List (κ × ℕ)

/-- The number of a key, which is given a new node when it is met for the first time. -/
def getOrCreate (P : Problem κ β) (st : State κ β) (key : κ) : Option (State κ β × ℕ) :=
  match st.table.find? fun e => P.same e.1 key with
  | some e => some (st, e.2)
  | none =>
    (P.make key).map fun label =>
      ({ table := st.table ++ [(key, st.nodes.size)]
         nodes := st.nodes.push ⟨label, []⟩
         unprocessed := (key, st.nodes.size) :: st.unprocessed },
        st.nodes.size)

/-- Number the targets of a list of ranges, from the first range to the last one. -/
def targets (P : Problem κ β) : State κ β → List (Range κ) → Option (State κ β × List (Range ℕ))
  | st, [] => some (st, [])
  | st, r :: rs =>
    (getOrCreate P st r.data).bind fun (st, id) =>
      (targets P st rs).map fun (st, ts) => (st, ⟨r.first, r.last, id⟩ :: ts)

/-- Read the transitions of the entry `e`, which was taken from the stack. -/
def process (P : Problem κ β) (st : State κ β) (e : κ × ℕ) : Option (State κ β) :=
  (targets P st (P.expand e.1)).map fun (st, ts) =>
    { st with nodes := st.nodes.set e.2 { st.nodes.get e.2 with transitions := P.store ts } }

/-- Process entries until none is left. -/
def loop (P : Problem κ β) : ℕ → State κ β → Option (State κ β)
  | 0, st => if st.unprocessed.isEmpty then some st else none
  | n + 1, st =>
    match st.unprocessed with
    | [] => some st
    | e :: rest => (process P { st with unprocessed := rest } e).bind (loop P n)

/-- The graph of the keys that can be reached from `root`, which gets the number zero. -/
def explore (P : Problem κ β) [Inhabited β] (fuel : ℕ) (root : κ) : Option (Vec (Node β)) :=
  (getOrCreate P ⟨[], Vec.empty, []⟩ root).bind fun (st, _) => (loop P fuel st).map State.nodes

/-- Follow the transitions of a graph. -/
def run (nodes : Vec (Node β)) : ℕ → List ℕ → Option ℕ
  | i, [] => some i
  | i, c :: cs => (lookup (nodes.get i).transitions c).bind fun j => run nodes j cs

/-- Follow a transition function. -/
def runStep (step : D → ℕ → Option D) : D → List ℕ → Option D
  | d, [] => some d
  | d, c :: cs => (step d c).bind fun d' => runStep step d' cs

lemma runStep_append (step : D → ℕ → Option D) (d : D) (s t : List ℕ) :
    runStep step d (s ++ t) = (runStep step d s).bind fun d' => runStep step d' t := by
  induction s generalizing d with
  | nil => rfl
  | cons c s ih =>
    simp only [cons_append, runStep]
    cases step d c with
    | none => rfl
    | some d' => exact ih d'

/-- What the keys that satisfy `V` stand for, and that `step` says where they lead to. -/
structure Denotes (P : Problem κ β) (V : κ → Prop) (den : κ → D) (step : D → ℕ → Option D) :
    Prop where
  same_iff : ∀ a b, V a → V b → (P.same a b = true ↔ den a = den b)
  make_isSome : ∀ a, V a → (P.make a).isSome
  expand_sorted : ∀ a, V a → Sorted (P.expand a)
  expand_valid : ∀ a, V a → ∀ r ∈ P.expand a, V r.data
  lookup_expand : ∀ a, V a → ∀ c, (lookup (P.expand a) c).map den = step (den a) c
  store_eq : ∀ a, V a → ∀ ts : List (Range ℕ), ts.length = (P.expand a).length → P.store ts = ts

/-- The graph behaves as the transition function `step` from `d₀`, its nodes stand for different
denotations, and all of them are reached. -/
structure Realizes (P : Problem κ β) (V : κ → Prop) (den : κ → D) (step : D → ℕ → Option D)
    (d₀ : D) (nodes : Vec (Node β)) (key : ℕ → κ) : Prop where
  size_pos : 0 < nodes.size
  den_zero : den (key 0) = d₀
  valid : ∀ i < nodes.size, V (key i)
  injective : ∀ i < nodes.size, ∀ j < nodes.size, den (key i) = den (key j) → i = j
  make_eq : ∀ i < nodes.size, P.make (key i) = some (nodes.get i).label
  sorted : ∀ i < nodes.size, Sorted (nodes.get i).transitions
  target_lt : ∀ i < nodes.size, ∀ r ∈ (nodes.get i).transitions, r.data < nodes.size
  lookup_eq : ∀ i < nodes.size, ∀ c,
    (lookup (nodes.get i).transitions c).map (den ∘ key) = step (den (key i)) c
  reached : ∀ i < nodes.size, ∃ s, runStep step d₀ s = some (den (key i))

namespace Realizes

variable {P : Problem κ β} {V : κ → Prop} {den : κ → D} {step : D → ℕ → Option D} {d₀ : D}
  {nodes : Vec (Node β)} {key : ℕ → κ}

section

variable (h : Realizes P V den step d₀ nodes key)

include h

variable {i : ℕ}

lemma lookup_lt {c j : ℕ} (hi : i < nodes.size)
    (hj : lookup (nodes.get i).transitions c = some j) : j < nodes.size := by
  obtain ⟨r, hr, -, -, rfl⟩ := lookup_eq_some hj
  exact h.target_lt i hi r hr

lemma run_lt (s : List ℕ) {j : ℕ} (hi : i < nodes.size)
    (hj : run nodes i s = some j) : j < nodes.size := by
  induction s generalizing i with
  | nil =>
    obtain rfl : i = j := by simpa [run] using hj
    exact hi
  | cons c s ih =>
    simp only [run, bind_eq_some_iff] at hj
    obtain ⟨k, hk, hj⟩ := hj
    exact ih (h.lookup_lt hi hk) hj

/-- A run of the graph is a run of the transition function. -/
lemma map_run (s : List ℕ) (hi : i < nodes.size) :
    (run nodes i s).map (den ∘ key) = runStep step (den (key i)) s := by
  induction s generalizing i with
  | nil => rfl
  | cons c s ih =>
    simp only [run, runStep]
    rw [← h.lookup_eq i hi c]
    cases hj : lookup (nodes.get i).transitions c with
    | none => rfl
    | some j => exact ih (h.lookup_lt hi hj)

theorem map_run_zero (s : List ℕ) : (run nodes 0 s).map (den ∘ key) = runStep step d₀ s := by
  rw [h.map_run s h.size_pos, h.den_zero]

/-- The transitions of a node do not reach further than those of its key. -/
lemma last_le (hP : Denotes P V den step) {b : ℕ} (hi : i < nodes.size)
    (hb : ∀ r ∈ P.expand (key i), r.last ≤ b) : ∀ r ∈ (nodes.get i).transitions, r.last ≤ b := by
  intro r hr
  have hlook := lookup_of_mem (h.sorted i hi) hr ((h.sorted i hi).first_le_last hr) le_rfl
  have hstep := h.lookup_eq i hi r.last
  rw [hlook, ← hP.lookup_expand (key i) (h.valid i hi), map_some, eq_comm, map_eq_some_iff] at hstep
  obtain ⟨k, hk, -⟩ := hstep
  obtain ⟨r', hr', -, hle, -⟩ := lookup_eq_some hk
  exact hle.trans (hb r' hr')

/-- Every node is the end of a run. -/
theorem exists_run (hi : i < nodes.size) : ∃ s, run nodes 0 s = some i := by
  obtain ⟨s, hs⟩ := h.reached i hi
  refine ⟨s, ?_⟩
  rw [← h.map_run_zero s, map_eq_some_iff] at hs
  obtain ⟨j, hj, hden⟩ := hs
  rw [hj, h.injective j (h.run_lt s h.size_pos hj) i hi hden]

/-- There are not more nodes than denotations reached. -/
lemma size_le_card (S : Finset D)
    (hS : ∀ s d, runStep step d₀ s = some d → d ∈ S) : nodes.size ≤ S.card := by
  rw [← Finset.card_range nodes.size]
  refine Finset.card_le_card_of_injOn (den ∘ key) ?_ ?_
  · intro i hi
    obtain ⟨s, hs⟩ := h.reached i (Finset.mem_range.mp hi)
    exact hS s _ hs
  · intro i hi j hj hij
    exact h.injective i (Finset.mem_range.mp hi) j (Finset.mem_range.mp hj) hij

end

end Realizes

/-! ### The invariant of the exploration -/

section

variable {P : Problem κ β} {V : κ → Prop} {den : κ → D} {step : D → ℕ → Option D} {d₀ : D}
  {st st' : State κ β}

/-- The range `t` of numbers goes where the range `r` of keys goes. -/
def Matches (den : κ → D) (st : State κ β) (r : Range κ) (t : Range ℕ) : Prop :=
  r.first = t.first ∧ r.last = t.last ∧ ∃ e ∈ st.table, e.2 = t.data ∧ den e.1 = den r.data

/-- The transitions of the node of the entry `e` are those of its key. -/
def Done (P : Problem κ β) (den : κ → D) (st : State κ β) (e : κ × ℕ) : Prop :=
  List.Forall₂ (Matches den st) (P.expand e.1) (st.nodes.get e.2).transitions

/-- The entries of `pending` are those whose transitions were not stored yet. -/
structure Inv (P : Problem κ β) (V : κ → Prop) (den : κ → D) (step : D → ℕ → Option D) (d₀ : D)
    (st : State κ β) (pending : List (κ × ℕ)) : Prop where
  ids : st.table.map Prod.snd = List.range st.nodes.size
  valid : ∀ e ∈ st.table, V e.1
  den_nodup : (st.table.map fun e => den e.1).Nodup
  make_eq : ∀ e ∈ st.table, P.make e.1 = some (st.nodes.get e.2).label
  pending_sub : pending ⊆ st.table
  pending_nodup : pending.Nodup
  done : ∀ e ∈ st.table, e ∉ pending → Done P den st e
  reached : ∀ e ∈ st.table, ∃ s, runStep step d₀ s = some (den e.1)

/-- The state `st'` has all entries and stored transitions of `st`. -/
structure Extends (st st' : State κ β) (new : List (κ × ℕ)) : Prop where
  table_eq : st'.table = st.table ++ new
  unprocessed_eq : st'.unprocessed = new.reverse ++ st.unprocessed
  nodes_eq : ∀ i < st.nodes.size, st'.nodes.get i = st.nodes.get i
  size_le : st.nodes.size ≤ st'.nodes.size

lemma Extends.refl (st : State κ β) : Extends st st [] := ⟨by simp, by simp, fun _ _ => rfl, le_rfl⟩

lemma Extends.trans {st'' : State κ β} {new new' : List (κ × ℕ)} (h : Extends st st' new)
    (h' : Extends st' st'' new') : Extends st st'' (new ++ new') where
  table_eq := by simp [h'.table_eq, h.table_eq]
  unprocessed_eq := by rw [h'.unprocessed_eq, h.unprocessed_eq]; simp
  nodes_eq i hi := by rw [h'.nodes_eq i (hi.trans_le h.size_le), h.nodes_eq i hi]
  size_le := h.size_le.trans h'.size_le

variable {t : Range ℕ}

lemma Matches.mono {r : Range κ} (h : Matches den st r t)
    (hsub : st.table ⊆ st'.table) : Matches den st' r t := by
  obtain ⟨hfst, hlast, e, he, hdata, hden⟩ := h
  exact ⟨hfst, hlast, e, hsub he, hdata, hden⟩

variable {e : κ × ℕ}

lemma Done.mono (h : Done P den st e) (hsub : st.table ⊆ st'.table)
    (hget : (st'.nodes.get e.2).transitions = (st.nodes.get e.2).transitions) :
    Done P den st' e := by
  rw [Done, hget]
  exact List.Forall₂.imp (fun _ _ hm => hm.mono hsub) h

variable {pending : List (κ × ℕ)} {key : κ}

section

variable (h : Inv P V den step d₀ st pending)

include h

lemma Inv.id_lt (he : e ∈ st.table) : e.2 < st.nodes.size := by
  have hmem : e.2 ∈ st.table.map Prod.snd := mem_map_of_mem he
  rw [h.ids] at hmem
  exact mem_range.mp hmem

/-- Two entries with the same number are the same entry. -/
lemma Inv.eq_of_id_eq {e e' : κ × ℕ}
    (he : e ∈ st.table) (he' : e' ∈ st.table) (hid : e.2 = e'.2) : e = e' := by
  have hnd : (st.table.map Prod.snd).Nodup := h.ids ▸ nodup_range
  exact inj_on_of_nodup_map hnd he he' hid

lemma Inv.eq_of_den_eq
    {e e' : κ × ℕ} (he : e ∈ st.table) (he' : e' ∈ st.table) (hden : den e.1 = den e'.1) : e = e' :=
  inj_on_of_nodup_map h.den_nodup he he' hden

/-- Adding the entry of a key that no entry of the table stands for. -/
lemma Inv.push {label : β} (hv : V key) (hnew : ∀ e ∈ st.table, den e.1 ≠ den key)
    (hmake : P.make key = some label) (hr : ∃ s, runStep step d₀ s = some (den key)) :
    Inv P V den step d₀
      ⟨st.table ++ [(key, st.nodes.size)], st.nodes.push ⟨label, []⟩,
        (key, st.nodes.size) :: st.unprocessed⟩ ((key, st.nodes.size) :: pending) := by
  have hget : ∀ e ∈ st.table, (st.nodes.push ⟨label, []⟩).get e.2 = st.nodes.get e.2 :=
    fun e he => Vec.get_push_of_lt _ _ (h.id_lt he)
  refine ⟨?_, ?_, ?_, ?_, ?_, ?_, ?_, ?_⟩
  · simp [h.ids, range_succ]
  · simpa [or_imp, forall_and, hv] using fun a b hab => h.valid (a, b) hab
  · rw [map_append, nodup_append]
    refine ⟨h.den_nodup, by simp, ?_⟩
    rintro _ hd d' hd' rfl
    obtain ⟨e, he, hed⟩ := mem_map.mp hd
    simp only [map_cons, map_nil, mem_singleton] at hd'
    exact hnew e he (hed.trans hd')
  · intro e he
    rcases mem_append.mp he with he | he
    · rw [hget e he, h.make_eq e he]
    · obtain rfl := mem_singleton.mp he
      simpa using hmake
  · intro e he
    rcases mem_cons.mp he with rfl | he
    · simp
    · exact mem_append_left _ (h.pending_sub he)
  · refine nodup_cons.mpr ⟨fun hmem => ?_, h.pending_nodup⟩
    exact absurd (h.id_lt (h.pending_sub hmem)) (lt_irrefl _)
  · intro e he hnp
    rcases mem_append.mp he with he | he
    · refine (h.done e he fun hp => hnp (mem_cons_of_mem _ hp)).mono ?_ ?_
      · exact subset_append_left _ _
      · rw [hget e he]
    · exact absurd (mem_singleton.mp he ▸ mem_cons_self) hnp
  · intro e he
    rcases mem_append.mp he with he | he
    · exact h.reached e he
    · rw [mem_singleton.mp he]
      exact hr

end

section

variable (hP : Denotes P V den step) (h : Inv P V den step d₀ st pending)

include hP h

/-- Looking up or creating a node keeps the invariant and returns the number of the key. -/
lemma getOrCreate_spec (hv : V key) (hr : ∃ s, runStep step d₀ s = some (den key)) :
    ∃ st' id new, getOrCreate P st key = some (st', id) ∧ Extends st st' new ∧
      Inv P V den step d₀ st' (new.reverse ++ pending) ∧
      ∃ e ∈ st'.table, e.2 = id ∧ den e.1 = den key := by
  unfold getOrCreate
  cases hfind : st.table.find? fun e => P.same e.1 key with
  | some e =>
    have hmem := mem_of_find?_eq_some hfind
    have hsame : P.same e.1 key = true := by simpa using find?_some hfind
    rw [hP.same_iff e.1 key (h.valid e hmem) hv] at hsame
    exact ⟨st, e.2, [], rfl, Extends.refl st, by simpa using h, e, hmem, rfl, hsame⟩
  | none =>
    have hnew : ∀ e ∈ st.table, den e.1 ≠ den key := by
      intro e he hden
      rw [← hP.same_iff e.1 key (h.valid e he) hv] at hden
      exact find?_eq_none.mp hfind e he hden
    obtain ⟨label, hmake⟩ := isSome_iff_exists.mp (hP.make_isSome key hv)
    refine ⟨_, _, [(key, st.nodes.size)], by rw [hmake]; rfl, ?_, ?_, ?_⟩
    · refine ⟨rfl, rfl, fun i hi => ?_, Nat.le_succ _⟩
      exact Vec.get_push_of_lt _ _ hi
    · exact h.push hv hnew hmake hr
    · exact ⟨(key, st.nodes.size), by simp, rfl, rfl⟩

lemma targets_spec (rs : List (Range κ)) (hv : ∀ r ∈ rs, V r.data)
    (hr : ∀ r ∈ rs, ∃ s, runStep step d₀ s = some (den r.data)) :
    ∃ st' ts new, targets P st rs = some (st', ts) ∧ Extends st st' new ∧
      Inv P V den step d₀ st' (new.reverse ++ pending) ∧ List.Forall₂ (Matches den st') rs ts := by
  induction rs generalizing st pending with
  | nil => exact ⟨st, [], [], rfl, Extends.refl st, by simpa using h, .nil⟩
  | cons r rs ih =>
    obtain ⟨st₁, id, new₁, hget, hext₁, hinv₁, e, he, hid, hden⟩ :=
      getOrCreate_spec hP h (hv r mem_cons_self) (hr r mem_cons_self)
    obtain ⟨st₂, ts, new₂, htgts, hext₂, hinv₂, hmat⟩ :=
      ih hinv₁ (fun s hs => hv s (mem_cons_of_mem _ hs)) fun s hs => hr s (mem_cons_of_mem _ hs)
    refine ⟨st₂, ⟨r.first, r.last, id⟩ :: ts, new₁ ++ new₂, ?_, hext₁.trans hext₂, ?_, ?_⟩
    · simp [targets, hget, htgts]
    · simpa using hinv₂
    · refine .cons ⟨rfl, rfl, e, ?_, hid, hden⟩ hmat
      rw [hext₂.table_eq]
      exact mem_append_left _ he

end

/-- The keys that a reached key leads to are reached. -/
lemma Denotes.expand_reached (hP : Denotes P V den step) (hv : V key)
    (hr : ∃ s, runStep step d₀ s = some (den key)) :
    ∀ r ∈ P.expand key, ∃ s, runStep step d₀ s = some (den r.data) := by
  intro r hmem
  obtain ⟨s, hs⟩ := hr
  have hsort := hP.expand_sorted key hv
  have hlook := lookup_of_mem hsort hmem le_rfl (hsort.first_le_last hmem)
  have hstep := hP.lookup_expand key hv r.first
  rw [hlook] at hstep
  refine ⟨s ++ [r.first], ?_⟩
  simp [runStep_append, hs, runStep, ← hstep]

variable {ts : List (Range ℕ)}

/-- Storing the transitions of a pending entry takes it off the pending ones. -/
lemma Inv.store {before after : List (κ × ℕ)} (h : Inv P V den step d₀ st (before ++ e :: after))
    (hmat : List.Forall₂ (Matches den st) (P.expand e.1) ts) :
    Inv P V den step d₀
      { st with nodes := st.nodes.set e.2 { st.nodes.get e.2 with transitions := ts } }
      (before ++ after) := by
  have hlabel : ∀ i, ((st.nodes.set e.2 { st.nodes.get e.2 with transitions := ts }).get i).label =
      (st.nodes.get i).label := by
    intro i
    by_cases hi : i = e.2
    · simp [hi]
    · rw [Vec.get_set_of_ne _ _ hi]
  have hperm : (before ++ e :: after).Perm (e :: (before ++ after)) := perm_middle
  refine ⟨h.ids, h.valid, h.den_nodup, ?_, ?_, ?_, ?_, h.reached⟩
  · intro e' he'
    rw [hlabel]
    exact h.make_eq e' he'
  · exact fun e' he' => h.pending_sub (hperm.mem_iff.mpr (mem_cons_of_mem _ he'))
  · exact (nodup_cons.mp (hperm.nodup_iff.mp h.pending_nodup)).2
  · intro e' he' hnp
    by_cases hee : e' = e
    · subst hee
      rw [Done, Vec.get_set_self]
      exact hmat
    · have he : e ∈ st.table := h.pending_sub (by simp)
      have hid : e'.2 ≠ e.2 := fun hid => hee (h.eq_of_id_eq he' he hid)
      have hnp' : e' ∉ before ++ e :: after := fun hp =>
        (mem_cons.mp (hperm.mem_iff.mp hp)).elim hee hnp
      refine (h.done e' he' hnp').mono (List.Subset.refl _) ?_
      rw [Vec.get_set_of_ne _ _ hid]

lemma process_spec (hP : Denotes P V den step) (h : Inv P V den step d₀ st (e :: st.unprocessed)) :
    ∃ st' new, process P st e = some st' ∧ Inv P V den step d₀ st' st'.unprocessed ∧
      st'.table = st.table ++ new ∧ st'.unprocessed = new.reverse ++ st.unprocessed := by
  have he : e ∈ st.table := h.pending_sub mem_cons_self
  have hv := h.valid e he
  obtain ⟨st', ts, new, htgts, hext, hinv, hmat⟩ := targets_spec hP h (P.expand e.1)
    (hP.expand_valid e.1 hv) (hP.expand_reached hv (h.reached e he))
  have hstore : P.store ts = ts := hP.store_eq e.1 hv ts hmat.length_eq.symm
  refine ⟨{ st' with nodes := st'.nodes.set e.2 { st'.nodes.get e.2 with transitions := ts } }, new,
    ?_, ?_, hext.table_eq, hext.unprocessed_eq⟩
  · simp only [process, htgts, hstore, map_some]
  · have hinv' := hinv.store hmat
    rwa [← hext.unprocessed_eq] at hinv'

/-- There are no more entries than denotations that can be reached. -/
lemma Inv.length_le_card (h : Inv P V den step d₀ st pending) (S : Finset D)
    (hS : ∀ s d, runStep step d₀ s = some d → d ∈ S) : st.table.length ≤ S.card := by
  classical
  have hsub : (st.table.map fun e => den e.1).toFinset ⊆ S := by
    intro d hd
    obtain ⟨e, he, rfl⟩ := mem_map.mp (mem_toFinset.mp hd)
    obtain ⟨s, hs⟩ := h.reached e he
    exact hS s _ hs
  have hcard := Finset.card_le_card hsub
  rwa [toFinset_card_of_nodup h.den_nodup, length_map] at hcard

/-- The loop ends when the fuel covers the denotations whose entry is not processed yet. -/
lemma loop_spec (hP : Denotes P V den step) (S : Finset D)
    (hS : ∀ s d, runStep step d₀ s = some d → d ∈ S) (n : ℕ)
    (h : Inv P V den step d₀ st st.unprocessed)
    (hn : S.card + st.unprocessed.length ≤ n + st.table.length) :
    ∃ st' new, loop P n st = some st' ∧ Inv P V den step d₀ st' [] ∧
      st'.table = st.table ++ new := by
  induction n generalizing st with
  | zero =>
    have hcard := h.length_le_card S hS
    have hnil : st.unprocessed = [] := length_eq_zero_iff.mp (by omega)
    exact ⟨st, [], by simp [loop, hnil], hnil ▸ h, by simp⟩
  | succ n ih =>
    cases hu : st.unprocessed with
    | nil => exact ⟨st, [], by simp [loop, hu], hu ▸ h, by simp⟩
    | cons e rest =>
      rw [hu] at h hn
      have h' : Inv P V den step d₀ { st with unprocessed := rest } (e :: rest) :=
        ⟨h.ids, h.valid, h.den_nodup, h.make_eq, h.pending_sub, h.pending_nodup, h.done, h.reached⟩
      obtain ⟨st₁, new₁, hproc, hinv₁, htable₁, hunp₁⟩ := process_spec hP h'
      simp only at htable₁ hunp₁
      have hlen₁ : S.card + st₁.unprocessed.length ≤ n + st₁.table.length := by
        rw [htable₁, hunp₁, length_append, length_append, length_reverse]
        rw [length_cons] at hn
        omega
      obtain ⟨st₂, new₂, hloop, hinv₂, htable₂⟩ := ih hinv₁ hlen₁
      refine ⟨st₂, new₁ ++ new₂, ?_, hinv₂, ?_⟩
      · simp [loop, hu, hproc, hloop]
      · simp [htable₂, htable₁]

variable {rs : List (Range κ)}

section

variable (h : List.Forall₂ (Matches den st) rs ts)

include h

lemma exists_of_forall₂ (ht : t ∈ ts) : ∃ r ∈ rs, Matches den st r t := by
  induction h with
  | nil => simp at ht
  | @cons r t' rs ts hm _ ih =>
    rcases mem_cons.mp ht with rfl | ht
    · exact ⟨r, mem_cons_self, hm⟩
    · obtain ⟨r', hr', hm'⟩ := ih ht
      exact ⟨r', mem_cons_of_mem _ hr', hm'⟩

lemma sorted_of_forall₂ (hs : Sorted rs) : Sorted ts := by
  induction h with
  | nil => trivial
  | @cons r t rs ts hm hms ih =>
    refine ⟨hm.1 ▸ hm.2.1 ▸ hs.1, ?_, ih hs.2.2⟩
    intro t' ht'
    obtain ⟨r', hr', hm'⟩ := exists_of_forall₂ hms ht'
    rw [← hm.2.1, ← hm'.1]
    exact hs.2.1 r' hr'

lemma lookup_of_forall₂ {key : ℕ → κ} (hkey : ∀ e ∈ st.table, key e.2 = e.1) (c : ℕ) :
    (lookup ts c).map (den ∘ key) = (lookup rs c).map den := by
  induction h with
  | nil => rfl
  | @cons r t rs ts hm _ ih =>
    obtain ⟨hfst, hlast, e, he, hdata, hden⟩ := hm
    rw [lookup_cons, lookup_cons, ← hfst, ← hlast]
    split_ifs
    · simp only [map_some, Function.comp_apply]
      rw [← hdata, hkey e he, hden]
    · exact ih

end

/-- When nothing is pending, the nodes realize the transition function. -/
lemma Inv.realizes (hP : Denotes P V den step) (h : Inv P V den step d₀ st []) {root : κ}
    (hroot : (root, 0) ∈ st.table) (hd₀ : den root = d₀) :
    ∃ key, Realizes P V den step d₀ st.nodes key := by
  have hent : ∀ i, ∃ k, i < st.nodes.size → (k, i) ∈ st.table := by
    intro i
    by_cases hi : i < st.nodes.size
    · have hmem : i ∈ st.table.map Prod.snd := h.ids ▸ mem_range.mpr hi
      obtain ⟨e, he, rfl⟩ := mem_map.mp hmem
      exact ⟨e.1, fun _ => he⟩
    · exact ⟨root, fun hi' => absurd hi' hi⟩
  choose key hkey using hent
  have hkey' : ∀ e ∈ st.table, key e.2 = e.1 := fun e he =>
    congrArg Prod.fst (h.eq_of_id_eq (hkey e.2 (h.id_lt he)) he rfl)
  have hdone := fun i hi => h.done (key i, i) (hkey i hi) not_mem_nil
  refine ⟨key, h.id_lt hroot, ?_, ?_, ?_, ?_, ?_, ?_, ?_, ?_⟩
  · rw [hkey' _ hroot, hd₀]
  · exact fun i hi => h.valid _ (hkey i hi)
  · exact fun i hi j hj hden => congrArg Prod.snd (h.eq_of_den_eq (hkey i hi) (hkey j hj) hden)
  · exact fun i hi => h.make_eq _ (hkey i hi)
  · exact fun i hi => sorted_of_forall₂ (hdone i hi) (hP.expand_sorted _ (h.valid _ (hkey i hi)))
  · intro i hi t ht
    obtain ⟨r, -, -, -, e, he, hdata, -⟩ := exists_of_forall₂ (hdone i hi) ht
    exact hdata ▸ h.id_lt he
  · intro i hi c
    rw [lookup_of_forall₂ (hdone i hi) hkey' c]
    exact hP.lookup_expand _ (h.valid _ (hkey i hi)) c
  · exact fun i hi => h.reached _ (hkey i hi)

/-- With fuel for every denotation that can be reached the exploration ends, and its graph
realizes the transition function. -/
theorem explore_realizes [Inhabited β] (hP : Denotes P V den step) {root : κ} (hroot : V root)
    (S : Finset D) (hS : ∀ s d, runStep step (den root) s = some d → d ∈ S) {fuel : ℕ}
    (hfuel : S.card ≤ fuel) :
    ∃ nodes key, explore P fuel root = some nodes ∧ Realizes P V den step (den root) nodes key := by
  obtain ⟨label, hmake⟩ := isSome_iff_exists.mp (hP.make_isSome root hroot)
  have hemp : Inv P V den step (den root) (⟨[], Vec.empty, []⟩) [] := by
    constructor <;> simp
  have hinv := hemp.push hroot (by simp) hmake ⟨[], rfl⟩
  obtain ⟨st, new, hloop, hdone, htable⟩ := loop_spec hP S hS fuel hinv (by simpa using hfuel)
  obtain ⟨key, hkey⟩ := hdone.realizes hP (by rw [htable]; simp) rfl
  refine ⟨st.nodes, key, ?_, hkey⟩
  simp only [explore, getOrCreate, find?_nil, hmake, map_some, bind_some]
  rw [hloop]
  rfl

end

end Explore
