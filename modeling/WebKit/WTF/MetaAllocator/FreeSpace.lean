import WebKit.WTF.MetaAllocator.Basic
import WebKit.Core.Registry

/-!
# The indexes of free space

A free block is in the tree of sizes and in the maps of starts and of ends. All changes of the
indexes are made of three: a node is taken out, a node is added, or the block of a node changes.
-/

namespace WebKit.WTF

open WebKit.Core List Function

namespace HashMap

variable {κ ν : Type*} [DecidableEq κ] {m : HashMap κ ν} {key : ν → κ} {live : ν → Prop}
  {o : ν}

lemma finds_remove (h : Finds m.get? key live) (ho : live o) :
    Finds (m.remove (key o)).get? key fun o' => live o' ∧ o' ≠ o :=
  (h.remove ho).congr (fun k => get?_remove (key o) k) (fun _ => Iff.rfl) (fun _ _ => rfl)

/-- An object is added under a key that is not in use. -/
lemma finds_add (h : Finds m.get? key live) (ho : ∀ o', live o' → key o' ≠ key o) :
    Finds (m.add (key o) o).get? key fun o' => live o' ∨ o' = o := by
  have hnone : m.get? (key o) = none := by
    refine Option.eq_none_iff_forall_ne_some.mpr fun o' ho' => ?_
    obtain ⟨hlive, hkey⟩ := (h _ _).mp ho'
    exact ho o' hlive hkey
  refine (h.add fun o' ho' hkey => absurd hkey (ho o' ho')).congr (fun k => ?_)
    (fun _ => Iff.rfl) (fun _ _ => rfl)
  simp [hnone]

end HashMap

namespace MetaAllocator

/-! ### The indexes -/

/-- The tree and the maps find the same nodes, by their sizes, starts and ends. -/
structure Indexed (a : MetaAllocator) : Prop where
  nodup : a.freeSpaceSizeMap.Nodup
  lt_nextNode : ∀ node ∈ a.freeSpaceSizeMap, node < a.nextNode
  sorted : a.freeSpaceSizeMap.Pairwise fun m n => (a.nodes m).size ≤ (a.nodes n).size
  starts : Finds a.freeSpaceStartAddressMap.get? (fun node => (a.nodes node).start)
    (· ∈ a.freeSpaceSizeMap)
  stops : Finds a.freeSpaceEndAddressMap.get? (fun node => (a.nodes node).stop)
    (· ∈ a.freeSpaceSizeMap)

variable {key : ℕ → ℕ}

lemma pairwise_orderedInsert {l : List ℕ} (n : ℕ) (h : l.Pairwise fun m n => key m ≤ key n) :
    (l.orderedInsert (fun z x => key z < key x) n).Pairwise fun m n => key m ≤ key n := by
  induction l with
  | nil => simp
  | cons x l ih =>
    obtain ⟨hx, hl⟩ := pairwise_cons.mp h
    rw [orderedInsert]
    split_ifs with hlt
    · refine pairwise_cons.mpr ⟨fun y hy => ?_, h⟩
      rcases mem_cons.mp hy with rfl | hy
      · exact hlt.le
      · exact hlt.le.trans (hx y hy)
    · refine pairwise_cons.mpr ⟨fun y hy => ?_, ih hl⟩
      rcases (mem_orderedInsert _).mp hy with rfl | hy
      · exact Nat.not_lt.mp hlt
      · exact hx y hy

section

variable {key : Span → ℕ} {nodes : ℕ → Span} {live live' : ℕ → Prop} {m : HashMap ℕ ℕ} {node : ℕ}
  {block : Span}

section

variable (h : Finds m.get? (fun n => key (nodes n)) live)

include h

/-- The map for one of the keys of a block. -/
lemma finds_link (hnot : ¬ live node)
    (hlive : ∀ n, live' n ↔ live n ∨ n = node) (hnew : ∀ n, live n → key (nodes n) ≠ key block) :
    Finds (m.add (key block) node).get? (fun n => key (Function.update nodes node block n))
      live' := by
  have hold n (hn : live n) : update nodes node block n = nodes n := by
    refine update_of_ne ?_ _ _
    rintro rfl
    exact hnot hn
  have hfinds : Finds m.get? (fun n => key (update nodes node block n)) live :=
    h.congr (fun _ => rfl) (fun _ => Iff.rfl) (fun n hn => by rw [hold n hn])
  have hadd := HashMap.finds_add hfinds fun n hn => by
    rw [hold n hn, update_self]
    exact hnew n hn
  rw [update_self] at hadd
  exact hadd.congr (fun _ => rfl) hlive (fun _ _ => rfl)

/-- The key of a node changes. -/
lemma finds_move (hnode : live node) (hlive : ∀ n, live' n ↔ live n)
    (hnew : ∀ n, live n → n ≠ node → key (nodes n) ≠ key block) :
    Finds ((m.remove (key (nodes node))).add (key block) node).get?
      (fun n => key (Function.update nodes node block n)) live' := by
  refine finds_link (HashMap.finds_remove h hnode) (fun hn => hn.2 rfl) (fun n => ?_)
    (fun n hn => hnew n hn.1 hn.2)
  rw [hlive]
  by_cases hn : n = node
  · simp [hn, hnode]
  · simp [hn]

/-- The key of a node stays the same. -/
lemma finds_keep (hlive : ∀ n, live' n ↔ live n) (hkey : key block = key (nodes node)) :
    Finds m.get? (fun n => key (Function.update nodes node block n)) live' := by
  refine h.congr (fun _ => rfl) hlive fun n _ => ?_
  by_cases hn : n = node
  · simp [hn, hkey]
  · rw [update_of_ne hn]

end

end

variable {a a' : MetaAllocator} {node : ℕ} {block : Span}

/-! ### Changes of the indexes -/

/-- A node is taken out of all indexes. -/
structure Unlinks (a : MetaAllocator) (node : ℕ) (a' : MetaAllocator) : Prop where
  nodes_eq : a'.nodes = a.nodes
  nextNode_eq : a'.nextNode = a.nextNode
  tree_eq : a'.freeSpaceSizeMap = a.freeSpaceSizeMap.erase node
  starts_eq : a'.freeSpaceStartAddressMap = a.freeSpaceStartAddressMap.remove (a.nodes node).start
  stops_eq : a'.freeSpaceEndAddressMap = a.freeSpaceEndAddressMap.remove (a.nodes node).stop

/-- A new node is put into all indexes. -/
structure Links (a : MetaAllocator) (block : Span) (a' : MetaAllocator) : Prop where
  nodes_eq : a'.nodes = Function.update a.nodes a.nextNode block
  nextNode_eq : a'.nextNode = a.nextNode + 1
  tree_eq : a'.freeSpaceSizeMap = a.freeSpaceSizeMap.orderedInsert
    (fun z x => (a'.nodes z).size < (a'.nodes x).size) a.nextNode
  starts_eq : a'.freeSpaceStartAddressMap = a.freeSpaceStartAddressMap.add block.start a.nextNode
  stops_eq : a'.freeSpaceEndAddressMap = a.freeSpaceEndAddressMap.add block.stop a.nextNode

/-- The block of a node changes. A map is left alone if the node keeps its key. -/
structure Moves (a : MetaAllocator) (node : ℕ) (block : Span) (a' : MetaAllocator) : Prop where
  nodes_eq : a'.nodes = Function.update a.nodes node block
  nextNode_eq : a'.nextNode = a.nextNode
  tree_eq : a'.freeSpaceSizeMap = (a.freeSpaceSizeMap.erase node).orderedInsert
    (fun z x => (a'.nodes z).size < (a'.nodes x).size) node
  starts_eq : a'.freeSpaceStartAddressMap = a.freeSpaceStartAddressMap ∧
      block.start = (a.nodes node).start ∨
    a'.freeSpaceStartAddressMap =
      (a.freeSpaceStartAddressMap.remove (a.nodes node).start).add block.start node ∧
      ∀ n ∈ a.freeSpaceSizeMap, n ≠ node → (a.nodes n).start ≠ block.start
  stops_eq : a'.freeSpaceEndAddressMap = a.freeSpaceEndAddressMap ∧
      block.stop = (a.nodes node).stop ∨
    a'.freeSpaceEndAddressMap =
      (a.freeSpaceEndAddressMap.remove (a.nodes node).stop).add block.stop node ∧
      ∀ n ∈ a.freeSpaceSizeMap, n ≠ node → (a.nodes n).stop ≠ block.stop

lemma Indexed.unlink (h : a.Indexed) (hnode : node ∈ a.freeSpaceSizeMap)
    (hunl : Unlinks a node a') : a'.Indexed := by
  obtain ⟨hnodes, hnext, htree, hsts, hstops⟩ := hunl
  have hmem n : n ∈ a'.freeSpaceSizeMap ↔ n ∈ a.freeSpaceSizeMap ∧ n ≠ node := by
    rw [htree, h.nodup.mem_erase_iff, and_comm]
  refine ⟨htree ▸ h.nodup.erase node, fun n hn => ?_, ?_, ?_, ?_⟩
  · rw [hnext]
    exact h.lt_nextNode n ((hmem n).mp hn).1
  · rw [hnodes, htree]
    exact h.sorted.sublist erase_sublist
  · rw [hnodes, hsts]
    exact (HashMap.finds_remove h.starts hnode).congr (fun _ => rfl) hmem (fun _ _ => rfl)
  · rw [hnodes, hstops]
    exact (HashMap.finds_remove h.stops hnode).congr (fun _ => rfl) hmem (fun _ _ => rfl)

lemma Indexed.nextNode_notMem (h : a.Indexed) : a.nextNode ∉ a.freeSpaceSizeMap :=
  fun hmem => (h.lt_nextNode _ hmem).false

lemma Indexed.link (h : a.Indexed) (hlinks : Links a block a')
    (hst : ∀ n ∈ a.freeSpaceSizeMap, (a.nodes n).start ≠ block.start)
    (hstop : ∀ n ∈ a.freeSpaceSizeMap, (a.nodes n).stop ≠ block.stop) : a'.Indexed := by
  obtain ⟨hnodes, hnext, htree, hsts, hstops⟩ := hlinks
  have hmem n : n ∈ a'.freeSpaceSizeMap ↔ n ∈ a.freeSpaceSizeMap ∨ n = a.nextNode := by
    simp [htree, or_comm]
  have hold n (hn : n ∈ a.freeSpaceSizeMap) : a'.nodes n = a.nodes n := by
    rw [hnodes, update_of_ne (h.lt_nextNode n hn).ne]
  refine ⟨?_, fun n hn => ?_, ?_, ?_, ?_⟩
  · rw [htree, (perm_orderedInsert _ _ _).nodup_iff]
    exact nodup_cons.mpr ⟨h.nextNode_notMem, h.nodup⟩
  · rw [hnext]
    rcases (hmem n).mp hn with hn | rfl
    · exact (h.lt_nextNode n hn).trans (Nat.lt_succ_self _)
    · exact Nat.lt_succ_self _
  · rw [htree]
    refine pairwise_orderedInsert _ (h.sorted.imp_of_mem fun hm hn hle => ?_)
    rwa [hold _ hm, hold _ hn]
  · rw [hsts, hnodes]
    exact finds_link h.starts h.nextNode_notMem hmem hst
  · rw [hstops, hnodes]
    exact finds_link h.stops h.nextNode_notMem hmem hstop

lemma Indexed.move (h : a.Indexed) (hnode : node ∈ a.freeSpaceSizeMap)
    (hmoves : Moves a node block a') : a'.Indexed := by
  obtain ⟨hnodes, hnext, htree, hsts, hstops⟩ := hmoves
  have hnot : node ∉ a.freeSpaceSizeMap.erase node := h.nodup.not_mem_erase
  have hmem n : n ∈ a'.freeSpaceSizeMap ↔ n ∈ a.freeSpaceSizeMap := by
    rw [htree]
    by_cases hn : n = node
    · simp [hn, hnode]
    · simp [hn]
  refine ⟨?_, fun n hn => ?_, ?_, ?_, ?_⟩
  · rw [htree, (perm_orderedInsert _ _ _).nodup_iff]
    exact nodup_cons.mpr ⟨hnot, h.nodup.erase node⟩
  · rw [hnext]
    exact h.lt_nextNode n ((hmem n).mp hn)
  · rw [htree]
    refine pairwise_orderedInsert _ ?_
    refine (h.sorted.sublist erase_sublist).imp_of_mem fun hm hn hle => ?_
    rwa [hnodes, update_of_ne (ne_of_mem_of_not_mem hm hnot),
      update_of_ne (ne_of_mem_of_not_mem hn hnot)]
  · rw [hnodes]
    rcases hsts with ⟨heq, hkey⟩ | ⟨heq, hnew⟩
    · rw [heq]
      exact finds_keep h.starts hmem hkey
    · rw [heq]
      exact finds_move h.starts hnode hmem hnew
  · rw [hnodes]
    rcases hstops with ⟨heq, hkey⟩ | ⟨heq, hnew⟩
    · rw [heq]
      exact finds_keep h.stops hmem hkey
    · rw [heq]
      exact finds_move h.stops hnode hmem hnew

/-! ### Free blocks -/

def freeBlocks (a : MetaAllocator) : List Span := a.freeSpaceSizeMap.map a.nodes

/-- The free blocks of other nodes. -/
def restBlocks (a : MetaAllocator) (node : ℕ) : List Span :=
  (a.freeSpaceSizeMap.erase node).map a.nodes

lemma perm_freeBlocks (hnode : node ∈ a.freeSpaceSizeMap) :
    a.freeBlocks.Perm (a.nodes node :: a.restBlocks node) :=
  (perm_cons_erase hnode).map a.nodes

lemma Unlinks.freeBlocks_eq (h : Unlinks a node a') : a'.freeBlocks = a.restBlocks node := by
  rw [freeBlocks, h.nodes_eq, h.tree_eq, restBlocks]

/-- The blocks after a node is inserted whose block was set. -/
lemma perm_map_orderedInsert {nodes : ℕ → Span} {tree : List ℕ} (hnot : node ∉ tree)
    (r : ℕ → ℕ → Prop) [DecidableRel r] :
    ((tree.orderedInsert r node).map (Function.update nodes node block)).Perm
      (block :: tree.map nodes) := by
  have hperm := (perm_orderedInsert r node tree).map (update nodes node block)
  rw [map_cons, update_self] at hperm
  rwa [map_congr_left fun n hn =>
    update_of_ne (ne_of_mem_of_not_mem hn hnot) block nodes] at hperm

lemma Links.freeBlocks_perm (h : Links a block a') (hidxd : a.Indexed) :
    a'.freeBlocks.Perm (block :: a.freeBlocks) := by
  rw [freeBlocks, h.tree_eq, h.nodes_eq]
  exact perm_map_orderedInsert hidxd.nextNode_notMem _

lemma Moves.freeBlocks_perm (h : Moves a node block a') (hidxd : a.Indexed) :
    a'.freeBlocks.Perm (block :: a.restBlocks node) := by
  rw [freeBlocks, h.tree_eq, h.nodes_eq]
  exact perm_map_orderedInsert hidxd.nodup.not_mem_erase _

/-- The indexes find the same maximal blocks. -/
structure Consistent (a : MetaAllocator) : Prop extends a.Indexed where
  coalesced : Coalesced a.freeBlocks

lemma mem_restBlocks (h : a.Indexed) {n : ℕ} (hn : n ∈ a.freeSpaceSizeMap) (hne : n ≠ node) :
    a.nodes n ∈ a.restBlocks node :=
  mem_map_of_mem (h.nodup.mem_erase_iff.mpr ⟨hne, hn⟩)

lemma Consistent.coalesced_cons (h : a.Consistent) (hnode : node ∈ a.freeSpaceSizeMap) :
    Coalesced (a.nodes node :: a.restBlocks node) := h.coalesced.perm (perm_freeBlocks hnode)

lemma Consistent.stop_ne_start (h : a.Consistent) {m n : ℕ} (hm : m ∈ a.freeSpaceSizeMap)
    (hn : n ∈ a.freeSpaceSizeMap) : (a.nodes m).stop ≠ (a.nodes n).start :=
  h.coalesced.stop_ne_start _ (mem_map_of_mem hm) _ (mem_map_of_mem hn)

lemma Consistent.unlink (h : a.Consistent) (hnode : node ∈ a.freeSpaceSizeMap)
    (hunl : Unlinks a node a') :
    a'.Consistent ∧ ∀ x, cover a.freeBlocks x = cover [a.nodes node] x + cover a'.freeBlocks x := by
  refine ⟨⟨h.toIndexed.unlink hnode hunl, ?_⟩, fun x => ?_⟩
  · rw [hunl.freeBlocks_eq]
    exact (h.coalesced_cons hnode).tail
  · rw [cover_perm (perm_freeBlocks hnode), cover_cons, hunl.freeBlocks_eq]

/-! ### Taking free space -/

lemma findLeast_spec {shape key : ℕ} (h : a.findLeastGreaterThanOrEqual shape key = some node) :
    node ∈ a.freeSpaceSizeMap ∧ key ≤ (a.nodes node).size := by
  rw [findLeastGreaterThanOrEqual] at h
  rcases hdrop : a.freeSpaceSizeMap.dropWhile (fun node => (a.nodes node).size < key) with
    - | ⟨first, rest⟩
  · simp [hdrop] at h
  · rw [hdrop, Option.some.injEq, getD_eq_getElem?_getD] at h
    have hmem {n : ℕ} (hn : n ∈ first :: rest) : n ∈ a.freeSpaceSizeMap := by
      rw [← hdrop] at hn
      exact (dropWhile_suffix _).mem hn
    rcases hget : ((first :: rest).takeWhile fun node => (a.nodes node).size = key)[shape %
        ((first :: rest).takeWhile fun node => (a.nodes node).size = key).length]? with - | n
    · rw [hget] at h
      subst h
      refine ⟨hmem mem_cons_self, ?_⟩
      have hne : a.freeSpaceSizeMap.dropWhile (fun node => (a.nodes node).size < key) ≠ [] := by
        simp [hdrop]
      have hfst := head_dropWhile_not _ hne
      simpa [hdrop] using hfst
    · rw [hget] at h
      subst h
      have hn := mem_of_getElem? hget
      have hsize := mem_takeWhile_imp hn
      rw [decide_eq_true_iff] at hsize
      exact ⟨hmem ((List.takeWhile_prefix _).mem hn), hsize.ge⟩

/-- The free blocks without the space that is taken. -/
theorem Consistent.findAndRemoveFreeSpace (h : a.Consistent) {shape size start : ℕ}
    (hsize : 0 < size) (htake : a.findAndRemoveFreeSpace shape size = some (start, a')) :
    a'.Consistent ∧ ∀ x, cover a.freeBlocks x =
      cover [⟨start, size⟩] x + cover a'.freeBlocks x := by
  rw [MetaAllocator.findAndRemoveFreeSpace] at htake
  rcases hfind : a.findLeastGreaterThanOrEqual shape size with - | node
  · simp [hfind] at htake
  rw [hfind] at htake
  obtain ⟨hnode, hfits⟩ := findLeast_spec hfind
  have hcoal := h.coalesced_cons hnode
  have hrest {n x : ℕ} hn hne
      (hx : (a.nodes node).Contains x) : (a.nodes n).start ≠ x ∧ (a.nodes n).stop ≠ x + 1 :=
    Coalesced.ne_of_contains hcoal.tail.size_pos hcoal.cover_le
      (mem_restBlocks h.toIndexed hn hne) hx
  dsimp only at htake
  -- the whole node is taken, or the space at its start, or that at its end
  split_ifs at htake with hperf hleft
  · obtain ⟨rfl, ha'⟩ : _ = start ∧ _ = a' := by simpa using htake
    have hunl : Unlinks a node a' := by
      subst ha'
      exact ⟨rfl, rfl, rfl, rfl, rfl⟩
    rw [← hperf]
    exact h.unlink hnode hunl
  · obtain ⟨rfl, ha'⟩ : _ = start ∧ _ = a' := by simpa using htake
    have hlt : size < (a.nodes node).size := lt_of_le_of_ne hfits (Ne.symm hperf)
    have hmoves : Moves a node ⟨(a.nodes node).start + size, (a.nodes node).size - size⟩ a' := by
      subst ha'
      refine ⟨rfl, rfl, rfl, .inr ⟨rfl, fun n hn hne => ?_⟩, .inl ⟨rfl, ?_⟩⟩
      · exact (hrest hn hne ⟨Nat.le_add_right _ _, Nat.add_lt_add_left hlt _⟩).1
      · simp only [Span.stop]
        omega
    have hperm := hmoves.freeBlocks_perm h.toIndexed
    refine ⟨⟨h.toIndexed.move hnode hmoves, ?_⟩, fun x => ?_⟩
    · refine (hcoal.shrink ?_ ?_ ?_).perm hperm.symm
      all_goals simp only [Span.stop]; omega
    · rw [cover_perm (perm_freeBlocks hnode), cover_cons, cover_cut hfits, cover_perm hperm,
        cover_cons (l := a.restBlocks node), Nat.add_assoc]
  · obtain ⟨rfl, ha'⟩ : _ = start ∧ _ = a' := by simpa using htake
    have hstop : (a.nodes node).start + (a.nodes node).size - size =
        (Span.mk (a.nodes node).start ((a.nodes node).size - size)).stop :=
      Nat.add_sub_assoc hfits _
    have hmoves : Moves a node ⟨(a.nodes node).start, (a.nodes node).size - size⟩ a' := by
      rw [hstop] at ha'
      subst ha'
      refine ⟨rfl, rfl, rfl, .inl ⟨rfl, rfl⟩, .inr ⟨rfl, fun n hn hne => ?_⟩⟩
      have hlast : (a.nodes node).Contains
          ((a.nodes node).start + ((a.nodes node).size - size) - 1) := by
        simp only [Span.Contains, Span.stop]
        omega
      have hne' := (hrest hn hne hlast).2
      rwa [Nat.sub_add_cancel (by omega)] at hne'
    have hperm := hmoves.freeBlocks_perm h.toIndexed
    refine ⟨⟨h.toIndexed.move hnode hmoves, ?_⟩, fun x => ?_⟩
    · refine (hcoal.shrink ?_ ?_ ?_).perm hperm.symm
      all_goals simp only [Span.stop]; omega
    · rw [cover_perm (perm_freeBlocks hnode), cover_cons,
        cover_cut (Nat.sub_le (a.nodes node).size size), cover_perm hperm,
        cover_cons (l := a.restBlocks node), Nat.sub_sub_self hfits, hstop, ← Nat.add_assoc]
      rw [Nat.add_comm (cover [Span.mk (a.nodes node).start _] x)]
      rfl

/-! ### Adding free space -/

/-- A span next to the block of a node is added to it. -/
lemma Consistent.grow (h : a.Consistent) {s : Span} (hnode : node ∈ a.freeSpaceSizeMap)
    (hmoves : Moves a node block a') (hsize : 0 < block.size)
    (hcov : ∀ x, cover [s] x + cover a.freeBlocks x ≤ 1)
    (hblock : ∀ x, cover [block] x = cover [s] x + cover [a.nodes node] x)
    (hleft : ∀ n ∈ a.freeSpaceSizeMap, (a.nodes n).stop ≠ block.start)
    (hrt : ∀ n ∈ a.freeSpaceSizeMap, block.stop ≠ (a.nodes n).start) :
    a'.Consistent ∧ ∀ x, cover a'.freeBlocks x = cover [s] x + cover a.freeBlocks x := by
  have hperm := hmoves.freeBlocks_perm h.toIndexed
  have hcov' x : cover (block :: a.restBlocks node) x = cover [s] x + cover a.freeBlocks x := by
    rw [cover_cons, hblock, cover_perm (perm_freeBlocks hnode), cover_cons (l := a.restBlocks node),
      Nat.add_assoc]
  have hrest {t : Span} (ht : t ∈ a.restBlocks node) : ∃ n ∈ a.freeSpaceSizeMap, a.nodes n = t := by
    obtain ⟨n, hn, rfl⟩ := mem_map.mp ht
    exact ⟨n, mem_of_mem_erase hn, rfl⟩
  refine ⟨⟨h.toIndexed.move hnode hmoves, ?_⟩, fun x => (cover_perm hperm).trans (hcov' x)⟩
  refine ((h.coalesced_cons hnode).tail.cons hsize (fun x => hcov' x ▸ hcov x) ?_ ?_).perm
    hperm.symm
  · intro t ht
    obtain ⟨n, hn, rfl⟩ := hrest ht
    exact hleft n hn
  · intro t ht
    obtain ⟨n, hn, rfl⟩ := hrest ht
    exact hrt n hn

/-- No node has a key that is not in its map. -/
lemma ne_of_get?_eq_none {m : HashMap ℕ ℕ} {live : ℕ → Prop} {k : ℕ}
    (h : Finds m.get? key live) (hnone : m.get? k = none) (n : ℕ) (hn : live n) : key n ≠ k := by
  intro hkey
  rw [(h k n).mpr ⟨hn, hkey⟩] at hnone
  cases hnone

section

variable {s : Span} (h : a.Consistent) (hsize : 0 < s.size)
  (hcov : ∀ x, cover [s] x + cover a.freeBlocks x ≤ 1)

include h hsize hcov

/-- A free block is elsewhere than space that is not free. -/
lemma Consistent.ne_of_cover {n : ℕ} (hn : n ∈ a.freeSpaceSizeMap) :
    (a.nodes n).start ≠ s.start ∧ (a.nodes n).stop ≠ s.stop := by
  have hcov' x : cover (s :: a.freeBlocks) x ≤ 1 := cover_cons ▸ hcov x
  have hmem : a.nodes n ∈ a.freeBlocks := mem_map_of_mem hn
  have hne {x : ℕ} (hx : s.Contains x) :=
    Coalesced.ne_of_contains h.coalesced.size_pos hcov' hmem hx
  refine ⟨(hne ⟨le_rfl, Nat.lt_add_of_pos_right hsize⟩).1, ?_⟩
  have hlast : s.Contains (s.stop - 1) := by
    simp only [Span.Contains, Span.stop]
    omega
  have := (hne hlast).2
  rwa [Nat.sub_add_cancel (by rw [Span.stop]; omega)] at this

/-- Space between two free blocks. The node on the right is given up. -/
lemma Consistent.join {left rightNode : ℕ} (hleft : left ∈ a.freeSpaceSizeMap)
    (hrt : rightNode ∈ a.freeSpaceSizeMap) (hstop : (a.nodes left).stop = s.start)
    (hst : (a.nodes rightNode).start = s.stop)
    (hnodes : a'.nodes = Function.update a.nodes left ⟨(a.nodes left).start,
      (a.nodes left).size + (s.size + (a.nodes rightNode).size)⟩) (hnext : a'.nextNode = a.nextNode)
    (htree : a'.freeSpaceSizeMap =
      ((a.freeSpaceSizeMap.erase left).erase rightNode).orderedInsert
        (fun z x => (a'.nodes z).size < (a'.nodes x).size) left)
    (hsts : a'.freeSpaceStartAddressMap = a.freeSpaceStartAddressMap.remove s.stop)
    (hstops : a'.freeSpaceEndAddressMap = ((a.freeSpaceEndAddressMap.remove
      (a.nodes left).stop).remove (a.nodes rightNode).stop).add (a.nodes rightNode).stop
      left) : a'.Consistent ∧ ∀ x, cover a'.freeBlocks x = cover [s] x + cover a.freeBlocks x := by
  -- the node on the right is unlinked first; then the left one grows over both
  have hunl : Unlinks a rightNode { a.removeNode rightNode with
      freeSpaceStartAddressMap := a.freeSpaceStartAddressMap.remove (a.nodes rightNode).start
      freeSpaceEndAddressMap := a.freeSpaceEndAddressMap.remove (a.nodes rightNode).stop } :=
    ⟨rfl, rfl, rfl, rfl, rfl⟩
  generalize { a.removeNode rightNode with
      freeSpaceStartAddressMap := a.freeSpaceStartAddressMap.remove (a.nodes rightNode).start
      freeSpaceEndAddressMap := a.freeSpaceEndAddressMap.remove (a.nodes rightNode).stop } = a₁
    at hunl
  obtain ⟨h₁, hcover₁⟩ := h.unlink hrt hunl
  have hmem {n : ℕ} : n ∈ a₁.freeSpaceSizeMap ↔ n ≠ rightNode ∧ n ∈ a.freeSpaceSizeMap := by
    rw [hunl.tree_eq, h.nodup.mem_erase_iff]
  have hne : left ≠ rightNode := by
    rintro rfl
    simp only [Span.stop] at hstop hst
    omega
  have hstop' : (Span.mk (a.nodes left).start
      ((a.nodes left).size + (s.size + (a.nodes rightNode).size))).stop =
        (a.nodes rightNode).stop := by
    simp only [Span.stop] at hstop hst ⊢
    omega
  have hmoves : Moves a₁ left ⟨(a.nodes left).start,
      (a.nodes left).size + (s.size + (a.nodes rightNode).size)⟩ a' := by
    refine ⟨?_, ?_, ?_, .inl ⟨?_, ?_⟩, .inr ⟨?_, fun n hn _ => ?_⟩⟩
    · rw [hnodes, hunl.nodes_eq]
    · rw [hnext, hunl.nextNode_eq]
    · rw [htree, hunl.tree_eq, erase_comm]
    · rw [hsts, hunl.starts_eq, hst]
    · rw [hunl.nodes_eq]
    · rw [hstops, hunl.stops_eq, hunl.nodes_eq, hstop', HashMap.remove_comm]
    · rw [hunl.nodes_eq, hstop']
      obtain ⟨hn, hmem⟩ := hmem.mp hn
      exact fun heq => hn (h.stops.eq_of_key hmem hrt heq)
  have hblock x : cover [⟨s.start, s.size + (a.nodes rightNode).size⟩] x +
      cover a₁.freeBlocks x = cover [s] x + cover a.freeBlocks x := by
    rw [cover_adjacent hst.symm, hcover₁, Nat.add_assoc]
  refine (h₁.grow (hmem.mpr ⟨hne, hleft⟩) hmoves (Nat.add_pos_right _ (Nat.add_pos_left hsize _))
    (fun x => hblock x ▸ hcov x) (fun x => ?_) (fun n hn => ?_) (fun n hn => ?_)).imp_right
    fun hcov' x => (hcov' x).trans (hblock x)
  · rw [hunl.nodes_eq, Nat.add_comm (cover _ x)]
    exact cover_adjacent (t := ⟨s.start, s.size + (a.nodes rightNode).size⟩) hstop
  · rw [hunl.nodes_eq]
    exact h.stop_ne_start (hmem.mp hn).2 hleft
  · rw [hunl.nodes_eq, hstop']
    exact h.stop_ne_start hrt (hmem.mp hn).2

end

/-- The free blocks with the space that is added. -/
theorem Consistent.addFreeSpace (h : a.Consistent) {start size : ℕ} (hsize : 0 < size)
    (hcov : ∀ x, cover [⟨start, size⟩] x + cover a.freeBlocks x ≤ 1) :
    (a.addFreeSpace start size).Consistent ∧
      ∀ x, cover (a.addFreeSpace start size).freeBlocks x =
        cover [⟨start, size⟩] x + cover a.freeBlocks x := by
  generalize ha' : a.addFreeSpace start size = a'
  rw [MetaAllocator.addFreeSpace] at ha'
  have hne {n : ℕ} (hn : n ∈ a.freeSpaceSizeMap) := h.ne_of_cover hsize hcov hn
  rcases hleft : a.freeSpaceEndAddressMap.get? start with - | left <;>
    rcases hrt : a.freeSpaceStartAddressMap.get? (start + size) with - | right
  -- no neighbor is free, so that the space gets a node of its own
  · have hlinks : Links a ⟨start, size⟩ a' := by
      rw [hleft, hrt] at ha'
      subst ha'
      exact ⟨rfl, rfl, rfl, rfl, rfl⟩
    have hperm := hlinks.freeBlocks_perm h.toIndexed
    refine ⟨⟨h.toIndexed.link hlinks (fun n hn => (hne hn).1) (fun n hn => (hne hn).2), ?_⟩,
      fun x => (cover_perm hperm).trans cover_cons⟩
    refine (h.coalesced.cons hsize (fun x => cover_cons ▸ hcov x) ?_ ?_).perm hperm.symm
    · intro t ht
      obtain ⟨n, hn, rfl⟩ := mem_map.mp ht
      exact ne_of_get?_eq_none h.stops hleft n hn
    · intro t ht
      obtain ⟨n, hn, rfl⟩ := mem_map.mp ht
      exact (ne_of_get?_eq_none h.starts hrt n hn).symm
  -- the node behind the space is extended to the left
  · obtain ⟨hnode, hst⟩ := (h.starts _ _).mp hrt
    dsimp only at hst
    have hstop : (Span.mk start ((a.nodes right).size + size)).stop = (a.nodes right).stop := by
      simp only [Span.stop]
      omega
    have hmoves : Moves a right ⟨start, (a.nodes right).size + size⟩ a' := by
      rw [hleft, hrt] at ha'
      subst ha'
      refine ⟨rfl, rfl, rfl, .inr ⟨?_, fun n hn _ => (hne hn).1⟩, .inl ⟨rfl, hstop⟩⟩
      rw [hst]
      rfl
    refine h.grow hnode hmoves (Nat.add_pos_right _ hsize) hcov (fun x => ?_) ?_ ?_
    · have hadj : (Span.mk start size).stop = (a.nodes right).start := hst.symm
      rw [← cover_adjacent hadj, Nat.add_comm]
    · exact ne_of_get?_eq_none h.stops hleft
    · intro n hn
      rw [hstop]
      exact h.stop_ne_start hnode hn
  -- the node before the space is extended to the right
  · obtain ⟨hnode, hstop⟩ := (h.stops _ _).mp hleft
    have hstop' : (Span.mk (a.nodes left).start ((a.nodes left).size + size)).stop =
        start + size := by
      simp only [Span.stop] at hstop ⊢
      omega
    have hmoves : Moves a left ⟨(a.nodes left).start, (a.nodes left).size + size⟩ a' := by
      rw [hleft, hrt] at ha'
      subst ha'
      refine ⟨rfl, rfl, rfl, .inl ⟨rfl, rfl⟩, .inr ⟨?_, fun n hn _ => ?_⟩⟩
      · rw [hstop']
        rfl
      · rw [hstop']
        exact (hne hn).2
    refine h.grow hnode hmoves (Nat.add_pos_right _ hsize) hcov (fun x => ?_) ?_ ?_
    · rw [cover_adjacent (t := ⟨start, size⟩) hstop, Nat.add_comm]
    · intro n hn
      exact h.stop_ne_start hn hnode
    · intro n hn
      rw [hstop']
      exact (ne_of_get?_eq_none h.starts hrt n hn).symm
  -- the node before the space takes the space and the node behind it
  · obtain ⟨hleftNode, hstop⟩ := (h.stops _ _).mp hleft
    obtain ⟨hrightNode, hst⟩ := (h.starts _ _).mp hrt
    have hstop' : start + size + (a.nodes right).size = (a.nodes right).stop := by
      rw [← hst, Span.stop]
    rw [hleft, hrt] at ha'
    refine h.join hsize hcov hleftNode hrightNode hstop hst ?_ ?_ ?_ ?_ ?_
    all_goals subst ha'
    · rfl
    · rfl
    · rfl
    · rfl
    · rw [← hstop']
      rfl

end MetaAllocator

end WebKit.WTF
