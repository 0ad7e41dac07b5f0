import WebKit.ContentExtensions.DFABytecodeCompiler.Layout

/-!
# The link records

The linker fills in the distance of every record at a place of its own, where zeroes stood, and the
distance is read back.
-/

namespace WebKit.ContentExtensions.DFABytecodeCompiler

open Bytes Linking List

/-- The distance of a record: the destination is compiled and the distance has the chosen size, the
slot held zeroes, and the distance is read back. -/
structure Linked (st : State) (bytecode : List ℕ) (record : LinkRecord) : Prop where
  header_le : dfaHeaderSize ≤ record.jumpLocation
  placeholder : ∃ rest, st.bytecode.drop record.jumpLocation =
    replicate (jumpSizeInBytes record.jumpSize) 0 ++ rest
  distance : ∃ destination < 2 ^ 31 - 1,
    st.nodeStartOffsets.get record.destinationNodeIndex = some destination ∧
    Fits (jumpSizeInBytes record.jumpSize) (destination - record.instructionLocation) ∧
    getJumpDistance bytecode record.jumpLocation record.jumpSize =
      destination - record.instructionLocation

variable {dfa : DFA} {st : State} {starts : ℕ → ℕ} {code : List (Piece DFABytecodeJumpSize)}

lemma Layout.linked (h : Layout dfa st starts code) {record : LinkRecord}
    (hrecord : record ∈ st.linkRecords) :
    Linked st (split dfaHeaderSize st.bytecode.length ++
      encode jumpSizeInBytes starts dfaHeaderSize code) record := by
  have hmem : record.toReference ∈ references jumpSizeInBytes dfaHeaderSize code := by
    rw [← h.linkRecords]
    exact mem_map_of_mem hrecord
  have hle : dfaHeaderSize ≤ record.jumpLocation := le_place_of_mem hmem
  refine ⟨hle, ?_, ?_⟩
  · have hplace : record.jumpLocation =
        (split dfaHeaderSize 0).length + (record.jumpLocation - dfaHeaderSize) := by
      rw [length_split]
      omega
    rw [h.bytecode, hplace, ← drop_drop, drop_left]
    exact drop_blank hmem
  · obtain ⟨hvalid, -⟩ := h.valid.mem_references (R := fun _ _ t => Valid dfa t) hmem
    obtain ⟨hstart, hlt⟩ := h.start _ hvalid
    have hlength := h.length_lt
    have hcode : CodeAt jumpSizeInBytes starts (split dfaHeaderSize st.bytecode.length ++
        encode jumpSizeInBytes starts dfaHeaderSize code) dfaHeaderSize code :=
      ⟨⟨[], by rw [drop_left' (length_split _ _), append_nil]⟩, h.inRange⟩
    obtain ⟨hfits, rest, hdrop⟩ := hcode.reference hmem
    exact ⟨_, by omega, hstart, hfits, getJumpDistance_of_drop hfits hdrop⟩

/-- The assertions of the linker hold, and every distance is filled in where no other one stands. -/
theorem compile_linked (h : Linkable dfa) (hsize : (maxNodeStartOffsets dfa).2 < 2 ^ 31) :
    ∃ bytecode, compile dfa = some bytecode ∧
      (compileNodes dfa).linkRecords.Pairwise (fun record record' =>
        record.jumpLocation + jumpSizeInBytes record.jumpSize ≤ record'.jumpLocation) ∧
      ∀ record ∈ (compileNodes dfa).linkRecords, Linked (compileNodes dfa) bytecode record := by
  obtain ⟨code, hinv⟩ := exists_inv_compileNodes h hsize
  rw [maxOffsets_snd] at hsize
  have hlayout := hinv.layout hsize
  refine ⟨_, ?_, ?_, fun record hrecord => hlayout.linked hrecord⟩
  · rw [compile, hlayout.foldlM_link]
    exact hlayout.setBits_header
  · have hpairwise := @pairwise_references _ jumpSizeInBytes dfaHeaderSize code
    rw [← hlayout.linkRecords, pairwise_map] at hpairwise
    exact hpairwise

/-- The root leads to the second node, and that one back to the root. -/
def roundTrip : DFA :=
  ⟨⟨2, fun i => if i = 0 then DFANode.live [] [⟨97, 97, 1⟩]
    else DFANode.live [7] [⟨97, 98, 0⟩]⟩, 0⟩

theorem compile_linked_roundTrip : ∃ bytecode, compile roundTrip = some bytecode ∧
    (compileNodes roundTrip).linkRecords.Pairwise (fun record record' =>
      record.jumpLocation + jumpSizeInBytes record.jumpSize ≤ record'.jumpLocation) ∧
    ∀ record ∈ (compileNodes roundTrip).linkRecords,
      Linked (compileNodes roundTrip) bytecode record := by
  refine compile_linked ⟨⟨by decide, ?_, ?_, ?_⟩, ?_⟩ (by decide +kernel) <;> intro i hi <;>
    rcases (show i = 0 ∨ i = 1 by have : i < 2 := hi; omega) with rfl | rfl <;> decide

/-- The root leads to a killed node. -/
def deadEnd : DFA :=
  ⟨⟨2, fun i => if i = 0 then DFANode.live [] [⟨97, 97, 1⟩] else DFANode.killed⟩, 0⟩

/-- The linker finds no start of the killed node. -/
theorem compile_deadEnd : deadEnd.WF ∧ (maxNodeStartOffsets deadEnd).2 < 2 ^ 31 ∧
    compile deadEnd = none := by
  refine ⟨⟨by decide, ?_, ?_, ?_⟩, by decide +kernel, by decide +kernel⟩ <;> intro i hi <;>
    rcases (show i = 0 ∨ i = 1 by have : i < 2 := hi; omega) with rfl | rfl <;> decide

end WebKit.ContentExtensions.DFABytecodeCompiler
