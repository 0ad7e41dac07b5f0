import WebKit.Core.Run
import WebKit.Core.Span
import WebKit.WTF.HashMap

/-!
# The allocator of executable memory

A `MetaAllocator` hands out parts of the memory it was given. Free blocks are nodes that are found
by their size, by their start and by their end. Each page counts the handles on it, and is committed
while there are any.
-/

namespace WebKit.WTF

open WebKit.Core

/-- The calls of `notifyNeedPage` and `notifyPageIsFree`, with the number of the page. -/
inductive Notification
  | needPage (page : ℕ)
  | pageIsFree (page : ℕ)
deriving DecidableEq, Repr

/-- Nodes of free space are numbers, and `nodes` is what they point to. The tree of nodes is the
list of its nodes in order. -/
structure MetaAllocator where
  logAllocationGranule : ℕ
  logPageSize : ℕ
  nodes : ℕ → Span := fun _ => ⟨0, 0⟩
  nextNode : ℕ := 0
  freeSpaceSizeMap : List ℕ := []
  freeSpaceStartAddressMap : HashMap ℕ ℕ := .empty
  freeSpaceEndAddressMap : HashMap ℕ ℕ := .empty
  pageOccupancyMap : HashMap ℕ ℕ := .empty
  bytesAllocated : ℕ := 0
  bytesReserved : ℕ := 0
  bytesCommitted : ℕ := 0
  /-- The regions that `bytesReserved` counts. -/
  reserved : List Span := []
  /-- The latest one first. -/
  notifications : List Notification := []

namespace MetaAllocator

def allocationGranule (a : MetaAllocator) : ℕ := 2 ^ a.logAllocationGranule

def pageSize (a : MetaAllocator) : ℕ := 2 ^ a.logPageSize

/-- A multiple of the granule, or `none` for the crash on a size that is too large. -/
def roundUp (a : MetaAllocator) (sizeInBytes : ℕ) : Option ℕ :=
  if 2 ^ 64 - 1 - a.allocationGranule ≤ sizeInBytes then none
  else some ((sizeInBytes + a.allocationGranule - 1) / a.allocationGranule * a.allocationGranule)

/-! ### The tree of nodes -/

/-- A node goes behind the nodes of its size. -/
def insertNode (a : MetaAllocator) (node : ℕ) : MetaAllocator :=
  { a with
    freeSpaceSizeMap := a.freeSpaceSizeMap.orderedInsert
      (fun z x => (a.nodes z).size < (a.nodes x).size) node }

def removeNode (a : MetaAllocator) (node : ℕ) : MetaAllocator :=
  { a with freeSpaceSizeMap := a.freeSpaceSizeMap.erase node }

/-- A node of the least size that is large enough. It is the first one in the tree if it is larger,
and any one of this size otherwise, depending on the shape of the tree. -/
def findLeastGreaterThanOrEqual (a : MetaAllocator) (shape key : ℕ) : Option ℕ :=
  match a.freeSpaceSizeMap.dropWhile fun node => (a.nodes node).size < key with
  | [] => none
  | node :: rest =>
    let exactNodes := (node :: rest).takeWhile fun node => (a.nodes node).size = key
    some (exactNodes.getD (shape % exactNodes.length) node)

/-! ### Free space -/

/-- Set the block of a node. -/
def setNode (a : MetaAllocator) (node : ℕ) (block : Span) : MetaAllocator :=
  { a with nodes := Function.update a.nodes node block }

/-- The start of the space, which is no longer free. -/
def findAndRemoveFreeSpace (a : MetaAllocator) (shape sizeInBytes : ℕ) :
    Option (ℕ × MetaAllocator) :=
  match a.findLeastGreaterThanOrEqual shape sizeInBytes with
  | none => none
  | some node =>
    let block := a.nodes node
    let a := a.removeNode node
    if block.size = sizeInBytes then
      some (block.start, { a with
        freeSpaceStartAddressMap := a.freeSpaceStartAddressMap.remove block.start
        freeSpaceEndAddressMap := a.freeSpaceEndAddressMap.remove block.stop })
    else
      let firstPage := block.start / a.pageSize
      let lastPage := (block.start + block.size - 1) / a.pageSize
      let lastPageForLeftAllocation := (block.start + sizeInBytes - 1) / a.pageSize
      let firstPageForRightAllocation := (block.start + block.size - sizeInBytes) / a.pageSize
      if lastPageForLeftAllocation - firstPage + 1 ≤ lastPage - firstPageForRightAllocation + 1 then
        -- The node slides to the right.
        let a := { a with
          freeSpaceStartAddressMap := a.freeSpaceStartAddressMap.remove block.start }
        let a := a.setNode node ⟨block.start + sizeInBytes, block.size - sizeInBytes⟩
        let a := a.insertNode node
        some (block.start, { a with freeSpaceStartAddressMap :=
          a.freeSpaceStartAddressMap.add (block.start + sizeInBytes) node })
      else
        let result := block.start + block.size - sizeInBytes
        let a := { a with freeSpaceEndAddressMap := a.freeSpaceEndAddressMap.remove block.stop }
        let a := a.setNode node ⟨block.start, block.size - sizeInBytes⟩
        let a := a.insertNode node
        some (result, { a with
          freeSpaceEndAddressMap := a.freeSpaceEndAddressMap.add result node })

def addFreeSpace (a : MetaAllocator) (start sizeInBytes : ℕ) : MetaAllocator :=
  let stop := start + sizeInBytes
  let leftNeighbor := a.freeSpaceEndAddressMap.get? start
  let rightNeighbor := a.freeSpaceStartAddressMap.get? stop
  match leftNeighbor, rightNeighbor with
  | some leftNode, some rightNode =>
    let left := a.nodes leftNode
    let a := a.removeNode leftNode
    let a := { a with freeSpaceEndAddressMap := a.freeSpaceEndAddressMap.remove left.stop }
    let right := a.nodes rightNode
    let a := a.removeNode rightNode
    let a := { a with
      freeSpaceStartAddressMap := a.freeSpaceStartAddressMap.remove stop
      freeSpaceEndAddressMap := a.freeSpaceEndAddressMap.remove (stop + right.size) }
    let a := a.setNode leftNode ⟨left.start, left.size + (sizeInBytes + right.size)⟩
    let a := a.insertNode leftNode
    { a with freeSpaceEndAddressMap := a.freeSpaceEndAddressMap.add (stop + right.size) leftNode }
  | some leftNode, none =>
    let left := a.nodes leftNode
    let a := a.removeNode leftNode
    let a := { a with freeSpaceEndAddressMap := a.freeSpaceEndAddressMap.remove left.stop }
    let a := a.setNode leftNode ⟨left.start, left.size + sizeInBytes⟩
    let a := a.insertNode leftNode
    { a with freeSpaceEndAddressMap := a.freeSpaceEndAddressMap.add stop leftNode }
  | none, some rightNode =>
    let right := a.nodes rightNode
    let a := a.removeNode rightNode
    let a := { a with freeSpaceStartAddressMap := a.freeSpaceStartAddressMap.remove stop }
    let a := a.setNode rightNode ⟨start, right.size + sizeInBytes⟩
    let a := a.insertNode rightNode
    { a with freeSpaceStartAddressMap := a.freeSpaceStartAddressMap.add start rightNode }
  | none, none =>
    let node := a.nextNode
    let a := { a with nextNode := a.nextNode + 1 }
    let a := a.setNode node ⟨start, sizeInBytes⟩
    let a := a.insertNode node
    { a with
      freeSpaceStartAddressMap := a.freeSpaceStartAddressMap.add start node
      freeSpaceEndAddressMap := a.freeSpaceEndAddressMap.add stop node }

def addFreeSpaceFromReleasedHandle (a : MetaAllocator) (start sizeInBytes : ℕ) : MetaAllocator :=
  { a with bytesAllocated := a.bytesAllocated - sizeInBytes }.addFreeSpace start sizeInBytes

def reserve (a : MetaAllocator) (region : Span) : MetaAllocator :=
  { a with bytesReserved := a.bytesReserved + region.size, reserved := region :: a.reserved }

def addFreshFreeSpace (a : MetaAllocator) (start sizeInBytes : ℕ) : MetaAllocator :=
  (a.reserve ⟨start, sizeInBytes⟩).addFreeSpace start sizeInBytes

/-! ### Pages -/

/-- The pages from the first to the last one. -/
def pages (a : MetaAllocator) (address sizeInBytes : ℕ) : List ℕ :=
  let firstPage := address / a.pageSize
  let lastPage := (address + sizeInBytes - 1) / a.pageSize
  List.range' firstPage (lastPage + 1 - firstPage)

def incrementPage (a : MetaAllocator) (page : ℕ) : MetaAllocator :=
  match a.pageOccupancyMap.get? page with
  | none => { a with
      pageOccupancyMap := a.pageOccupancyMap.add page 1
      bytesCommitted := a.bytesCommitted + a.pageSize
      notifications := .needPage page :: a.notifications }
  | some count => { a with pageOccupancyMap := a.pageOccupancyMap.set page (count + 1) }

def incrementPageOccupancy (a : MetaAllocator) (address sizeInBytes : ℕ) : MetaAllocator :=
  (a.pages address sizeInBytes).foldl incrementPage a

def decrementPage (a : MetaAllocator) (page : ℕ) : MetaAllocator :=
  match a.pageOccupancyMap.get? page with
  | none => a
  | some count =>
    if count - 1 = 0 then { a with
      pageOccupancyMap := a.pageOccupancyMap.remove page
      bytesCommitted := a.bytesCommitted - a.pageSize
      notifications := .pageIsFree page :: a.notifications }
    else { a with pageOccupancyMap := a.pageOccupancyMap.set page (count - 1) }

def decrementPageOccupancy (a : MetaAllocator) (address sizeInBytes : ℕ) : MetaAllocator :=
  (a.pages address sizeInBytes).foldl decrementPage a

def isInAllocatedMemory (a : MetaAllocator) (address : ℕ) : Bool :=
  a.pageOccupancyMap.contains (address / a.pageSize)

/-! ### Handles -/

/-- What `allocateNewSpace` gives for a number of pages: the start and the number of the pages that
are reserved. -/
abbrev NewSpace := ℕ → Option (ℕ × ℕ)

def requestedNumberOfPages (a : MetaAllocator) (sizeInBytes : ℕ) : ℕ :=
  (sizeInBytes + a.pageSize - 1) % 2 ^ 64 / a.pageSize

/-- The start of space of this size, from what is free or from new space. -/
def takeSpace (a : MetaAllocator) (shape : ℕ) (allocateNewSpace : NewSpace) (sizeInBytes : ℕ) :
    Option (ℕ × MetaAllocator) :=
  match a.findAndRemoveFreeSpace shape sizeInBytes with
  | some result => some result
  | none =>
    match allocateNewSpace (a.requestedNumberOfPages sizeInBytes) with
    | none => none
    | some (start, numberOfPages) =>
      let roundedUpSize := numberOfPages * a.pageSize
      let a := a.reserve ⟨start, roundedUpSize⟩
      if roundedUpSize > sizeInBytes then
        some (start, a.addFreeSpace (start + sizeInBytes) (roundedUpSize - sizeInBytes))
      else some (start, a)

/-- The new handle if there is one, and the allocator. The result is `none` if the program
crashes. -/
def allocate (a : MetaAllocator) (shape : ℕ) (allocateNewSpace : NewSpace) (sizeInBytes : ℕ) :
    Option (Option Span × MetaAllocator) :=
  if sizeInBytes = 0 then some (none, a)
  else do
    let sizeInBytes ← a.roundUp sizeInBytes
    match a.takeSpace shape allocateNewSpace sizeInBytes with
    | none => return (none, a)
    | some (start, a) =>
      let a := a.incrementPageOccupancy start sizeInBytes
      return (some ⟨start, sizeInBytes⟩,
        { a with bytesAllocated := a.bytesAllocated + sizeInBytes })

def release (a : MetaAllocator) (handle : Span) : MetaAllocator :=
  if handle.size = 0 then a
  else (a.decrementPageOccupancy handle.start handle.size).addFreeSpaceFromReleasedHandle
    handle.start handle.size

/-- A handle gives up the pages that no part of it is left on. -/
def decrementCompletelyFreePages (a : MetaAllocator) (freeStart freeSize : ℕ) : MetaAllocator :=
  let freeEnd := freeStart + freeSize
  let firstCompletelyFreePage := (freeStart + a.pageSize - 1) / a.pageSize * a.pageSize
  if firstCompletelyFreePage < freeEnd then
    a.decrementPageOccupancy firstCompletelyFreePage
      (freeSize - (firstCompletelyFreePage - freeStart))
  else a

/-- The handle with its new size. -/
def shrink (a : MetaAllocator) (handle : Span) (newSizeInBytes : ℕ) :
    Option (Span × MetaAllocator) := do
  let newSizeInBytes ← a.roundUp newSizeInBytes
  if newSizeInBytes = handle.size then some (handle, a)
  else
    let freeStart := handle.start + newSizeInBytes
    let freeSize := handle.size - newSizeInBytes
    let a := a.decrementCompletelyFreePages freeStart freeSize
    some (⟨handle.start, newSizeInBytes⟩, a.addFreeSpaceFromReleasedHandle freeStart freeSize)

end MetaAllocator

/-! ### Histories -/

/-- An allocator and the handles that are live. -/
structure Heap where
  allocator : MetaAllocator
  handles : List Span

/-- Handles are named by their place in the list of live handles. -/
inductive Operation
  | addFreshFreeSpace (start sizeInBytes : ℕ)
  | allocate (shape : ℕ) (allocateNewSpace : MetaAllocator.NewSpace) (sizeInBytes : ℕ)
  | shrink (handle newSizeInBytes : ℕ)
  | release (handle : ℕ)

/-- The next state, or `none` if there is no such handle or the program crashes. -/
def Heap.step (s : Heap) : Operation → Option Heap
  | .addFreshFreeSpace start sizeInBytes =>
    some ⟨s.allocator.addFreshFreeSpace start sizeInBytes, s.handles⟩
  | .allocate shape allocateNewSpace sizeInBytes => do
    let (handle, allocator) ← s.allocator.allocate shape allocateNewSpace sizeInBytes
    return ⟨allocator, handle.toList ++ s.handles⟩
  | .shrink i newSizeInBytes => do
    let handle ← s.handles[i]?
    let (handle, allocator) ← s.allocator.shrink handle newSizeInBytes
    return ⟨allocator, s.handles.set i handle⟩
  | .release i => do
    let handle ← s.handles[i]?
    return ⟨s.allocator.release handle, s.handles.eraseIdx i⟩

end WebKit.WTF
