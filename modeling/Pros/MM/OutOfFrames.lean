import Pros.MM.AddressSpace

/-!
# Running out of frames

The null that `getFreePhysicalPage` returns when it fails becomes the address 3 GiB before anything looks at it.
Here it is said what a caller that looked would guarantee: `mapPage` leaves memory alone when it is refused a page
table (`KeepsMemory`), and `initVMM` does not put frame 0 to use when it is refused a frame (`AvoidsFrameZero`). For
flat memory the same is said of all states, whether the kernel's pointers lead anywhere or not.
-/

namespace Pros

open MemoryManager PageEntry

/-! ## `mapPage` -/

/-- There is no page table for `virt`, and no frame for one. -/
def TableRefused (s : MemoryManager) (virt : U32) : Prop :=
  present (s.walkDirectory virt) = false ∧ (s.getFreePhysicalPage 1).1 = nullptr

/-- A call that is refused a page table, and comes back, has changed no byte of memory. -/
def KeepsMemory (s : MemoryManager) (phys virt : U32) : Prop :=
  TableRefused s virt → ∀ s', s.mapPage phys virt = some s' → s'.ram.byte = s.ram.byte

/-- The same on flat memory. -/
def FlatKeepsMemory (s : MemoryManager) (phys virt : U32) : Prop :=
  TableRefused s virt → (s.flatMapPage phys virt).ram.byte = s.ram.byte

/-! ## `initVMM` -/

/-- A page of the heap and the page table it is entered in are not in frame 0. -/
def RoundAvoidsZero (m : MemoryManager) (phys virt : U32) : Prop :=
  pageOf phys ≠ 0 ∧ pageOf (editedTable m virt) ≠ 0

/-- `P` holds of the arguments of `mapPage`, and of the state it is called in, in every round of the second loop of
    `initVMM` that is begun. -/
def HeapRounds (P : MemoryManager → U32 → U32 → Prop) (s : MemoryManager)
    (physicalAddress virtualAddress : U32) : (fuel : ℕ) → Prop
  | 0 => True
  | fuel + 1 =>
    if virtualAddress < KERNEL_HEAP_START + KERNEL_HEAP_SIZE then
      P s physicalAddress virtualAddress ∧ ∀ s', s.mapPage physicalAddress virtualAddress = some s' →
        let (physicalAddress, s') := s'.getFreePhysicalPage 1
        HeapRounds P s' physicalAddress (virtualAddress + PAGE_SIZE) fuel
    else True

/-- `initVMM` uses frame 0 neither as the window's page table, nor as the page directory, nor for a page of the
    kernel heap or the page table that the page is entered in, as far as it comes before a page fault. No block that
    is granted is block 0, so it is put to use only where a request is refused. -/
structure AvoidsFrameZero (s : MemoryManager) : Prop where
  windowTable : pageOf (s.getFreePhysicalPage 1).1 ≠ 0
  directory : ∀ s', (s.getFreePhysicalPage 1).2.memset loaderTranslation (PHYS_2_VIRT (s.getFreePhysicalPage 1).1) 0
    sizeofPageTable = some s' → pageOf (s'.getFreePhysicalPage 1).1 ≠ 0
  heap : ∀ s', s.initTables = some s' → HeapRounds RoundAvoidsZero (s'.getFreePhysicalPage 1).2
    (s'.getFreePhysicalPage 1).1 KERNEL_HEAP_START 257

/-- The rounds on flat memory. -/
def FlatHeapRounds (P : MemoryManager → U32 → U32 → Prop) (s : MemoryManager)
    (physicalAddress virtualAddress : U32) : (fuel : ℕ) → Prop
  | 0 => True
  | fuel + 1 =>
    if virtualAddress < KERNEL_HEAP_START + KERNEL_HEAP_SIZE then
      P s physicalAddress virtualAddress ∧
        let s := s.flatMapPage physicalAddress virtualAddress
        let (physicalAddress, s) := s.getFreePhysicalPage 1
        FlatHeapRounds P s physicalAddress (virtualAddress + PAGE_SIZE) fuel
    else True

/-- The uses of frames on flat memory. -/
structure FlatAvoidsFrameZero (s : MemoryManager) : Prop where
  windowTable : pageOf (s.getFreePhysicalPage 1).1 ≠ 0
  directory : pageOf s.flatInitTables.directory ≠ 0
  heap : FlatHeapRounds RoundAvoidsZero (s.flatInitTables.getFreePhysicalPage 1).2
    (s.flatInitTables.getFreePhysicalPage 1).1 KERNEL_HEAP_START 257

/-- On flat memory, when a request for a frame is refused, `initVMM` keeps off frame 0. -/
def FlatKeepsOffZero (s : MemoryManager) : Prop := nullptr ∈ s.flatInitVMM.granted → FlatAvoidsFrameZero s

/-! ## Blocks -/

/-- The allocator has `n` blocks to give: that many are free where it searches, and it counts that many. -/
structure HasBlocks (s : PMM) (n : ℕ) : Prop where
  counted : n ≤ s.getFreeBlockCount.toNat
  free : n ≤ Nat.count (fun b => s.memoryMap.bit b = false) (PMM.searchBound s)

/-- If the allocator has `n` blocks to give, the first `n` of them are below `bound`. -/
def BlocksBelow (s : PMM) (bound n : ℕ) : Prop :=
  HasBlocks s n → n ≤ Nat.count (fun b => s.memoryMap.bit b = false) bound

/-- The blocks that `initVMM` takes for its tables, the first, the second and the fourth, lie in front of the last
    frame of the window. A table from there on is cleared with a store to a page that is not mapped. -/
def TableBlocksLow (s : PMM) : Prop := BlocksBelow s 0x3FF 1 ∧ BlocksBelow s 0x3FF 2 ∧ BlocksBelow s 0x3FF 4

end Pros
