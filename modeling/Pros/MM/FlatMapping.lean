import Pros.MM.PageTables

/-!
# The virtual memory manager on flat memory

`VMM.cpp` once more, with every pointer of the kernel taken to lead to the byte it stands for, at `VIRT_2_PHYS` of
the pointer. So it does while the page tables are edited through the window.
-/

namespace Pros

/-! ## Addresses that are stored to -/

/-- The bytes that `memset` stores, latest first. -/
def memsetAddresses (dest : U32) : (count : ℕ) → List U32
  | 0 => []
  | count + 1 => memsetAddresses dest count ++ [dest + ((count + 1 : ℕ) : U32)]

/-- The bytes of a word, latest first. -/
def wordAddresses (a : U32) : List U32 := [a + (3 : ℕ), a + (2 : ℕ), a + (1 : ℕ), a + (0 : ℕ)]

/-- The bytes that the three assignments to an entry store, latest first. -/
def entryAddresses (entry : U32) : List U32 := wordAddresses entry ++ wordAddresses entry ++ wordAddresses entry

/-- The entries that the first loop of `initVMM` stores, latest first. -/
def windowAddresses (table virtualAddress : U32) : (left : ℕ) → List U32
  | 0 => []
  | left + 1 => windowAddresses table (virtualAddress + PAGE_SIZE) left ++
      wordAddresses (table + 4 * PAGE_TABLE_INDEX virtualAddress)

/-- Each of the addresses leads to the byte it stands for. -/
def inPlace (addresses : List U32) : List (U32 × U32) := addresses.map fun a => (a, VIRT_2_PHYS a)

/-! ## Entries -/

/-- Assign to a bit-field of the entry behind a kernel pointer. -/
def flatAssign (ram : Ram) (entry : U32) (set : U32 → U32) : Ram :=
  ram.store32 (VIRT_2_PHYS entry) (set (ram.load32 (VIRT_2_PHYS entry)))

/-- The three assignments that make an entry point to a frame. -/
def flatSetEntry (ram : Ram) (entry frame : U32) : Ram :=
  let ram := flatAssign ram entry PageEntry.setPresent
  let ram := flatAssign ram entry PageEntry.setWrite
  flatAssign ram entry fun w => PageEntry.setFrame w frame

namespace MemoryManager

/-! ## Mapping pages -/

/-- The part of `mapPage` that creates a page table. -/
def flatNewTable (s : MemoryManager) (entry : U32) : MemoryManager :=
  let (p, s) := s.getFreePhysicalPage 1
  let table := PHYS_2_VIRT p
  let ram := memset s.ram (VIRT_2_PHYS table) 0 sizeofPageTable
  { s with
    ram := flatSetEntry ram entry (GET_FRAME_ADDRESS (VIRT_2_PHYS table))
    stored := inPlace (entryAddresses entry ++ memsetAddresses table sizeofPageTable) ++ s.stored }

/-- `mapPage` up to the point where there is a page table for `virt`. -/
def flatEnsureTable (s : MemoryManager) (virt : U32) : MemoryManager :=
  let entry := s.directoryEntry virt
  if !PageEntry.present (s.ram.load32 (VIRT_2_PHYS entry)) then s.flatNewTable entry else s

def flatMapPage (s : MemoryManager) (phys virt : U32) : MemoryManager :=
  let s := s.flatEnsureTable virt
  let entry := s.directoryEntry virt
  let table := PAGE_GET_PHYSICAL_ADDRESS (s.ram.load32 (VIRT_2_PHYS entry))
  let page := PHYS_2_VIRT (table + 4 * PAGE_TABLE_INDEX virt)
  { s with
    ram := flatSetEntry s.ram page (GET_FRAME_ADDRESS phys)
    mapped := (phys, virt) :: s.mapped
    stored := inPlace (entryAddresses page) ++ s.stored }

/-! ## Booting -/

/-- The first loop of `initVMM`, with `left` rounds to go. -/
def flatFillWindow (ram : Ram) (table physicalAddress virtualAddress : U32) : (left : ℕ) → Ram
  | 0 => ram
  | left + 1 =>
    let page := PageEntry.setFrame (PageEntry.setWrite (PageEntry.setPresent 0))
      (GET_FRAME_ADDRESS physicalAddress)
    flatFillWindow (ram.store32 (VIRT_2_PHYS (table + 4 * PAGE_TABLE_INDEX virtualAddress)) page) table
      (physicalAddress + PAGE_SIZE) (virtualAddress + PAGE_SIZE) left

/-- The second loop of `initVMM`. -/
def flatMapHeap (s : MemoryManager) (physicalAddress virtualAddress : U32) : (fuel : ℕ) → MemoryManager
  | 0 => s
  | fuel + 1 =>
    if virtualAddress < KERNEL_HEAP_START + KERNEL_HEAP_SIZE then
      let s := s.flatMapPage physicalAddress virtualAddress
      let (physicalAddress, s) := s.getFreePhysicalPage 1
      flatMapHeap s physicalAddress (virtualAddress + PAGE_SIZE) fuel
    else s

/-- `initVMM` up to its second loop. -/
def flatInitTables (s : MemoryManager) : MemoryManager :=
  let (p, s) := s.getFreePhysicalPage 1
  let table := PHYS_2_VIRT p
  let ram := memset s.ram (VIRT_2_PHYS table) 0 sizeofPageTable
  let (p, s) := s.getFreePhysicalPage 1
  let dir := PHYS_2_VIRT p
  let ram := memset ram (VIRT_2_PHYS dir) 0 sizeofPageTable
  let ram := flatFillWindow ram table 0 0xC0000000 PAGES_PER_TABLE
  let entry := dir + 4 * PAGE_DIRECTORY_INDEX 0xC0000000
  let ram := flatSetEntry ram entry (GET_FRAME_ADDRESS (VIRT_2_PHYS table))
  let stored := inPlace (entryAddresses entry ++ windowAddresses table 0xC0000000 PAGES_PER_TABLE ++
    memsetAddresses dir sizeofPageTable ++ memsetAddresses table sizeofPageTable)
  setPageDirectory { s with ram := ram, stored := stored ++ s.stored } dir

def flatInitVMM (s : MemoryManager) : MemoryManager :=
  let s := s.flatInitTables
  let (physicalAddress, s) := s.getFreePhysicalPage 1
  flatMapHeap s physicalAddress KERNEL_HEAP_START 257

end MemoryManager

end Pros
