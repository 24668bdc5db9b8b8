import Pros.MM.PageTables

/-!
# The virtual memory manager

The half of `MemoryManager` that is in `VMM.cpp`. Its loads and stores go through the page tables like all others of
the kernel, and there is no next state after a page fault. What the processor may have cached is not looked at here.

The bitmap is taken to lie apart from the frames that are handed out: it ends below 2 MiB behind this kernel, and no
lower frame is ever free. `memset` also clears the first byte behind what it is given, so that a table in the last
frame of the window, 0x3FF, is cleared with a store to 0xC0400000.
-/

namespace Pros

namespace MemoryManager

/-! ## Loads and stores -/

section Access

variable (τ : Ram → U32 → Option U32)

/-- The word behind an address. -/
protected def load32 (s : MemoryManager) (a : U32) : Option U32 := do
  let b₀ ← Paging.load τ s.ram (a + (0 : ℕ))
  let b₁ ← Paging.load τ s.ram (a + (1 : ℕ))
  let b₂ ← Paging.load τ s.ram (a + (2 : ℕ))
  let b₃ ← Paging.load τ s.ram (a + (3 : ℕ))
  some (b₃ ++ b₂ ++ b₁ ++ b₀)

/-- The bytes of a single access. All their places are looked up before one of them is stored. -/
def access (s : MemoryManager) (bytes : List (U32 × U8)) : Option MemoryManager := do
  let places ← bytes.mapM fun b => τ s.ram b.1
  some { s with
    ram := s.ram.storeAll (places.zip (bytes.map Prod.snd))
    stored := ((bytes.map Prod.fst).zip places).reverse ++ s.stored }

protected def store8 (s : MemoryManager) (a : U32) (v : U8) : Option MemoryManager := s.access τ [(a, v)]

protected def store32 (s : MemoryManager) (a v : U32) : Option MemoryManager :=
  s.access τ [(a + (0 : ℕ), v.extractLsb' 0 8), (a + (1 : ℕ), v.extractLsb' 8 8),
    (a + (2 : ℕ), v.extractLsb' 16 8), (a + (3 : ℕ), v.extractLsb' 24 8)]

protected def memset (s : MemoryManager) (dest : U32) (val : U8) : (count : ℕ) → Option MemoryManager
  | 0 => some s
  | count + 1 => do
    let s ← s.store8 τ (dest + ((count + 1 : ℕ) : U32)) val
    MemoryManager.memset s dest val count

/-- Assign to a bit-field of an entry. -/
def assign (s : MemoryManager) (entry : U32) (set : U32 → U32) : Option MemoryManager := do
  let w ← s.load32 τ entry
  s.store32 τ entry (set w)

/-- The three assignments that make an entry point to a frame. -/
def setEntry (s : MemoryManager) (entry frame : U32) : Option MemoryManager := do
  let s ← s.assign τ entry PageEntry.setPresent
  let s ← s.assign τ entry PageEntry.setWrite
  s.assign τ entry fun w => PageEntry.setFrame w frame

end Access

/-! ## Mapping pages -/

/-- The part of `mapPage` that creates a page table. -/
def newTable (s : MemoryManager) (entry : U32) : Option MemoryManager := do
  let (p, s) := s.getFreePhysicalPage 1
  let table := PHYS_2_VIRT p
  let s ← s.memset s.translation table 0 sizeofPageTable
  s.setEntry s.translation entry (GET_FRAME_ADDRESS (VIRT_2_PHYS table))

/-- `mapPage` up to the point where there is a page table for `virt`. -/
def ensureTable (s : MemoryManager) (virt : U32) : Option MemoryManager := do
  let entry := s.directoryEntry virt
  let w ← s.load32 s.translation entry
  if !PageEntry.present w then s.newTable entry else some s

def mapPage (s : MemoryManager) (phys virt : U32) : Option MemoryManager := do
  let s ← s.ensureTable virt
  let w ← s.load32 s.translation (s.directoryEntry virt)
  let table := PAGE_GET_PHYSICAL_ADDRESS w
  let page := PHYS_2_VIRT (table + 4 * PAGE_TABLE_INDEX virt)
  let s ← s.setEntry s.translation page (GET_FRAME_ADDRESS phys)
  some { s with mapped := (phys, virt) :: s.mapped }

/-! ## Booting -/

/-- Behind the loader's directory, whose one entry is a page of 4 MiB at 3 GiB. It is not among the frames that are
    handed out. -/
def loaderTranslation (_ : Ram) (virt : U32) : Option U32 :=
  if 0xC0000000 ≤ virt ∧ virt < 0xC0400000 then some (VIRT_2_PHYS virt) else none

/-- The first loop of `initVMM`, with `left` rounds to go. -/
def fillWindow (s : MemoryManager) (table physicalAddress virtualAddress : U32) :
    (left : ℕ) → Option MemoryManager
  | 0 => some s
  | left + 1 => do
    let page := PageEntry.setFrame (PageEntry.setWrite (PageEntry.setPresent 0))
      (GET_FRAME_ADDRESS physicalAddress)
    let s ← s.store32 loaderTranslation (table + 4 * PAGE_TABLE_INDEX virtualAddress) page
    fillWindow s table (physicalAddress + PAGE_SIZE) (virtualAddress + PAGE_SIZE) left

/-- `initVMM` up to its second loop. -/
def initTables (s : MemoryManager) : Option MemoryManager := do
  let (p, s) := s.getFreePhysicalPage 1
  let table := PHYS_2_VIRT p
  let s ← s.memset loaderTranslation table 0 sizeofPageTable
  let (p, s) := s.getFreePhysicalPage 1
  let dir := PHYS_2_VIRT p
  let s ← s.memset loaderTranslation dir 0 sizeofPageTable
  let s ← s.fillWindow table 0 0xC0000000 PAGES_PER_TABLE
  let entry := dir + 4 * PAGE_DIRECTORY_INDEX 0xC0000000
  let s ← s.setEntry loaderTranslation entry (GET_FRAME_ADDRESS (VIRT_2_PHYS table))
  some (s.setPageDirectory dir)

/-- The second loop of `initVMM`. The next frame is taken before the address is tested again. -/
def mapHeap (s : MemoryManager) (physicalAddress virtualAddress : U32) : (fuel : ℕ) → Option MemoryManager
  | 0 => some s
  | fuel + 1 =>
    if virtualAddress < KERNEL_HEAP_START + KERNEL_HEAP_SIZE then do
      let s ← s.mapPage physicalAddress virtualAddress
      let (physicalAddress, s) := s.getFreePhysicalPage 1
      mapHeap s physicalAddress (virtualAddress + PAGE_SIZE) fuel
    else some s

def initVMM (s : MemoryManager) : Option MemoryManager := do
  let s ← s.initTables
  let (physicalAddress, s) := s.getFreePhysicalPage 1
  -- One round for each page of the heap, and one in which the test fails.
  s.mapHeap physicalAddress KERNEL_HEAP_START 257

end MemoryManager

end Pros
