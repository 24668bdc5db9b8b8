import Pros.MM.VMM
import Pros.MM.FlatMapping
import Pros.MM.PMMClient

/-!
# Address spaces

What the page tables in memory mean: `walk` is the translation that the processor finds by its two-level
walk. Against it stands the flat map of pages to frames that a client of `mapPage` has in mind, which is
read off the calls made so far (`lastMapping`).
-/

namespace Pros

open MemoryManager PageEntry

/-! ## The map of pages -/

/-- The number of a page, or of a frame. -/
def pageOf (x : U32) : U32 := x >>> 12

/-- The first 4 MiB of physical memory are mapped at 3 GiB. -/
def windowFrame (virt : U32) : Option U32 :=
  if 0xC0000000 ≤ virt ∧ virt < 0xC0400000 then some (pageOf (virt - 0xC0000000)) else none

/-- The frame that the latest of the calls has mapped a page to; without a call, the window's. -/
def lastMapped : List (U32 × U32) → U32 → Option U32
  | [], virt => windowFrame virt
  | (phys, v) :: calls, virt => if pageOf v = pageOf virt then some (pageOf phys) else lastMapped calls virt

/-- The frame that a page was last mapped to. -/
def lastMapping (s : MemoryManager) (virt : U32) : Option U32 := lastMapped s.mapped virt

/-! ## Runs -/

/-- The calls that a run consists of. Frames are never given back. -/
inductive VmmOp where
  | mapPage (phys virt : U32)
  | getFreePhysicalPage (size : U32)

/-- One call. -/
def MemoryManager.exec (s : MemoryManager) : VmmOp → Option MemoryManager
  | .mapPage phys virt => s.mapPage phys virt
  | .getFreePhysicalPage size => some (s.getFreePhysicalPage size).2

/-- One call, on flat memory. -/
def MemoryManager.flatExec (s : MemoryManager) : VmmOp → MemoryManager
  | .mapPage phys virt => s.flatMapPage phys virt
  | .getFreePhysicalPage size => (s.getFreePhysicalPage size).2

/-- The state before `initVMM`. -/
def bootState (s : PMM) (grubMemoryMap : List MmapEntry) (ram : Ram) (dir : U32) : MemoryManager where
  pmm := s.initPMM grubMemoryMap
  ram := ram
  currentPageDirectory := dir

/-- Every request for a frame that was made so far has succeeded. -/
def AllGranted (s : MemoryManager) : Prop := nullptr ∉ s.granted

/-- A call that needs a new page table gets a frame for it. -/
def TableGranted (s : MemoryManager) : VmmOp → Prop
  | .mapPage _ virt => present (s.walkDirectory virt) = false → (s.getFreePhysicalPage 1).1 ≠ nullptr
  | .getFreePhysicalPage _ => True

/-- What the requests for a frame will return, one after the other. -/
def MemoryManager.request (s : MemoryManager) : ℕ → U32
  | 0 => (s.getFreePhysicalPage 1).1
  | n + 1 => MemoryManager.request (s.getFreePhysicalPage 1).2 n

/-- The window's page table, the page directory and the page table of the heap, in the first, the second and the
    fourth frame that `initVMM` takes, lie in the first 4 MiB, and not in the last frame there: nothing is mapped
    behind the window when they are cleared. -/
def TablesLow (s : MemoryManager) : Prop :=
  s.request 0 < 0x3FF000 ∧ s.request 1 < 0x3FF000 ∧ s.request 3 < 0x3FF000

/-- `initVMM` has come back, its requests for frames have been granted, and the heap's page table, in the fourth of
    these frames, lies below 1 GiB: from there on, its place in the window is behind the directory's first entry, of
    which `memset` leaves a byte. -/
structure Booted (s : PMM) (grubMemoryMap : List MmapEntry) (ram : Ram) (dir : U32) (m : MemoryManager) : Prop where
  init : (bootState s grubMemoryMap ram dir).initVMM = some m
  granted : AllGranted m
  heapTable : (bootState s grubMemoryMap ram dir).request 3 < 0x3FFFF000

/-! ## The address space after booting -/

/-- The address of a page of the kernel heap. -/
def heapPage (k : ℕ) : U32 := KERNEL_HEAP_START + BitVec.ofNat 32 (4096 * k)

/-- The number of pages of the kernel heap. -/
def heapPages : ℕ := KERNEL_HEAP_SIZE.toNat / 4096

/-- A frame in use, above the first 2 MiB, and neither the page directory nor a page table. -/
structure PrivateFrame (s : MemoryManager) (f : U32) : Prop where
  used : PMM.testBit s.pmm.memoryMap f.toNat = true
  reserved : 512 ≤ f.toNat
  ne_directory : f ≠ pageOf s.directory
  ne_table : ∀ virt, present (s.walkDirectory virt) = true → f ≠ frame (s.walkDirectory virt)

/-- The address space that `initVMM` sets up: the window, and a heap of distinct private frames. -/
structure InitialSpace (s : MemoryManager) : Prop where
  window : ∀ k < 1024, s.walk (0xC0000000 + BitVec.ofNat 32 (4096 * k)) = some (BitVec.ofNat 32 k)
  heap : ∀ k < heapPages, ∃ f, s.walk (heapPage k) = some f ∧ PrivateFrame s f ∧ Writable s (heapPage k)
  distinct : ∀ k < heapPages, ∀ l < heapPages, s.walk (heapPage k) = s.walk (heapPage l) → k = l

/-! ## Editing page tables in place -/

/-- The page table that `mapPage` edits, or the frame that it creates one in. -/
def editedTable (s : MemoryManager) (virt : U32) : U32 :=
  if present (s.walkDirectory virt) then PAGE_GET_PHYSICAL_ADDRESS (s.walkDirectory virt)
  else (s.getFreePhysicalPage 1).1

/-- The page of a kernel pointer leads to the frame that the pointer stands for. -/
def PageInPlace (s : MemoryManager) (pointer : U32) : Prop := s.walk pointer = some (pageOf (VIRT_2_PHYS pointer))

/-- The pages that `mapPage` stores to are in place: the directory's, the page table's, and the one behind a new page
    table, whose first byte `memset` clears. -/
structure TablesInPlace (s : MemoryManager) (virt : U32) : Prop where
  directory : PageInPlace s s.currentPageDirectory
  table : PageInPlace s (PHYS_2_VIRT (editedTable s virt))
  behind : present (s.walkDirectory virt) = false → PageInPlace s (PHYS_2_VIRT (editedTable s virt) + PAGE_SIZE)

/-- The call finds its tables in place. -/
def EditsInPlace (s : MemoryManager) : VmmOp → Prop
  | .mapPage _ virt => TablesInPlace s virt
  | .getFreePhysicalPage _ => True

/-- A call that gets a frame for a page table if it needs one, and finds its tables in place. -/
def MappingStep (s : MemoryManager) (op : VmmOp) (s' : MemoryManager) : Prop :=
  s.exec op = some s' ∧ TableGranted s op ∧ EditsInPlace s op

/-! ## Editing page tables through the window -/

/-- The call does not touch the window and the kernel heap. -/
def OutsideKernel : VmmOp → Prop
  | .mapPage _ virt => virt < 0xC0000000 ∨ 0xC0500000 ≤ virt
  | .getFreePhysicalPage _ => True

/-- The byte was stored to the place that its address stands for, and not to the kernel heap. -/
def StoredThroughWindow (store : U32 × U32) : Prop :=
  store.2 = VIRT_2_PHYS store.1 ∧
    ¬ (KERNEL_HEAP_START ≤ store.1 ∧ store.1 < KERNEL_HEAP_START + KERNEL_HEAP_SIZE)

/-- When `mapPage` creates a page table and when it stores the page's entry, the kernel's pointer to the table leads
    to the table. The call comes back, so that none of its stores was to an unmapped page, and each of the bytes it
    stored went where its address says. -/
def EditsThroughWindow (s : MemoryManager) : VmmOp → Prop
  | .mapPage phys virt =>
    let pointer := PHYS_2_VIRT (editedTable s virt)
    PageInPlace s pointer ∧ (∃ s', s.ensureTable virt = some s' ∧ PageInPlace s' pointer) ∧
      ∃ s' stores, s.mapPage phys virt = some s' ∧ s'.stored = stores ++ s.stored ∧
        ∀ x ∈ stores, StoredThroughWindow x
  | .getFreePhysicalPage _ => True

/-- A frame lies in the first 4 MiB. Or it lies above the frames that have the kernel heap at their place in the
    window, the page at its place in the window was last mapped to it, and that mapping is in a page table of its
    own, not in frame 0. -/
def FrameInWindow (s : MemoryManager) (t : U32) : Prop :=
  t < 0x400000 ∨
    0x500000 ≤ t ∧ lastMapping s (PHYS_2_VIRT t) = some (pageOf t) ∧ frame (s.walkDirectory (PHYS_2_VIRT t)) ≠ 0

/-- The page table that a call edits is in the window, and so is the frame behind a new one. -/
def TableInWindow (s : MemoryManager) : VmmOp → Prop
  | .mapPage _ virt =>
    let t := editedTable s virt
    FrameInWindow s t ∧ (present (s.walkDirectory virt) = false → FrameInWindow s (t + PAGE_SIZE))
  | .getFreePhysicalPage _ => True

end Pros
