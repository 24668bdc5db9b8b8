import Pros.Foundations.Paging
import Pros.MM.AddressSpace
import Pros.MM.HeapClient

/-!
# The kernel heap behind the page tables

The heap's loads and stores go through the page tables that `initVMM` has set up, and so do those of the users of
its blocks. `PagedHeap` is the heap with nothing but physical memory under it. The processor may find a translation
in its cache, which no function of the kernel clears after `setPageDirectory`.
-/

namespace Pros

namespace MemoryManager

/-- Memory as the kernel sees it. -/
def seen (s : MemoryManager) : Ram where
  byte virt := (Paging.load s.translation s.ram virt).getD 0

/-- Stores at virtual addresses. There is no next state after a page fault. -/
def storeAll (s : MemoryManager) (stores : List (U32 × U8)) : Option MemoryManager :=
  (Paging.storeAll s.translation s.ram stores).map fun ram => { s with ram := ram }

/-- The state after a call that comes back. -/
def after (s : MemoryManager) (op : VmmOp) : MemoryManager := (s.exec op).getD s

/-- The frame behind a page, by its number. -/
def walkPage (s : MemoryManager) (page : U32) : Option U32 := s.walk (page <<< 12)

end MemoryManager

/-- A `Heap` object whose memory is behind the page tables, and what is handed out of it. -/
structure PagedHeap where
  memorySize : U32
  usedMemory : U32
  first : U32
  live : List (U32 × U32)
  mm : MemoryManager

namespace PagedHeap

def of (c : HeapClient) (mm : MemoryManager) : PagedHeap where
  memorySize := c.heap.memorySize
  usedMemory := c.heap.usedMemory
  first := c.heap.first
  live := c.live
  mm := mm

/-- The heap as the kernel sees it. -/
def seen (s : PagedHeap) : HeapClient where
  heap := { memorySize := s.memorySize, usedMemory := s.usedMemory, first := s.first, mem := s.mm.seen }
  live := s.live

/-- The stores that made `c` of what `mm` shows go through the page tables. -/
def Stored (mm : MemoryManager) (c : HeapClient) (s : PagedHeap) : Prop :=
  ∃ stores, c.heap.mem = mm.seen.storeAll stores ∧ (mm.storeAll stores).map (of c) = some s

/-- `KernelHeap::KernelHeap`. -/
def New (mm : MemoryManager) : PagedHeap → Prop :=
  Stored mm (HeapClient.new mm.seen KERNEL_HEAP_START KERNEL_HEAP_SIZE)

/-- A call loads what the page tables show, apart from what it has stored itself. -/
def Step (s : PagedHeap) : HeapAction → PagedHeap → Prop
  | .call op, s' => ∃ c, s.seen.Step op c ∧ Stored s.mm c s'
  | .put a v, s' => (s.mm.storeAll [(a, v)]).map (fun mm => { s with mm := mm }) = some s'

/-- The calls that keep the heap's clients safe, with pointers to live blocks, and stores to such blocks. -/
def Allowed (s : PagedHeap) : HeapAction → Prop
  | .call op => OpSafe s.seen op ∧ ∀ p, op = .free p → ∃ x ∈ s.live, x.1 = p
  | .put a _ => ∃ x ∈ s.live, a ∈ payload x

end PagedHeap

/-- The heap is safe and its list well formed, and nothing but the bytes behind its pages has changed since `mm`. -/
structure HeapIsolated (mm : MemoryManager) (s : PagedHeap) : Prop where
  safe : Safe KERNEL_HEAP_START.toNat (KERNEL_HEAP_START.toNat + KERNEL_HEAP_SIZE.toNat) s.seen
  wellFormed : WellFormed KERNEL_HEAP_START.toNat (KERNEL_HEAP_START.toNat + KERNEL_HEAP_SIZE.toNat) s.seen.heap
  walk : ∀ virt, s.mm.walk virt = mm.walk virt
  outside : ∀ x, (∀ k < heapPages, mm.walk (heapPage k) ≠ some (pageOf x)) → s.mm.ram.byte x = mm.ram.byte x

/-- The bytes of blocks that stay handed out are as they were, but for those put there. -/
def DataKept (s : PagedHeap) (a : HeapAction) (s' : PagedHeap) : Prop :=
  ∀ x ∈ s.live, x ∈ s'.live → ∀ w ∈ payload x, s'.mm.seen.byte w =
    match a with
    | .put b v => if w = b then v else s.mm.seen.byte w
    | .call _ => s.mm.seen.byte w

/-- An operation does not map a page that is mapped to another frame. -/
def MapsNew (s : MemoryManager) : VmmOp → Prop
  | .mapPage phys virt => s.walk virt = none ∨ s.walk virt = some (pageOf phys)
  | .getFreePhysicalPage _ => True

end Pros
