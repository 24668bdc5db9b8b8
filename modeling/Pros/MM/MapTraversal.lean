import Pros.Foundations.Loop
import Pros.MM.PMM
import Pros.MM.PageTables
import Mathlib.Logic.Relation

/-!
# The memory map in memory

GRUB leaves the memory map as a buffer of entries, each of which begins with a size field that says where
the next one is. `init` and `initPMM` go through it with the same loop, up to the first entry that does not
begin below the end of the buffer. The bitmap, to which `initPMM` stores on the way, lies in the same memory
as the buffer.
-/

namespace Pros

/-- The fields of `multiboot_info` that say where the memory map is. -/
structure MultibootInfo where
  mmap_length : U32
  mmap_addr : U32

/-- `sizeof(multiboot_mmap_entry)`, which is packed. -/
def sizeofMmapEntry : ℕ := 24

namespace MmapEntry

/-- `entry->size`. -/
def size (memory : Ram) (entry : U32) : U32 := memory.load32 entry

/-- The other fields of `*entry`. -/
def load (memory : Ram) (entry : U32) : MmapEntry where
  addr_low := memory.load32 (entry + 4)
  addr_high := memory.load32 (entry + 8)
  len_low := memory.load32 (entry + 12)
  len_high := memory.load32 (entry + 16)
  type := memory.load32 (entry + 20)

end MmapEntry

/-- Memory behind the kernel's pointers. The array that begins at the end of the kernel goes on through all
    of it. -/
def PMM.memory (kernelEnd : U32) (s : PMM) : Ram where
  byte p := s.memoryMap.byte (p - kernelEnd).toNat

/-! ## The loops -/

/-- The current entry of a loop over the map, and the memory manager. -/
structure MapCursor where
  entry : U32
  pmm : PMM

namespace MapTraversal

/-- The step of the loops, over the size field and as many bytes as it says. -/
def next (kernelEnd : U32) (c : MapCursor) : MapCursor :=
  let sizeofSize := 4
  { c with entry := c.entry + MmapEntry.size (c.pmm.memory kernelEnd) c.entry + sizeofSize }

/-- The loop over the map, with the body `visit`. -/
def loop (kernelEnd grubMemoryMap grubMemoryMapSize : U32) (visit : PMM → MmapEntry → PMM) :
    Loop MapCursor where
  guard c := c.entry < grubMemoryMap + grubMemoryMapSize
  round c := next kernelEnd { c with pmm := visit c.pmm (MmapEntry.load (c.pmm.memory kernelEnd) c.entry) }

/-- The body of the loop of `init`. -/
def addLength (s : PMM) (entry : MmapEntry) : PMM :=
  let length := entry.len_low
  { s with memorySize := s.memorySize + length }

/-- `initPMM`, with the entries that its loop goes through. -/
def initPMM (kernelEnd grubMemoryMap grubMemoryMapSize : U32) (s : PMM) (fuel : ℕ) :
    Option (PMM × List U32) := do
  let (c, cs) ← (loop kernelEnd grubMemoryMap grubMemoryMapSize PMM.setRegion).run fuel
    ⟨grubMemoryMap, s.fill⟩
  pure (c.pmm.setRegionUsed 0x00000000 (MB 2), cs.map MapCursor.entry)

/-- `init` up to the call of `initVMM`, with the entries that the two loops go through. -/
def init (kernelEnd : U32) (mbi : MultibootInfo) (s : PMM) (fuel : ℕ) : Option (PMM × List U32) := do
  let grubMemoryMap := PHYS_2_VIRT mbi.mmap_addr
  let grubMemoryMapSize := mbi.mmap_length
  let (c, cs) ← (loop kernelEnd grubMemoryMap grubMemoryMapSize addLength).run fuel ⟨grubMemoryMap, s⟩
  let (s, entries) ← initPMM kernelEnd grubMemoryMap grubMemoryMapSize c.pmm fuel
  pure (s, cs.map MapCursor.entry ++ entries)

/-- A loop over the buffer that `mbi` describes. -/
abbrev loopOver (kernelEnd : U32) (mbi : MultibootInfo) (visit : PMM → MmapEntry → PMM) :
    Loop MapCursor :=
  loop kernelEnd (PHYS_2_VIRT mbi.mmap_addr) mbi.mmap_length visit

/-- Where it starts. -/
abbrev start (mbi : MultibootInfo) (s : PMM) : MapCursor := ⟨PHYS_2_VIRT mbi.mmap_addr, s⟩

end MapTraversal

/-! ## Traversals that stay in the buffer -/

namespace MultibootInfo

/-- Every byte of the entry is one of the buffer. -/
def Contains (mbi : MultibootInfo) (entry : U32) : Prop :=
  ∀ i < sizeofMmapEntry, ∃ k < mbi.mmap_length.toNat,
    VIRT_2_PHYS (entry + (i : U32)) = mbi.mmap_addr + (k : U32)

/-- How far the entry is from the start of the buffer. -/
def offset (mbi : MultibootInfo) (entry : U32) : ℕ := (entry - PHYS_2_VIRT mbi.mmap_addr).toNat

/-- There is room for an entry. -/
def HasRoom (mbi : MultibootInfo) (offset : ℕ) : Prop := offset + sizeofMmapEntry ≤ mbi.mmap_length.toNat

/-- The place lies behind the buffer, below the end of the address space. -/
def Behind (mbi : MultibootInfo) (offset : ℕ) : Prop :=
  mbi.mmap_length.toNat ≤ offset ∧ (PHYS_2_VIRT mbi.mmap_addr).toNat + offset < 2 ^ 32

/-- The bytes behind the kernel that the bitmap of 4 GiB takes are none of the buffer. -/
def BitmapApart (mbi : MultibootInfo) (kernelEnd : U32) : Prop :=
  ∀ k < mbi.mmap_length.toNat, 2 ^ 18 ≤ (PHYS_2_VIRT mbi.mmap_addr + (k : U32) - kernelEnd).toNat

/-! ## The size fields of a buffer -/

/-- Where the size field of an entry leads. -/
def next (mbi : MultibootInfo) (memory : Ram) (offset : ℕ) : ℕ :=
  (offset + (MmapEntry.size memory (PHYS_2_VIRT mbi.mmap_addr + (offset : U32))).toNat + 4) % 2 ^ 32

/-- There is room for an entry, whose size field leads to the other place. -/
def Leads (mbi : MultibootInfo) (memory : Ram) (offset offset' : ℕ) : Prop :=
  mbi.HasRoom offset ∧ offset' = mbi.next memory offset

/-- The size fields lead from the start of the buffer to the place. -/
def Reaches (mbi : MultibootInfo) (memory : Ram) (offset : ℕ) : Prop :=
  Relation.ReflTransGen (mbi.Leads memory) 0 offset

/-- The size fields lead only to places with room for an entry or behind the buffer, and from none back to it. -/
structure Linked (mbi : MultibootInfo) (memory : Ram) : Prop where
  leads : ∀ offset, mbi.Reaches memory offset → mbi.HasRoom offset ∨ mbi.Behind offset
  acyclic : ∀ offset, mbi.Reaches memory offset → ¬ Relation.TransGen (mbi.Leads memory) offset offset

end MultibootInfo

/-- The buffer consists of `n` entries next to each other, as boot loaders write them. -/
structure EntriesAdjoin (kernelEnd : U32) (mbi : MultibootInfo) (s : PMM) (n : ℕ) : Prop where
  length_eq : mbi.mmap_length.toNat = 24 * n
  end_lt : (PHYS_2_VIRT mbi.mmap_addr).toNat + 24 * n < 2 ^ 32
  size_eq : ∀ k < n, MmapEntry.size (s.memory kernelEnd)
    (PHYS_2_VIRT mbi.mmap_addr + ((24 * k : ℕ) : U32)) = 20

/-- A cursor of `initPMM` behind one of `init`: the same entry, and the same memory behind the bitmap. -/
structure Follows (s : PMM) (t t' : MapCursor) : Prop where
  entry : t'.entry = t.entry
  init : t.pmm.memoryMap = s.memoryMap
  initPMM : ∀ i, 2 ^ 18 ≤ i → t'.pmm.memoryMap.byte i = s.memoryMap.byte i

end Pros
