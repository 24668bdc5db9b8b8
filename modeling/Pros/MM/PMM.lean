import Pros.Lib.String

/-!
# The physical memory manager

The half of `MemoryManager` that is in `PMM.cpp`: a bitmap with one bit for each 4 KiB block of physical
memory, set when the block is in use. The bitmap begins at the end of the kernel image and is not bounded
by the code, so it is modelled as an unbounded byte array whose word `i` is at `4 * i`.
-/

namespace Pros

def BLOCKS_PER_BYTE : U32 := 8
def BLOCK_SIZE : U32 := 4096

def MULTIBOOT_MEMORY_AVAILABLE : U32 := 1
def MULTIBOOT_MEMORY_RESERVED : U32 := 2
def MULTIBOOT_MEMORY_ACPI_RECLAIMABLE : U32 := 3
def MULTIBOOT_MEMORY_NVS : U32 := 4
def MULTIBOOT_MEMORY_BADRAM : U32 := 5

/-- `multiboot_mmap_entry`, less the field that says how far away the next entry is. -/
structure MmapEntry where
  addr_low : U32
  addr_high : U32
  len_low : U32
  len_high : U32
  type : U32
deriving DecidableEq

/-- The fields of `MemoryManager` that the physical memory manager uses. -/
structure PMM where
  memorySize : U32
  usedBlocks : U32
  maxBlocks : U32
  memoryMap : Memory ℕ

namespace PMM

/-! ## Bits -/

/-- `memoryMap[i]`. -/
def word (map : Memory ℕ) (i : ℕ) : U32 := map.load32 (4 * i)

def setBit (map : Memory ℕ) (bit : ℕ) : Memory ℕ :=
  map.store32 (4 * (bit / 32)) (word map (bit / 32) ||| 1#32 <<< (bit % 32))

def unsetBit (map : Memory ℕ) (bit : ℕ) : Memory ℕ :=
  map.store32 (4 * (bit / 32)) (word map (bit / 32) &&& ~~~(1#32 <<< (bit % 32)))

def testBit (map : Memory ℕ) (bit : ℕ) : Bool :=
  word map (bit / 32) &&& 1#32 <<< (bit % 32) ≠ 0

/-! ## Regions -/

/-- The loop of `setRegionUsed`. -/
def useBlocks (s : PMM) (base : ℕ) : (blocks : ℕ) → PMM
  | 0 => s
  | blocks + 1 =>
    useBlocks { s with memoryMap := setBit s.memoryMap base, usedBlocks := s.usedBlocks - 1 }
      (base + 1) blocks

def setRegionUsed (s : PMM) (start size : U32) : PMM :=
  let base := start / BLOCK_SIZE
  let blocks := size / BLOCK_SIZE
  let s := useBlocks s base.toNat blocks.toNat
  { s with memoryMap := setBit s.memoryMap 0 }

/-- The loop of `setRegionFree`. -/
def freeBlocks (s : PMM) (base : ℕ) : (blocks : ℕ) → PMM
  | 0 => s
  | blocks + 1 =>
    freeBlocks { s with memoryMap := unsetBit s.memoryMap base, usedBlocks := s.usedBlocks + 1 }
      (base + 1) blocks

def setRegionFree (s : PMM) (start size : U32) : PMM :=
  let base := start / BLOCK_SIZE
  let blocks := size / BLOCK_SIZE
  freeBlocks s base.toNat blocks.toNat

/-- One round of the loop of `initPMM`. The high halves of address and length are not looked at. -/
def setRegion (s : PMM) (entry : MmapEntry) : PMM :=
  let address := entry.addr_low
  let length := entry.len_low
  if entry.type = MULTIBOOT_MEMORY_AVAILABLE then setRegionFree s address length
  else if entry.type = MULTIBOOT_MEMORY_RESERVED then setRegionUsed s address length
  else if entry.type = MULTIBOOT_MEMORY_ACPI_RECLAIMABLE then setRegionUsed s address length
  else if entry.type = MULTIBOOT_MEMORY_NVS then setRegionUsed s address length
  else if entry.type = MULTIBOOT_MEMORY_BADRAM then setRegionUsed s address length
  else setRegionUsed s address length

/-- `initPMM` up to its loop: the block counts, and the bitmap filled with `0xF`. -/
def fill (s : PMM) : PMM :=
  let maxBlocks := s.memorySize / BLOCK_SIZE
  { s with
    maxBlocks := maxBlocks
    usedBlocks := maxBlocks
    memoryMap := memset s.memoryMap 0 0xF (maxBlocks / BLOCKS_PER_BYTE).toNat }

def initPMM (s : PMM) (grubMemoryMap : List MmapEntry) : PMM :=
  setRegionUsed (grubMemoryMap.foldl setRegion (fill s)) 0x00000000 (MB 2)

/-- The static object before `init`, with whatever the memory behind the kernel holds. -/
def zero (memoryMap : Memory ℕ) : PMM := ⟨0, 0, 0, memoryMap⟩

/-- `MemoryManager::init` up to the call of `initVMM`. -/
def init (s : PMM) (grubMemoryMap : List MmapEntry) : PMM :=
  initPMM
    { s with memorySize := grubMemoryMap.foldl (fun size entry => size + entry.len_low) s.memorySize }
    grubMemoryMap

/-! ## Allocation -/

def getFreeBlockCount (s : PMM) : U32 := s.maxBlocks - s.usedBlocks

/-- The inner loop of `firstFreePhysicalPagesBits`, with `left` rounds to go and `free` clear bits
    counted: are there `size` of them? -/
def countFree (map : Memory ℕ) (currentBit size : ℕ) : (left free : ℕ) → Bool
  | 0, _ => false
  | left + 1, free =>
    let k := size - (left + 1)
    let free := if !testBit map (currentBit + k) then free + 1 else free
    free = size || countFree map currentBit size left free

/-- The loop over the bits of word `i`. -/
def searchWord (map : Memory ℕ) (size i : ℕ) : Option ℕ :=
  (List.range 32).findSome? fun j =>
    if word map i &&& 1#32 <<< j = 0 then
      let currentBit := i * 32 + j
      if countFree map currentBit size size 0 then some currentBit else none
    else none

/-- The first block of a free run, `none` for the source's `-1`. -/
def firstFreePhysicalPagesBits (s : PMM) (size : U32) : Option ℕ :=
  if size = 0 then none
  else
    (List.range (s.memorySize / 32 / 4096).toNat).findSome? fun i =>
      if word s.memoryMap i ≠ 0xFFFFFFFF then searchWord s.memoryMap size.toNat i else none

/-- The loop of `getFreePhysicalPage`. -/
def setBits (map : Memory ℕ) (frame size : ℕ) : Memory ℕ :=
  (List.range size).foldl (fun map i => setBit map (frame + i)) map

/-- The loop of `freePage`. -/
def unsetBits (map : Memory ℕ) (frame size : ℕ) : Memory ℕ :=
  (List.range size).foldl (fun map i => unsetBit map (frame + i)) map

/-- A run of `size` blocks: its address, or null. -/
def getFreePhysicalPage (s : PMM) (size : U32) : U32 × PMM :=
  if s.getFreeBlockCount ≤ 0 then (nullptr, s)
  else
    match s.firstFreePhysicalPagesBits size with
    | none => (nullptr, s)
    | some frame =>
      (BitVec.ofNat 32 frame * BLOCK_SIZE,
        { s with
          memoryMap := setBits s.memoryMap frame size.toNat
          usedBlocks := s.usedBlocks + size })

def freePage (s : PMM) (ptr size : U32) : PMM :=
  let frame := ptr / BLOCK_SIZE
  { s with
    memoryMap := unsetBits s.memoryMap frame.toNat size.toNat
    usedBlocks := s.usedBlocks - size }

end PMM

end Pros
