import Pros.MM.BootMap

/-!
# Where booting writes, and what it reserves

The bitmap is sized by the sum of the lengths of all entries and indexed by their addresses. This file says
which memory maps keep the writes inside it, when two maps boot to the same state, and which blocks hold
the kernel and the bitmap behind it.
-/

namespace Pros

/-- The region lies below 4 GiB. -/
structure MmapEntry.Below4G (e : MmapEntry) : Prop where
  addr_high : e.addr_high = 0
  len_high : e.len_high = 0
  le : e.addr_low.toNat + e.len_low.toNat ≤ 2 ^ 32

/-- The same sizes, the same count of used blocks and the same bitmap. -/
structure SameBoot (s s' : PMM) : Prop where
  memorySize : s'.memorySize = s.memorySize
  maxBlocks : s'.maxBlocks = s.maxBlocks
  usedBlocks : s'.usedBlocks = s.usedBlocks
  byte : s'.memoryMap.byte = s.memoryMap.byte

/-- Memory with a hole between 4 MiB and 16 MiB. -/
def memoryHole : List MmapEntry :=
  [⟨0, 0, 0x400000, 0, MULTIBOOT_MEMORY_AVAILABLE⟩, ⟨0x1000000, 0, 0xC00000, 0, MULTIBOOT_MEMORY_AVAILABLE⟩]

/-! ## Bounds -/

/-- A call of `setBit` or `unsetBit`. -/
inductive BitCall where
  | setBit (bit : ℕ)
  | unsetBit (bit : ℕ)

namespace BitCall

def bit : BitCall → ℕ
  | setBit bit => bit
  | unsetBit bit => bit

def apply (map : Memory ℕ) : BitCall → Memory ℕ
  | setBit bit => PMM.setBit map bit
  | unsetBit bit => PMM.unsetBit map bit

/-- The calls that `setRegionUsed` makes. -/
def setRegionUsed (start size : U32) : List BitCall :=
  (List.range' (start / BLOCK_SIZE).toNat (size / BLOCK_SIZE).toNat).map setBit ++ [setBit 0]

/-- The calls that `setRegionFree` makes. -/
def setRegionFree (start size : U32) : List BitCall :=
  (List.range' (start / BLOCK_SIZE).toNat (size / BLOCK_SIZE).toNat).map unsetBit

/-- The calls that an entry makes `initPMM` do. -/
def setRegion (e : MmapEntry) : List BitCall :=
  if e.Available then setRegionFree e.addr_low e.len_low else setRegionUsed e.addr_low e.len_low

/-- The calls that `initPMM` makes. -/
def initPMM (entries : List MmapEntry) : List BitCall :=
  entries.flatMap setRegion ++ setRegionUsed 0x00000000 (MB 2)

end BitCall

/-- The sum of the lengths that `init` adds up. -/
def totalLength (entries : List MmapEntry) : ℕ := (entries.map fun e => e.len_low.toNat).sum

/-- Booting stays inside the bitmap: the sum does not wrap, the bits set and cleared are those of blocks,
    all writes go to words of blocks, and every block in an available region has a bit. A block is available
    when one entry holds all of it, as each entry is marked by itself. -/
structure BitmapBounds (s : PMM) (entries : List MmapEntry) : Prop where
  no_wrap : (s.init entries).memorySize.toNat = totalLength entries
  bits : ∀ x ∈ BitCall.initPMM entries, x.bit < (s.init entries).maxBlocks.toNat
  writes : ∀ a ∈ (s.init entries).memoryMap.written, a < 4 * (((s.init entries).maxBlocks.toNat + 31) / 32)
  available : ∀ e ∈ entries, e.Available → ∀ b, blockBytes b ⊆ e.bytes →
    b < (s.init entries).maxBlocks.toNat

/-- The memory maps that fit the bitmap. The fill goes one byte too far, which leaves the last word if the
    blocks fill it. -/
structure MapFits (entries : List MmapEntry) : Prop where
  sum_lt : totalLength entries < 2 ^ 32
  reserve : 2 * 2 ^ 20 ≤ totalLength entries
  last_word : totalLength entries / 4096 % 32 ≠ 0
  regions : ∀ e ∈ entries, 4096 ≤ e.len_low.toNat →
    e.addr_low.toNat / 4096 + e.len_low.toNat / 4096 ≤ totalLength entries / 4096
  available : ∀ e ∈ entries, e.Available → (e.address + 4095) / 4096 < (e.address + e.length) / 4096 →
    (e.address + e.length) / 4096 ≤ totalLength entries / 4096

/-! ## The kernel -/

/-- The physical bytes of the kernel image, loaded at 1 MiB and linked 3 GiB higher, and of the bitmap right
    behind it. -/
def kernelBytes (kernelEnd maxBlocks : U32) : Set ℕ :=
  Set.Ico 0x100000 (kernelEnd.toNat - 0xC0000000 + maxBlocks.toNat / 8)

/-- The block holds a part of the kernel or of the bitmap. -/
def HoldsKernel (kernelEnd maxBlocks : U32) (b : ℕ) : Prop :=
  (blockBytes b ∩ kernelBytes kernelEnd maxBlocks).Nonempty

/-- The blocks of the kernel and the bitmap are in use after booting, and are not handed out later. -/
structure KernelKept (kernelEnd : U32) (s : PMM) (entries : List MmapEntry) : Prop where
  used : ∀ b, HoldsKernel kernelEnd (s.init entries).maxBlocks b →
    PMM.testBit (s.init entries).memoryMap b = true
  kept : ∀ ops c, Run FrameClient.Step ⟨s.init entries, []⟩ ops c →
    ∀ b, HoldsKernel kernelEnd (s.init entries).maxBlocks b → ∀ x ∈ c.live, b ∉ runBlocks x

/-- The map leaves the block in use: its last cover is not available, or there is none and the fill, or what
    was in memory behind it, has the bit set. -/
def LeavesUsed (s : PMM) (entries : List MmapEntry) (b : ℕ) : Prop :=
  (∃ e, LastCover entries b e ∧ ¬ e.Available) ∨
    Uncovered entries b ∧
      if b / 8 ≤ (s.init entries).maxBlocks.toNat / 8 then b % 8 < 4 else s.memoryMap.bit b = true

end Pros
