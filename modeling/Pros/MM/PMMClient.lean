import Pros.MM.PMM
import Pros.Foundations.Bitmap
import Pros.Foundations.Run
import Mathlib.Data.Set.Lattice
import Mathlib.Order.CompletePartialOrder
import Mathlib.Order.Interval.Set.Basic

/-!
# The frame allocator and its clients

A client of the frame allocator asks for runs of blocks and gives back what it was given. This file says
what it may rely on: the runs it holds are disjoint, in use according to the bitmap, and none of them
reaches into the first 2 MiB.
-/

namespace Pros

namespace PMM

/-- The `n` blocks from `f` on are free. -/
def FreeRun (map : Memory ℕ) (f n : ℕ) : Prop := ∀ b, f ≤ b → b < f + n → map.bit b = false

/-- `f` is the first block below `bound` at which `n` free blocks begin. -/
def FirstFree (map : Memory ℕ) (bound n f : ℕ) : Prop :=
  f < bound ∧ FreeRun map f n ∧ ∀ g < f, ¬ FreeRun map g n

/-- The number of blocks at which the search looks for the start of a run. -/
def searchBound (s : PMM) : ℕ := 32 * (s.memorySize / 32 / 4096).toNat

end PMM

/-- The memory map of a PC with 16 MiB. -/
def smallPc : List MmapEntry :=
  [⟨0, 0, 0x9F000, 0, MULTIBOOT_MEMORY_AVAILABLE⟩, ⟨0x9F000, 0, 0x61000, 0, MULTIBOOT_MEMORY_RESERVED⟩,
    ⟨0x100000, 0, 0xF00000, 0, MULTIBOOT_MEMORY_AVAILABLE⟩]

/-- The calls of a client. -/
inductive FrameOp where
  | getFreePhysicalPage (size : U32)
  | freePage (p size : U32)

/-- The allocator together with the allocations that are live. -/
structure FrameClient where
  pmm : PMM
  live : List (U32 × U32)

namespace FrameClient

/-- The state after booting on a memory map, nothing allocated. -/
def boot (s : PMM) (grubMemoryMap : List MmapEntry) : FrameClient := ⟨s.initPMM grubMemoryMap, []⟩

/-- One call. There is no next state if what is given back is not live. -/
def step (c : FrameClient) : FrameOp → Option FrameClient
  | .getFreePhysicalPage size =>
    let (p, pmm) := c.pmm.getFreePhysicalPage size
    some ⟨pmm, if p = nullptr then c.live else (p, size) :: c.live⟩
  | .freePage p size =>
    if (p, size) ∈ c.live then some ⟨c.pmm.freePage p size, c.live.erase (p, size)⟩ else none

/-- One call as a relation. -/
abbrev Step (c : FrameClient) (op : FrameOp) (c' : FrameClient) : Prop := c.step op = some c'

end FrameClient

/-- The blocks of an allocation. -/
def runBlocks (x : U32 × U32) : Set ℕ := Set.Ico (x.1.toNat / 4096) (x.1.toNat / 4096 + x.2.toNat)

/-- What a state promises to the client. -/
structure Exclusive (c : FrameClient) : Prop where
  disjoint : c.live.Pairwise fun x y => Disjoint (runBlocks x) (runBlocks y)
  used : ∀ x ∈ c.live, ∀ b ∈ runBlocks x, PMM.testBit c.pmm.memoryMap b = true
  reserved : ∀ x ∈ c.live, ∀ b ∈ runBlocks x, 512 ≤ b

/-- A call of `getFreePhysicalPage` fails at its guard or because the search finds nothing. -/
def AllocFails (s : PMM) (size : U32) : Prop :=
  s.getFreeBlockCount = 0 ∨ s.firstFreePhysicalPagesBits size = none

/-- Two states with the same bitmap and the same count of used blocks. -/
def SameUse (s s' : PMM) : Prop :=
  s'.memoryMap.byte = s.memoryMap.byte ∧ s'.usedBlocks = s.usedBlocks

/-- What a call of `getFreePhysicalPage` promises: it returns null exactly when it fails, and then changes
    nothing; a success is not block 0, and giving the run back restores bitmap and count. -/
structure AllocSpec (s : PMM) (size : U32) : Prop where
  null_iff : (s.getFreePhysicalPage size).1 = nullptr ↔ AllocFails s size
  unchanged : (s.getFreePhysicalPage size).1 = nullptr → (s.getFreePhysicalPage size).2 = s
  block_ne_zero : (s.getFreePhysicalPage size).1 ≠ nullptr →
    (s.getFreePhysicalPage size).1.toNat / 4096 ≠ 0
  restore : (s.getFreePhysicalPage size).1 ≠ nullptr →
    SameUse s ((s.getFreePhysicalPage size).2.freePage (s.getFreePhysicalPage size).1 size)

end Pros
