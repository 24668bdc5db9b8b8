import Pros.MM.PMMClient
import Mathlib.Data.Nat.Count

/-!
# The memory map and the bitmap after booting

What the multiboot memory map says about physical memory, and what `initPMM` makes of it. It rounds the
low halves of an entry's address and length down to blocks (`Covers`) and lets the entries overwrite each
other in turn, over a fill that leaves the upper half of every byte clear.
-/

namespace Pros

namespace MmapEntry

/-- The address of the region, both halves. -/
def address (e : MmapEntry) : ℕ := e.addr_high.toNat * 2 ^ 32 + e.addr_low.toNat

/-- The length of the region, both halves. -/
def length (e : MmapEntry) : ℕ := e.len_high.toNat * 2 ^ 32 + e.len_low.toNat

/-- The bytes of the region. -/
def bytes (e : MmapEntry) : Set ℕ := Set.Ico e.address (e.address + e.length)

def Available (e : MmapEntry) : Prop := e.type = MULTIBOOT_MEMORY_AVAILABLE

instance (e : MmapEntry) : Decidable e.Available := inferInstanceAs (Decidable (_ = _))

/-- The blocks that `initPMM` takes the region for. -/
def Covers (e : MmapEntry) (b : ℕ) : Prop :=
  e.addr_low.toNat / 4096 ≤ b ∧ b < e.addr_low.toNat / 4096 + e.len_low.toNat / 4096

instance (e : MmapEntry) (b : ℕ) : Decidable (e.Covers b) := inferInstanceAs (Decidable (_ ∧ _))

end MmapEntry

/-- The bytes of a block. -/
def blockBytes (b : ℕ) : Set ℕ := Set.Ico (4096 * b) (4096 * b + 4096)

/-- The map says that every byte of the block is available memory and nothing else. -/
def OnlyAvailable (entries : List MmapEntry) (b : ℕ) : Prop :=
  ∀ x ∈ blockBytes b, (∃ e ∈ entries, e.Available ∧ x ∈ e.bytes) ∧
    ∀ e ∈ entries, x ∈ e.bytes → e.Available

/-- `e` is the last entry that covers the block. -/
def LastCover (entries : List MmapEntry) (b : ℕ) (e : MmapEntry) : Prop :=
  ∃ before after, entries = before ++ e :: after ∧ e.Covers b ∧ ∀ e' ∈ after, ¬ e'.Covers b

/-- No entry covers the block. -/
def Uncovered (entries : List MmapEntry) (b : ℕ) : Prop := ∀ e ∈ entries, ¬ e.Covers b

/-- The blocks marked free lie above the first 2 MiB and in available memory only. -/
def FreeBlocksSound (s : PMM) (entries : List MmapEntry) : Prop :=
  ∀ b < s.maxBlocks.toNat, PMM.testBit s.memoryMap b = false → 512 ≤ b ∧ OnlyAvailable entries b

/-- The memory maps that `initPMM` handles. A block that no entry covers is left free when its bit is in
    the upper half of a byte, as is a block whose last cover is available; both must be available
    memory. -/
structure MapHandled (memorySize : U32) (entries : List MmapEntry) : Prop where
  uncovered : ∀ b, 512 ≤ b → b < memorySize.toNat / 4096 → Uncovered entries b → 4 ≤ b % 8 →
    OnlyAvailable entries b
  covered : ∀ b e, 512 ≤ b → b < memorySize.toNat / 4096 → LastCover entries b e → e.Available →
    OnlyAvailable entries b

/-! ## Counting blocks -/

/-- What an entry leaves in the bit of a block, `used` being what was there. -/
def mark (b : ℕ) (used : Bool) (e : MmapEntry) : Bool := if e.Covers b then !e.Available else used

/-- Is the block in use after booting? -/
def bootUsed (entries : List MmapEntry) (b : ℕ) : Bool :=
  b < 512 || entries.foldl (mark b) (decide (b % 8 < 4))

/-- What the entries add to `usedBlocks`: available blocks are counted up, all others down. -/
def countedBlocks : List MmapEntry → U32
  | [] => 0
  | e :: entries =>
    (if e.Available then e.len_low / BLOCK_SIZE else -(e.len_low / BLOCK_SIZE)) +
      countedBlocks entries

/-- The memory maps after which `usedBlocks` agrees with the bitmap. -/
def MapBalanced (memorySize : U32) (entries : List MmapEntry) : Prop :=
  (memorySize / BLOCK_SIZE + countedBlocks entries - 512).toNat =
    Nat.count (fun b => bootUsed entries b = true) (memorySize.toNat / 4096)

/-- The counter of used blocks is the number of set bits below `maxBlocks`. So the number of free blocks
    does not wrap, and the guard of `getFreePhysicalPage` fires exactly when no block is free. -/
structure Accounted (s : PMM) : Prop where
  used_eq : s.usedBlocks.toNat =
    Nat.count (fun b => PMM.testBit s.memoryMap b = true) s.maxBlocks.toNat
  used_le : s.usedBlocks.toNat ≤ s.maxBlocks.toNat
  free_eq : s.getFreeBlockCount.toNat =
    Nat.count (fun b => ¬ PMM.testBit s.memoryMap b = true) s.maxBlocks.toNat
  guard_iff : s.getFreeBlockCount ≤ 0 ↔ ∀ b < s.maxBlocks.toNat, PMM.testBit s.memoryMap b = true

/-- A request is not met by a run of blocks that reaches over the last block of the memory. -/
def RunsInside (c : FrameClient) : FrameOp → Prop
  | .getFreePhysicalPage size => ∀ f, PMM.FirstFree c.pmm.memoryMap (PMM.searchBound c.pmm) size.toNat f →
      f + size.toNat ≤ c.pmm.maxBlocks.toNat
  | .freePage _ _ => True

end Pros
