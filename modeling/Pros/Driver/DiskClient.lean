import Pros.Driver.ATA
import Pros.Foundations.Run

/-!
# The clients of a disk

Reading from a disk is to leave the kernel's heap as full as it was (`KeepsHeap`). `readSector` takes its
buffer from the heap and nothing ever gives it back.
-/

namespace Pros

/-- The arguments of a call of `ATA::read`. -/
structure DiskRead where
  file : U32 := nullptr
  offset : U32
  size : U32
  buf : U32

/-- At least one byte, and none behind the last one that an offset can name. -/
def DiskRead.Valid (c : DiskRead) : Prop := 1 ≤ c.size.toNat ∧ c.offset.toNat + c.size.toNat ≤ 2 ^ 32

/-- The number of sectors that hold the bytes of a request. -/
def DiskRead.sectors (c : DiskRead) : ℕ :=
  (c.offset.toNat + c.size.toNat - 1) / 512 + 1 - c.offset.toNat / 512

variable {σ : Type}

/-- The state with empty logs, so that they hold what the next call does. -/
def DiskState.freshLog (s : DiskState σ) : DiskState σ := { s with buffers := [], copies := [] }

/-- A call that returns. -/
def DiskStep (ata : ATA) (bus : PortBus σ) (s : DiskState σ) (c : DiskRead) (s' : DiskState σ) : Prop :=
  c.Valid ∧ ∃ fuel total, ata.read bus fuel c.file c.offset c.size c.buf s.freshLog = some (total, s')

/-- The call has not consumed anything of the heap, and has stored no sector through a null pointer. -/
def KeepsHeap (s s' : DiskState σ) : Prop :=
  s'.heap.usage = s.heap.usage ∧ nullptr ∉ s'.buffers

end Pros
