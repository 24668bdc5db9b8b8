import Mathlib.Data.Set.Basic
import Pros.Driver.DiskClient

/-!
# Drives, and what a read is to do

The device side of `ATA::read`, as the standard for ATA drives has it: registers that keep what is written to
their ports, and a command that makes the drive hand out the words of the sector that the registers name
(`Drive`). The other assumption is on the kernel: the buffers of the sectors come from memory of the heap
(`KmallocFresh`).

A read is to give the bytes of the disk, and to copy only inside the sectors' buffers and the caller's
(`CopiesInBounds`).
-/

namespace Pros

/-! ## Drives -/

/-- The words of a sector, the first byte of each in its low half. -/
def sectorWords (disk : ℕ → U8) (sector : ℕ) : List U16 :=
  (List.range 256).map fun k => disk (512 * sector + (2 * k + 1)) ++ disk (512 * sector + 2 * k)

namespace ATA

/-- The sector that the registers name, with the 28 bits of its number in four of them. -/
def lba28 (ata : ATA) (reg : U16 → U8) : BitVec 28 :=
  (reg ata.devicePort).setWidth 4 ++ reg ata.lbaHighPort ++ reg ata.lbaMidPort ++ reg ata.lbaLowPort

/-- The registers ask for one sector of this drive, by its number. -/
def selected (ata : ATA) (reg : U16 → U8) : Prop :=
  (reg ata.devicePort &&& 0xF0) = (if ata.master then 0xE0 else 0xF0) ∧ reg ata.sectorCountPort = 1

end ATA

variable {σ : Type}

/-- A drive with the contents `disk` behind the ports of `ata`. -/
structure Drive (ata : ATA) (bus : PortBus σ) (disk : ℕ → U8) where
  /-- What was last written to a port. -/
  reg : σ → U16 → U8
  /-- The words that the drive has still to hand out. -/
  queue : σ → List U16
  /-- A bound on how often the drive will say that it is busy. -/
  busyFor : σ → ℕ
  reg_outb : ∀ d p v, reg (bus.outb d p v) p = v
  reg_outb_of_ne : ∀ d p v q, q ≠ p → reg (bus.outb d p v) q = reg d q
  /-- The command to read. -/
  queue_command : ∀ d, ata.selected (reg d) →
    queue (bus.outb d ata.commandPort 0x20) = sectorWords disk (ata.lba28 (reg d)).toNat
  /-- Asking for the status takes nothing from the queue. -/
  queue_inb : ∀ d, queue (bus.inb d ata.commandPort).2 = queue d
  /-- The drive is not busy for ever. -/
  busyFor_inb : ∀ d, ATA.busy (bus.inb d ata.commandPort).1 →
    busyFor (bus.inb d ata.commandPort).2 < busyFor d
  /-- The data port hands out the words in order. -/
  inw_data : ∀ d w ws, queue d = w :: ws →
    (bus.inw d ata.dataPort).1 = w ∧ queue (bus.inw d ata.dataPort).2 = ws

/-! ## The memory of a read -/

/-- `kmalloc` hands out a sector's buffer inside `arena`, and changes nothing outside. -/
def KmallocFresh (arena : Set U32) (h : Heap) : Prop :=
  ∃ p h', h.malloc ATA_SECTOR_SIZE = some (p, h') ∧ (∀ i < 512, p + ((i : ℕ) : U32) ∈ arena) ∧
    ∀ x ∉ arena, h'.mem.byte x = h.mem.byte x

namespace DiskRead

/-- What the loop of `read` has done after `k` rounds. -/
def rounds (c : DiskRead) (ata : ATA) (bus : PortBus σ) (fuel : ℕ) (s : DiskState σ) (k : ℕ) :
    Option (U32 × DiskState σ) :=
  let r := SectorRange.of c.offset c.size
  ata.readLoop bus fuel r r.start c.buf 0 s k

/-- The bytes of the request in the `k` sectors from its first one on. -/
def copied (c : DiskRead) (k : ℕ) : ℕ := min c.size.toNat (512 * (c.offset.toNat / 512 + k) - c.offset.toNat)

end DiskRead

/-- A call of `memcpy` reads inside the 512 bytes at `sector` and writes inside the `size` bytes at `buf`. -/
def CopyInBounds (buf size sector : U32) (copy : U32 × U32 × U32) : Prop :=
  ∃ o w : ℕ, copy.2.1 = sector + (o : U32) ∧ o + copy.2.2.toNat ≤ 512 ∧
    copy.1 = buf + (w : U32) ∧ w + copy.2.2.toNat ≤ size.toNat

/-- Every `memcpy` of a call stays inside the sector that was read for it and the caller's buffer, and the
    total is never more than what was asked for. -/
def CopiesInBounds (ata : ATA) (bus : PortBus σ) (s : DiskState σ) (c : DiskRead) : Prop :=
  ∀ fuel k total s', c.rounds ata bus fuel s.freshLog k = some (total, s') →
    List.Forall₂ (CopyInBounds c.buf c.size) s'.buffers s'.copies ∧ total ≤ c.size

/-- The last byte of a request, counted from 0, is that of an offset. -/
def DiskRead.NoWrap (c : DiskRead) : Prop :=
  1 ≤ c.offset.toNat + c.size.toNat ∧ c.offset.toNat + c.size.toNat ≤ 2 ^ 32

/-- The request is not both empty and at the start of the disk, and if its end wraps around, then to a sector
    before its first. -/
def DiskRead.Harmless (c : DiskRead) : Prop :=
  c.NoWrap ∨ 2 ^ 32 < c.offset.toNat + c.size.toNat ∧
    (c.offset.toNat + c.size.toNat - 1 - 2 ^ 32) / 512 < c.offset.toNat / 512

end Pros
