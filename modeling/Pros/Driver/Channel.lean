import Pros.Driver.DiskDrive

/-!
# Two drives on a channel

The kernel has an `ATA` object for each of the two drives behind the same ports. What one of them writes to the
registers is there when the other one begins, and `identify` leaves words behind that nobody has asked for.

The objects and the rest of the kernel take from one heap, which nothing is given back to. As long as there is room
in it, a drive is to give its own bytes, whatever was called before.
-/

namespace Pros

/-- The calls of the channel's users. -/
inductive ChannelOp where
  | identify (master : Bool)
  | read (master : Bool) (c : DiskRead)
  /-- A request of someone else. -/
  | kmalloc (size : U32)

variable {σ : Type}

/-- A call; `text` is where the literal in `identify` is. -/
def ChannelOp.perform (portBase : U16) (bus : PortBus σ) (fuel : ℕ) (text : U32) (s : DiskState σ) :
    ChannelOp → Option (DiskState σ)
  | .identify master => (ATA.new portBase master).identify bus fuel text s
  | .read master c =>
    ((ATA.new portBase master).read bus fuel c.file c.offset c.size c.buf s).map Prod.snd
  | .kmalloc size => (s.heap.malloc size).map fun x => { s with heap := x.2 }

/-- Calls one after the other. -/
def ChannelOp.performAll (portBase : U16) (bus : PortBus σ) (fuel : ℕ) (text : U32) (s : DiskState σ)
    (ops : List ChannelOp) : Option (DiskState σ) :=
  ops.foldlM (ChannelOp.perform portBase bus fuel text) s

/-- The bytes of the heap that a call uses up. -/
def ChannelOp.cost : ChannelOp → ℕ
  | .identify _ => 0
  | .read _ c => 532 * c.sectors
  | .kmalloc size => size.toNat + 20

/-- The buffer of a call is the caller's own. -/
def ChannelOp.Allowed (arena : Set U32) : ChannelOp → Prop
  | .read _ c => c.Valid ∧ ∀ i : ℕ, i < c.size.toNat → c.buf + (i : U32) ∉ arena
  | _ => True

end Pros
