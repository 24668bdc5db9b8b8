import Pros.MM.HeapClient

/-!
# Heap accounting

`usage` is to be what the allocated chunks take up, their headers included, and the guard of `malloc` is to
reject a request only if what is live leaves no room for it. `free` does not touch the counter, so both hold
until the first `free` of a run.
-/

namespace Pros

open MemoryChunk

/-- What the allocations take up, their headers included. -/
def footprint (live : List (U32 × U32)) : ℕ := (live.map fun x => x.2.toNat + 20).sum

/-- A request whose guard is computed without wrapping. -/
def NoWrap (h : Heap) (n : U32) : Prop := h.usedMemory.toNat + n.toNat + 20 < 2 ^ 32

/-- A request, and no `free`. -/
def AllocOnly (c : HeapClient) (op : HeapOp) : Prop := ∃ n, op = .malloc n ∧ NoWrap c.heap n

/-- How the kernel uses its heap: it asks for blocks and stores to them, and frees none. -/
def HeapClient.Uses (c : HeapClient) : HeapAction → HeapClient → Prop
  | .call op, c' => c.Step op c' ∧ AllocOnly c op
  | .put a v, c' => c' = { c with heap := { c.heap with mem := c.heap.mem.store8 a v } } ∧ ∃ x ∈ c.live, a ∈ payload x

/-- A request whose guard wraps is not placed anywhere. -/
def RequestFits (c : HeapClient) : HeapOp → Prop
  | .malloc n => NoWrap c.heap n ∨ ∀ d, ¬ PlacedIn c.heap n d
  | .free _ => True

/-- What the allocated chunks among `cs` take up, their headers included. -/
def allocatedBytes (m : Ram) (cs : List U32) : ℕ :=
  ((cs.filter fun c => allocated m c).map fun c => (size m c).toNat + 20).sum

/-- The counter is what the allocated chunks on the list take up, and the guard rejects no request that there
    is room for beside what is live. -/
structure HeapAccounted (c : HeapClient) : Prop where
  usage : ∃ cs, Walk c.heap.mem c.heap.first cs ∧ c.heap.usage.toNat = allocatedBytes c.heap.mem cs
  guard : ∀ n : U32, footprint c.live + n.toNat + 20 < c.heap.memorySize.toNat →
    c.heap.outOfMemory n = false

end Pros
