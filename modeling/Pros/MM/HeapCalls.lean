import Pros.MM.HeapClient

/-!
# Single calls of the heap

What one call is to do to the chunk list, whatever the calls before were. `malloc` takes the first chunk that is
free and larger than the request and leaves everything as it is when there is none. `free` makes the chunk a part
of a free chunk between allocated ones, and touches no other allocated chunk (`Releases`).
-/

namespace Pros

open MemoryChunk

/-- A chunk that a request for `n` bytes can be placed in. -/
def ChunkFits (m : Ram) (n c : U32) : Prop := allocated m c = false ∧ n < size m c

/-- The sum that the guard of `malloc` compares, as a number. -/
def Heap.guardSum (h : Heap) (n : U32) : ℕ := (h.usedMemory.toNat + n.toNat + 20) % 2 ^ 32

/-- A request fails: the guard rejects it or no chunk of the list fits. -/
def RequestFails (h : Heap) (n : U32) (cs : List U32) : Prop :=
  h.memorySize.toNat ≤ h.guardSum n ∨ ∀ c ∈ cs, ¬ ChunkFits h.mem n c

/-- The chunk `d` is the first one of the list that fits, and the call has handed it out. -/
structure HandsOut (h : Heap) (n : U32) (cs : List U32) (d : U32) (h' : Heap) : Prop where
  first : ∃ pre post, cs = pre ++ d :: post ∧ (∀ c ∈ pre, ¬ ChunkFits h.mem n c) ∧ ChunkFits h.mem n d
  allocated_eq : allocated h'.mem d = true
  size_eq : size h'.mem d = n
  usedMemory_eq : h'.usedMemory.toNat = h.guardSum n

/-- Free chunks are followed by allocated ones. -/
def NoFreeNeighbours (h : Heap) : Prop :=
  ∀ c, OnList h.mem h.first c → allocated h.mem c = false →
    next h.mem c = nullptr ∨ allocated h.mem (next h.mem c) = true

/-- The chunk's bytes are part of the free chunk `f`, whose neighbours are allocated or absent. -/
structure Coalesced (h : Heap) (chunk : U32) (h' : Heap) (f : U32) : Prop where
  onList : OnList h'.mem h'.first f
  free : allocated h'.mem f = false
  covers : f.toNat ≤ chunk.toNat ∧
    chunk.toNat + sizeofMemoryChunk + (size h.mem chunk).toNat ≤
      f.toNat + sizeofMemoryChunk + (size h'.mem f).toNat
  before : prev h'.mem f = nullptr ∨ allocated h'.mem (prev h'.mem f) = true
  after : next h'.mem f = nullptr ∨ allocated h'.mem (next h'.mem f) = true

/-- The chunk is released, and no other. -/
structure Releases (start stop : ℕ) (h : Heap) (chunk : U32) (h' : Heap) : Prop where
  wellFormed : WellFormed start stop h'
  coalesced : ∃ f, Coalesced h chunk h' f
  others : ∀ c, OnList h.mem h.first c → c ≠ chunk → allocated h.mem c = true →
    OnList h'.mem h'.first c ∧ allocated h'.mem c = true ∧ size h'.mem c = size h.mem c

end Pros
