import Pros.MM.Heap
import Pros.Foundations.Run
import Mathlib.Data.Set.Lattice
import Mathlib.Order.CompletePartialOrder
import Mathlib.Order.Interval.Set.Basic

/-!
# The heap and its clients

A client of the heap calls `malloc` and frees what it was given. This file says what such a client may
rely on: its payloads stay apart from each other and from the allocator's own data (`Safe`), and the
chunk list stays a list that tiles the arena (`WellFormed`).

Both fail on some runs. `MallocFits`, `MallocKeepsLinks` and `FreeKeepsLinks` are the conditions on a
call, and on the state it is made in, that keep away from the two defects behind this: `malloc` splits
a chunk without testing that the header of the remainder fits, and `free` stores the wrong back link
after a merge with the next chunk.
-/

namespace Pros

open MemoryChunk

/-- The calls of a client. -/
inductive HeapOp where
  | malloc (size : U32)
  | free (p : U32)

/-- The calls of the heap, and the stores that its users make to their blocks. -/
inductive HeapAction where
  | call (op : HeapOp)
  | put (a : U32) (v : U8)

/-- A heap together with the allocations that are live: the pointers handed out and not freed since,
    with the sizes asked for. -/
structure HeapClient where
  heap : Heap
  live : List (U32 × U32)

namespace HeapClient

/-- A fresh heap, nothing handed out. -/
def new (mem : Ram) (start size : U32) : HeapClient := ⟨Heap.init mem start size, []⟩

/-- The heap with an empty log, so that the log holds what the next call stores to. -/
def freshLog (c : HeapClient) : Heap := { c.heap with mem := c.heap.mem.clearLog }

/-- One call. There is no next state if `malloc` does not return or the freed pointer is not live. -/
def step (c : HeapClient) : HeapOp → Option HeapClient
  | .malloc size =>
    (c.freshLog.malloc size).map fun (p, heap) =>
      ⟨heap, if p = nullptr then c.live else (p, size) :: c.live⟩
  | .free p =>
    (c.live.find? fun x => x.1 = p).map fun x => ⟨c.freshLog.free p, c.live.erase x⟩

/-- One call as a relation. -/
abbrev Step (c : HeapClient) (op : HeapOp) (c' : HeapClient) : Prop := c.step op = some c'

end HeapClient

/-- The addresses of the `n` bytes at `a`. -/
def bytesAt (a : U32) (n : ℕ) : Set U32 := { w | ∃ k < n, w = a + BitVec.ofNat 32 k }

/-- The bytes that the client owns in an allocation. -/
def payload (x : U32 × U32) : Set U32 := bytesAt x.1 x.2.toNat

/-- The bytes of a chunk's header. -/
def header (chunk : U32) : Set U32 := bytesAt chunk sizeofMemoryChunk

/-- The addresses of the heap. -/
def heapArena (start size : U32) : Set U32 := { w | start.toNat ≤ w.toNat ∧ w.toNat < start.toNat + size.toNat }

instance (start size : U32) : DecidablePred (· ∈ heapArena start size) := fun w =>
  inferInstanceAs (Decidable (start.toNat ≤ w.toNat ∧ w.toNat < start.toNat + size.toNat))

/-- The chunks reached from `first` by `next`. -/
inductive OnList (m : Ram) (first : U32) : U32 → Prop where
  | first (h : first ≠ nullptr) : OnList m first first
  | next {chunk : U32} (h : OnList m first chunk) (hn : next m chunk ≠ nullptr) :
      OnList m first (next m chunk)

/-- What a state promises to the client: the live payloads are disjoint, lie in the arena and avoid the
    headers of the chunks on the list. -/
structure Safe (start stop : ℕ) (c : HeapClient) : Prop where
  disjoint : c.live.Pairwise fun x y => Disjoint (payload x) (payload y)
  inside : ∀ x ∈ c.live, ∀ w ∈ payload x, w.toNat ∈ Set.Ico start stop
  headers : ∀ x ∈ c.live, ∀ chunk, OnList c.heap.mem c.heap.first chunk →
    Disjoint (payload x) (header chunk)

/-- What a call promises: every store falls in the arena and outside the payloads that are live before
    or after the call. -/
def StoresSafe (start stop : ℕ) (c c' : HeapClient) : Prop :=
  ∀ w ∈ c'.heap.mem.written, w.toNat ∈ Set.Ico start stop ∧
    ∀ x ∈ c.live ++ c'.live, w ∉ payload x

/-! ## Well-formed chunk lists -/

/-- The walk from `chunk` by `next` visits exactly the chunks listed and ends. -/
def Walk (m : Ram) : (chunk : U32) → List U32 → Prop
  | chunk, [] => chunk = nullptr
  | chunk, c :: cs => chunk ≠ nullptr ∧ chunk = c ∧ Walk m (next m c) cs

/-- The chunks lie end to end from `pos` up to `stop`. -/
def Tiles (m : Ram) (stop : ℕ) : (pos : ℕ) → List U32 → Prop
  | pos, [] => pos = stop
  | pos, c :: cs => c.toNat = pos ∧ Tiles m stop (pos + sizeofMemoryChunk + (size m c).toNat) cs

/-- Each chunk's `prev` is the chunk before it, the first one's is `p`. -/
def BackLinks (m : Ram) : (p : U32) → List U32 → Prop
  | _, [] => True
  | p, c :: cs => prev m c = p ∧ BackLinks m c cs

instance Walk.decidable (m : Ram) : ∀ chunk cs, Decidable (Walk m chunk cs)
  | chunk, [] => inferInstanceAs (Decidable (chunk = nullptr))
  | chunk, c :: cs =>
    have := Walk.decidable m (next m c) cs
    inferInstanceAs (Decidable (chunk ≠ nullptr ∧ chunk = c ∧ Walk m (next m c) cs))

instance Tiles.decidable (m : Ram) (stop : ℕ) : ∀ pos cs, Decidable (Tiles m stop pos cs)
  | pos, [] => inferInstanceAs (Decidable (pos = stop))
  | pos, c :: cs =>
    have := Tiles.decidable m stop (pos + sizeofMemoryChunk + (size m c).toNat) cs
    inferInstanceAs (Decidable (_ ∧ Tiles m stop (pos + sizeofMemoryChunk + (size m c).toNat) cs))

instance BackLinks.decidable (m : Ram) : ∀ p cs, Decidable (BackLinks m p cs)
  | _, [] => inferInstanceAs (Decidable True)
  | p, c :: cs =>
    have := BackLinks.decidable m c cs
    inferInstanceAs (Decidable (prev m c = p ∧ BackLinks m c cs))

/-- The chunk list of a heap is finite, tiles the arena in address order, is linked back as it is linked
    forward, and has the magic number in every header. -/
def WellFormed (start stop : ℕ) (h : Heap) : Prop :=
  ∃ cs, Walk h.mem h.first cs ∧ Tiles h.mem stop start cs ∧ BackLinks h.mem nullptr cs ∧
    ∀ c ∈ cs, magic h.mem c = HEAP_MAGIC

/-! ## Conditions on a call -/

/-- `d` is the first chunk from `c` on that is free and larger than `n`. -/
inductive FirstFit (m : Ram) (n : U32) : (c d : U32) → Prop where
  | here {c : U32} (hc : c ≠ nullptr) (hn : n < size m c) (ha : allocated m c = false) :
      FirstFit m n c c
  | later {c d : U32} (hc : c ≠ nullptr) (hn : ¬ (n < size m c ∧ allocated m c = false))
      (h : FirstFit m n (next m c) d) : FirstFit m n c d

/-- The low byte of the link that `memset` runs over when the remainder is exactly a header long. -/
def linkLowByte (m : Ram) (chunk : U32) : U8 := m.byte (next m chunk)

/-- A request is not rejected by the guard and `c` is the chunk it is placed in. -/
def PlacedIn (h : Heap) (n c : U32) : Prop :=
  h.outOfMemory n = false ∧ FirstFit h.mem n h.first c

/-- The chunk that `malloc(n)` splits has room for the header of the remainder and for the byte after
    it that `memset` clears; or the byte after it is the low byte of a link and is zero already. -/
def MallocFits (h : Heap) (n : U32) : Prop :=
  ∀ c, PlacedIn h n c → n.toNat + 20 < (size h.mem c).toNat ∨
    n.toNat + 20 = (size h.mem c).toNat ∧ next h.mem c ≠ nullptr ∧ linkLowByte h.mem c = 0

/-- The chunk that `malloc(n)` splits has room for the header of the remainder, and the byte after that
    header is not part of a non-zero link. -/
def MallocKeepsLinks (h : Heap) (n : U32) : Prop :=
  ∀ c, PlacedIn h n c → n.toNat + 20 < (size h.mem c).toNat ∨
    n.toNat + 20 = (size h.mem c).toNat ∧ (next h.mem c = nullptr ∨ linkLowByte h.mem c = 0)

/-- `free(p)` does not merge with a next chunk that has a successor of its own. -/
def FreeKeepsLinks (h : Heap) (p : U32) : Prop :=
  let chunk := p - 20
  next h.mem chunk = nullptr ∨ allocated h.mem (next h.mem chunk) = true ∨
    next h.mem (next h.mem chunk) = nullptr

/-- The condition under which a call keeps the client safe. -/
def OpSafe (c : HeapClient) : HeapOp → Prop
  | .malloc n => MallocFits c.heap n
  | .free p => FreeKeepsLinks c.heap p

/-- The condition under which a call keeps the chunk list well formed. -/
def OpKeepsLinks (c : HeapClient) : HeapOp → Prop
  | .malloc n => MallocKeepsLinks c.heap n
  | .free p => FreeKeepsLinks c.heap p

end Pros
