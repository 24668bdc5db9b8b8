import Pros.MM.Heap
import Pros.Foundations.Tiling

/-!
# The heap as a list of blocks

The abstract heap is the list of its blocks in address order. `Linked` ties it to memory: the headers
of the blocks stand end to end and are linked both ways.
-/

namespace Pros

open MemoryChunk

/-- A block of the heap: the size of its payload, and whether it is handed out. -/
structure Block where
  size : ℕ
  allocated : Bool
  deriving DecidableEq, Repr

/-- The bytes of a block, its header included. -/
def Block.span (b : Block) : ℕ := sizeofMemoryChunk + b.size

/-- The bytes of a list of blocks. -/
def extent (bs : List Block) : ℕ := Tiling.total Block.span bs

/-- The header at `pos` describes `b` and has the given links. -/
structure Header (m : Ram) (pos : ℕ) (prv nxt : U32) (b : Block) : Prop where
  next_eq : next m (ptr pos) = nxt
  prev_eq : prev m (ptr pos) = prv
  magic_eq : magic m (ptr pos) = HEAP_MAGIC
  allocated_eq : allocated m (ptr pos) = b.allocated
  size_eq : (size m (ptr pos)).toNat = b.size

/-- The link to the blocks `bs` at `pos`, or `after` if there are none. -/
def linkTo (pos : ℕ) (bs : List Block) (after : U32) : U32 :=
  match bs with
  | [] => after
  | _ :: _ => ptr pos

/-- The last of the blocks `bs` at `pos`, or `before` if there are none. -/
def lastOf (before : U32) : (pos : ℕ) → List Block → U32
  | _, [] => before
  | pos, b :: bs => lastOf (ptr pos) (pos + b.span) bs

/-- The headers of the blocks `bs` stand end to end from `pos` on, linked both ways. The first one's
    `prev` is `before`, the last one's `next` is `after`. -/
def Linked (m : Ram) (before : U32) : (pos : ℕ) → List Block → (after : U32) → Prop
  | _, [], _ => True
  | pos, b :: bs, after =>
    Header m pos before (linkTo (pos + b.span) bs after) b ∧ Linked m (ptr pos) (pos + b.span) bs after

/-- The address `w` is in the header of one of the blocks `bs` at `pos`. -/
def InHeaders (pos : ℕ) (bs : List Block) (w : U32) : Prop :=
  ∃ x ∈ Tiling.positions Block.span pos bs, ∃ k < sizeofMemoryChunk, w = ptr (x.1 + k)

/-- `h` is the heap whose blocks, from `start` on, are `bs`. -/
structure Represents (h : Heap) (start : ℕ) (bs : List Block) : Prop where
  first_eq : h.first = ptr start
  linked : Linked h.mem nullptr start bs nullptr
  nonempty : bs ≠ []
  start_pos : 0 < start
  fits : start + extent bs ≤ 2 ^ 32

/-- A block that a request for `n` bytes can be placed in. -/
def Block.Fits (n : ℕ) (b : Block) : Prop := n < b.size ∧ b.allocated = false

/-- A request for `n` bytes placed in the block `b`: the block is cut to `n` bytes, the rest becomes a
    free block with a header of its own. -/
def cut (n : ℕ) (b : Block) : List Block := [⟨n, true⟩, ⟨b.size - sizeofMemoryChunk - n, false⟩]

/-- Two neighbours made into one block. -/
def join (b c : Block) : Block := ⟨b.size + (c.size + sizeofMemoryChunk), b.allocated⟩

/-- The block `c`, merged with the block after it if that one is free. -/
def mergeRight (c : Block) : List Block → List Block
  | [] => [c]
  | d :: post => if d.allocated then c :: d :: post else join c d :: post

/-- What `Heap::free` makes of the block `c` between `pre` and `post`: a block before it that is handed
    out swallows it, otherwise it becomes free; either way the result is merged with a free block that
    follows. -/
inductive Released (c : Block) (post : List Block) : (pre res : List Block) → Prop where
  | swallowed {pre : List Block} {b : Block} (hb : b.allocated = true) :
      Released c post (pre ++ [b]) (pre ++ mergeRight (join b c) post)
  | kept {pre : List Block} (hb : ∀ b ∈ pre.getLast?, b.allocated = false) :
      Released c post pre (pre ++ mergeRight { c with allocated := false } post)

end Pros
