import Pros.Lib.String

/-!
# The kernel heap

The allocator of `Heap.cpp`: a doubly linked list of chunks, each a 20-byte `MemoryChunk` header
followed by its payload, kept in the memory that it manages. The list is the only state besides the
three fields of the `Heap` object, and all header accesses go through memory.

`klog` only writes to the serial port and is left out.
-/

namespace Pros

/-- `HEAP_MAGIC`. -/
def HEAP_MAGIC : U32 := 0x2137DEAD

/-- `sizeof(MemoryChunk)`: three words, a padded `bool`, and a word. -/
def sizeofMemoryChunk : ℕ := 20

/-! ## `MemoryChunk` fields -/

namespace MemoryChunk

/-- `chunk->next`. -/
def next (m : Ram) (chunk : U32) : U32 := m.load32 chunk

/-- `chunk->prev`. -/
def prev (m : Ram) (chunk : U32) : U32 := m.load32 (chunk + 4)

/-- `chunk->magic`. -/
def magic (m : Ram) (chunk : U32) : U32 := m.load32 (chunk + 8)

/-- `chunk->allocated`. -/
def allocated (m : Ram) (chunk : U32) : Bool := m.byte (chunk + 12) != 0

/-- `chunk->size`. -/
def size (m : Ram) (chunk : U32) : U32 := m.load32 (chunk + 16)

/-- `chunk->next = v`. -/
def setNext (m : Ram) (chunk v : U32) : Ram := m.store32 chunk v

/-- `chunk->prev = v`. -/
def setPrev (m : Ram) (chunk v : U32) : Ram := m.store32 (chunk + 4) v

/-- `chunk->magic = v`. -/
def setMagic (m : Ram) (chunk v : U32) : Ram := m.store32 (chunk + 8) v

/-- `chunk->allocated = v`. -/
def setAllocated (m : Ram) (chunk : U32) (v : Bool) : Ram :=
  m.store8 (chunk + 12) (if v then 1 else 0)

/-- `chunk->size = v`. -/
def setSize (m : Ram) (chunk v : U32) : Ram := m.store32 (chunk + 16) v

end MemoryChunk

open MemoryChunk

/-! ## The `Heap` object -/

/-- A `Heap` object with the memory it works in. -/
structure Heap where
  memorySize : U32
  usedMemory : U32
  first : U32
  mem : Ram

namespace Heap

/-- `Heap::Heap`. -/
def init (mem : Ram) (start size : U32) : Heap :=
  if size.toNat < sizeofMemoryChunk then
    { memorySize := size, usedMemory := 0, first := nullptr, mem := mem }
  else
    let first := start
    let mem := setAllocated mem first false
    let mem := setPrev mem first nullptr
    let mem := setNext mem first nullptr
    let mem := setSize mem first (size - 20)
    let mem := setMagic mem first HEAP_MAGIC
    { memorySize := size, usedMemory := 0, first := first, mem := mem }

/-- `Heap::usage`. -/
def usage (h : Heap) : U32 := h.usedMemory

/-- The search loop of `Heap::malloc`: the first chunk from `chunk` on that is free and larger than
    `size`, or null at the end of the list. The loop runs for at most `fuel` chunks; `none` means
    that it is still running then. -/
def search (m : Ram) (size : U32) : (fuel : ℕ) → (chunk : U32) → Option U32
  | 0, _ => none
  | fuel + 1, chunk =>
    if chunk = nullptr then some nullptr
    else if MemoryChunk.size m chunk > size && !allocated m chunk then some chunk
    else search m size fuel (next m chunk)

/-- There are only this many addresses, so a loop over more chunks than that never ends. -/
def addresses : ℕ := 2 ^ 32

/-- The guard at the head of `Heap::malloc`. -/
def outOfMemory (h : Heap) (size : U32) : Bool := h.usedMemory + size + 20 >= h.memorySize

/-- `if (chunk->next != nullptr) chunk->next->prev = p`. -/
def backLink (mem : Ram) (chunk p : U32) : Ram :=
  if next mem chunk ≠ nullptr then setPrev mem (next mem chunk) p else mem

/-- The header `temp` that `Heap::malloc` writes behind the `size` bytes of `result`. -/
def writeTemp (mem : Ram) (result size : U32) : Ram :=
  let temp := result + 20 + size
  let mem := memset mem temp 0 sizeofMemoryChunk
  let mem := setPrev mem temp result
  let mem := setNext mem temp (next mem result)
  let mem := setAllocated mem temp false
  let mem := setSize mem temp (MemoryChunk.size mem result - 20 - size)
  setMagic mem temp HEAP_MAGIC

/-- The updates that `Heap::malloc` makes to the chunk it hands out. -/
def takeChunk (mem : Ram) (result temp size : U32) : Ram :=
  let mem := setNext mem result temp
  let mem := setAllocated mem result true
  setSize mem result size

/-- The part of `Heap::malloc` that splits the chunk it has found. -/
def split (h : Heap) (result size : U32) : Heap :=
  let temp := result + 20 + size
  let mem := writeTemp h.mem result size
  let mem := backLink mem temp temp
  let mem := takeChunk mem result temp size
  { h with usedMemory := h.usedMemory + (size + 20), mem := mem }

/-- `Heap::malloc`: the returned pointer and the new heap, or `none` when the search loop does not
    terminate. -/
def malloc (h : Heap) (size : U32) : Option (U32 × Heap) :=
  if h.outOfMemory size then some (nullptr, h)
  else
    match search h.mem size addresses h.first with
    | none => none
    | some result =>
      if result = nullptr then some (nullptr, h)
      else some (result + 20, h.split result size)

/-- The merge of a chunk into the one before it, in `Heap::free`: the new memory and the chunk that
    the function goes on with. -/
def mergePrev (mem : Ram) (chunk : U32) : Ram × U32 :=
  if prev mem chunk ≠ nullptr && allocated mem (prev mem chunk) then
    let mem := setNext mem (prev mem chunk) (next mem chunk)
    let mem := setSize mem (prev mem chunk)
      (MemoryChunk.size mem (prev mem chunk) + (MemoryChunk.size mem chunk + 20))
    let mem := backLink mem chunk (prev mem chunk)
    (mem, prev mem chunk)
  else (mem, chunk)

/-- The merge of a chunk with the one after it, in `Heap::free`. -/
def mergeNext (mem : Ram) (chunk : U32) : Ram :=
  if next mem chunk ≠ nullptr && !allocated mem (next mem chunk) then
    let mem := setSize mem chunk
      (MemoryChunk.size mem chunk + (MemoryChunk.size mem (next mem chunk) + 20))
    let mem := setNext mem chunk (next mem (next mem chunk))
    backLink mem chunk (prev mem chunk)
  else mem

/-- `Heap::free`. -/
def free (h : Heap) (ptr : U32) : Heap :=
  let chunk := ptr - 20
  let mem := setAllocated h.mem chunk false
  let (mem, chunk) := mergePrev mem chunk
  { h with mem := mergeNext mem chunk }

end Heap

end Pros
