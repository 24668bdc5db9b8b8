import Pros.FS.MountTree
import Pros.Lib.RamString
import Pros.MM.HeapAccount
import Pros.MM.Kmalloc

/-!
# Printing the tree of mounts

`VFS::dump` goes through the tree and prints every node behind an indentation, which it builds in a buffer of 32
bytes from the kernel's heap. `klog` only prints and is left out. The tree is not part of the heap here: what is
stored inside the buffers does not meet it.
-/

namespace Pros

open RamString (strcat)

/-- `' '`. -/
def space : CChar := ⟨0x20, by decide⟩

/-- A node that is printed, and the buffer with its indentation: where it is, and the addresses that `strcat` has
    stored to. -/
structure DumpVisit where
  node : ℕ
  tmp : U32
  stores : List U32

namespace VFS

variable {F : Type}

/-- The loop of `dumpRecursive` that builds the indentation. -/
def indent (fuel : ℕ) (tmp : U32) : (offset : ℕ) → (mem : Ram) → Option Ram
  | 0, mem => some mem
  | offset + 1, mem => do
    let mem ← strcat fuel mem tmp [space]
    indent fuel tmp offset mem

/-- `dumpRecursive` up to its loop over the children. Null and what is behind the heap's pages are not mapped, so
    `memset` faults if there is no block, and `malloc` if the header of the remainder does not fit. -/
def dumpNode (fuel : ℕ) (node : ℕ) (offset : U32) (heap : Heap) (visits : List DumpVisit) :
    Option (Heap × List DumpVisit) := do
  let (tmp, heap) ← { heap with mem := heap.mem.clearLog }.malloc 32
  if tmp = nullptr ∨ ∃ w ∈ heap.mem.written, w ∉ heapArena KERNEL_HEAP_START KERNEL_HEAP_SIZE then none
  else
    let mem ← indent fuel tmp offset.toNat (memset heap.mem tmp 0 32).clearLog
    return ({ heap with mem := mem }, visits ++ [⟨node, tmp, mem.written⟩])

/-- `dumpRecursive`, behind the visits so far. -/
def dumpRecursive (v : VFS F) (fuel : ℕ) : (depth : ℕ) → (node : ℕ) → (offset : U32) →
    (heap : Heap) → (visits : List DumpVisit) → Option (Heap × List DumpVisit)
  | 0, _, _, _, _ => none
  | depth + 1, node, offset, heap, visits => do
    let (heap, visits) ← dumpNode fuel node offset heap visits
    let len := BitVec.ofNat 32 (strlen (v.nodes node).name)
    (v.nodes node).children.foldlM
      (fun (heap, visits) child => dumpRecursive v fuel depth child (offset + len + 1) heap visits) (heap, visits)

/-- `dump`. -/
def dump (v : VFS F) (heap : Heap) (fuel : ℕ) : Option (Heap × List DumpVisit) :=
  dumpRecursive v fuel fuel v.tree 0 heap []

/-! ## What a dump is to be like -/

/-- Every node is printed once, and `strcat` stores inside the buffers only. -/
structure Dumped (v : VFS F) (visits : List DumpVisit) : Prop where
  once : (visits.map DumpVisit.node).Nodup
  all : ∀ i, i ∈ visits.map DumpVisit.node ↔ v.IsNode i
  fits : ∀ x ∈ visits, ∀ w ∈ x.stores, w ∈ bytesAt x.tmp 32

/-- The dump ends without a fault, as it should. -/
def DumpsSafely (v : VFS F) (heap : Heap) : Prop :=
  ∃ n, ∀ fuel, n ≤ fuel → ∃ heap' visits, v.dump heap fuel = some (heap', visits) ∧ v.Dumped visits

end VFS

/-- The columns in front of an entry: none for the root, else those of the names on the way to it, with one more
    column each; `"root"` is the first of them. -/
def indentation (l : List CString) : U32 :=
  if l = [] then 0 else BitVec.ofNat 32 (5 + (l.dropLast.map fun name => name.length + 1).sum)

/-- All entries on the way to a path have an indentation of 31 columns at most. -/
def Shallow (path : CString) : Prop := ∀ l, l <+: tok path → indentation l ≤ 31

instance (path : CString) : Decidable (Shallow path) :=
  decidable_of_iff (∀ l ∈ (tok path).inits, indentation l ≤ 31) (by simp only [List.mem_inits, Shallow])

end Pros
