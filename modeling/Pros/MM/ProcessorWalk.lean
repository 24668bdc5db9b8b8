import Pros.Boot.Loader
import Pros.MM.StaleBytes
import Pros.MM.VirtualMemory

/-!
# The page tables as the processor reads them

The processor finds the page tables through `cr3`, and since the loader has turned big pages on, it takes an entry of
the directory for a page of 4 MiB if bit 7 of it is set. `setPageDirectory` replaces the loader's directory while the
kernel runs behind it.
-/

namespace Pros

open MemoryManager PageEntry
open Ia32 (Machine Mapping)

namespace MemoryManager

/-- What the tables say of an address, if all pages are of 4 KiB. -/
def mapping (s : MemoryManager) (virt : U32) : Option Mapping :=
  (s.translate virt).map fun x => ⟨x, write (s.walkDirectory virt) && write (s.walkTable virt), 12⟩

/-- Bit 7 is clear in the first byte of the page directory, which `memset` leaves as it is. -/
def SmallPages (s : MemoryManager) : Prop :=
  s.request 1 = s.request 0 + 4096 ∨ (s.ram.byte (s.request 1)).getLsbD 7 = false

end MemoryManager

/-- The processor has the directory of the memory manager and its memory. -/
structure Uses (t : Machine) (s : MemoryManager) : Prop where
  directory : t.cr .cr3 = s.directory
  bigPages : t.bigPages = true
  pae : t.pae = false
  mem : t.mem.byte = s.ram.byte

/-- The two instructions of `setPageDirectory` stand at `eip`, in the kernel's 4 MiB. The physical address of the
    directory is in `r`. -/
structure AtSetPageDirectory (r : X86.Reg) (mov invlpg : List U8) (s : Machine) : Prop where
  encodes_mov : Ia32.Encodes s.eip mov (.movToCr .cr3 r)
  encodes_invlpg : Ia32.Encodes (s.eip + (mov.length : U32)) invlpg (.invlpg 0)
  start : 0xC0000000 ≤ s.eip.toNat
  stop : s.eip.toNat + (mov ++ invlpg).length ≤ 0xC0400000
  bytes : ∀ j (h : j < (mov ++ invlpg).length),
    s.mem.byte (s.eip - KERNEL_VIRTUAL_BASE + (j : U32)) = (mov ++ invlpg).get ⟨j, h⟩

/-- The two instructions have been executed: the processor uses the tables, and nothing else of it has changed. -/
structure Switched (m : MemoryManager) (n : ℕ) (s t : Machine) : Prop extends Uses t m where
  eip : t.eip = s.eip + (n : U32)
  reg : t.reg = s.reg
  mem_eq : t.mem = s.mem
  paging : t.paging = true
  /-- No older translation is left. -/
  fresh : ∀ a, t.translate a = t.walk a
  /-- The kernel stays where it was. -/
  window : ∀ a : U32, 0xC0000000 ≤ a.toNat → a.toNat < 0xC0400000 →
    t.translate a = some ⟨a - KERNEL_VIRTUAL_BASE, true, 12⟩

end Pros
