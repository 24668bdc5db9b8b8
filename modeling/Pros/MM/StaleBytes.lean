import Pros.MM.AddressSpace

/-!
# What is left in new page tables

Whatever was in memory before, only what is asked for is to be mapped, with no flags but `present` and
`write`. `memset` does not clear the first byte of a page table or of the page directory, so that this
depends on the byte that is there.
-/

namespace Pros

open MemoryManager PageEntry

/-- No flags but `present` and `write`. -/
def Plain (w : U32) : Prop := ∀ i < 12, 2 ≤ i → w.getLsbD i = false

end Pros
