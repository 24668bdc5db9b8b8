import Pros.MM.Heap

/-!
# The kernel's heap

The arena of the one `Heap` that the kernel allocates from.
-/

namespace Pros

/-- `KERNEL_HEAP_START`. -/
def KERNEL_HEAP_START : U32 := 0xC0400000

/-- `KERNEL_HEAP_SIZE`. -/
def KERNEL_HEAP_SIZE : U32 := 1024 * 1024

end Pros
