import Pros.Foundations.Memory

/-!
# Integer types and units

The fixed-width integers of `Types.hpp`, and the machine's memory as the kernel addresses it.
-/

namespace Pros

/-- `u8`. -/
abbrev U8 := BitVec 8

/-- `u16`. -/
abbrev U16 := BitVec 16

/-- `u32`, and every pointer of the 32-bit kernel. -/
abbrev U32 := BitVec 32

/-- `i32` and `int`. -/
abbrev I32 := BitVec 32

/-- The byte memory behind 32-bit pointers. -/
abbrev Ram := Memory U32

/-- The pointer to a byte position. -/
def ptr (pos : ℕ) : U32 := BitVec.ofNat 32 pos

/-- `operator"" _KB`. -/
def KB (n : ℕ) : U32 := BitVec.ofNat 32 (n * 1024)

/-- `operator"" _MB`. -/
def MB (n : ℕ) : U32 := BitVec.ofNat 32 n * KB 1024

/-- `operator"" _GB`. -/
def GB (n : ℕ) : U32 := BitVec.ofNat 32 n * MB 1024

/-- The null pointer. -/
def nullptr : U32 := 0

end Pros
