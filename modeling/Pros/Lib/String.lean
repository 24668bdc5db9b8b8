import Pros.Lib.Types

/-!
# Raw memory functions of `String.cpp`
-/

namespace Pros

variable {α : Type} [DecidableEq α] [Add α] [NatCast α]

/-- `memset`. The counter is also the index of the store, so the bytes written are
    `dest[count], …, dest[1]`. -/
def memset (m : Memory α) (dest : α) (val : U8) : (count : ℕ) → Memory α
  | 0 => m
  | count + 1 => memset (m.store8 (dest + ((count + 1 : ℕ) : α)) val) dest val count

/-- The loop of `memcpy`, with `left` bytes to go from the one at `i` on. -/
def memcpyFrom (m : Memory α) (dest src : α) (i : ℕ) : (left : ℕ) → Memory α
  | 0 => m
  | left + 1 => memcpyFrom (m.store8 (dest + (i : α)) (m.byte (src + (i : α)))) dest src (i + 1) left

/-- `memcpy`. -/
def memcpy (m : Memory α) (dest src : α) (size : ℕ) : Memory α := memcpyFrom m dest src 0 size

end Pros
