import Pros.MM.PMMSearch
import Mathlib.Data.List.Basic

/-!
# The search in machine integers

`firstFreePhysicalPagesBits` once more with the integers of the source: the index of a bit is an `int`, the counters
are unsigned, and the result is `-1` if nothing is found. A negative index has no word in the map and no mask, so
testing it gives `none`.
-/

namespace Pros

namespace PMM.Machine

/-- `testBit`. Division and remainder are those of signed integers. -/
def testBit (map : Memory ℕ) (bit : I32) : Option Bool :=
  if bit.slt 0 then none
  else some (word map (bit.sdiv 32).toNat &&& 1#32 <<< (bit.srem 32).toNat ≠ 0)

/-- The loop over `k`, which returns from the search when `free` has come to `size`. -/
def countFree (map : Memory ℕ) (currentBit : I32) (size : U32) : (k free : U32) → Option Bool
  | k, free =>
    if _h : k < size then do
      let set ← testBit map (currentBit + k)
      let free := if !set then free + 1 else free
      if free = size then return true else countFree map currentBit size (k + 1) free
    else return false
termination_by k => size.toNat - k.toNat
decreasing_by
  have := size.isLt
  have hk : k.toNat < size.toNat := _h
  rw [BitVec.toNat_add, show (1 : U32).toNat = 1 from rfl, Nat.mod_eq_of_lt (by omega)]
  omega

/-- The loop over the bits of word `i`. -/
def searchWord (map : Memory ℕ) (size i : U32) : Option (Option I32) :=
  (List.range 32).findSomeM? fun j =>
    if word map i.toNat &&& 1#32 <<< j = 0 then do
      let currentBit := i * 32 + BitVec.ofNat 32 j
      let found ← countFree map currentBit size 0 0
      return if found then some currentBit else none
    else return none

def firstFreePhysicalPagesBits (s : PMM) (size : U32) : Option I32 :=
  if size = 0 then return -1
  else do
    let frame ← (List.range (s.memorySize / 32 / 4096).toNat).findSomeM? fun i =>
      if word s.memoryMap i ≠ 0xFFFFFFFF then searchWord s.memoryMap size (BitVec.ofNat 32 i) else return none
    return frame.getD (-1)

end PMM.Machine

namespace PMM

/-- A scan bit by bit: the first block below the bound with `n` clear bits from it on. -/
def plainScan (map : Memory ℕ) (n bound : ℕ) : Option ℕ :=
  (List.range bound).find? fun f => (List.range n).all fun k => !map.bit (f + k)

/-- The search returns what the plain scan finds: the first free run that begins in the words of the map, or `-1`. -/
structure ScansPlainly (s : PMM) (size : U32) (frame : I32) : Prop where
  scan : frame = if size = 0 then -1
    else ((plainScan s.memoryMap size.toNat (32 * (s.memorySize.toNat / 131072))).map (BitVec.ofNat 32)).getD (-1)
  notFound : (size = 0 ∨ ∀ f < 32 * (s.memorySize.toNat / 131072), ¬ FreeRun s.memoryMap f size.toNat) → frame = -1
  found : size ≠ 0 → ∀ f, FirstFree s.memoryMap (32 * (s.memorySize.toNat / 131072)) size.toNat f →
    frame.toInt = f

end PMM

end Pros
