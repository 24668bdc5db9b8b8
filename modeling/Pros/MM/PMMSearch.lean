import Pros.MM.PMMClient
import Pros.Foundations.Scan

/-!
# The search against the number of blocks

`firstFreePhysicalPagesBits` scans whole words of the bitmap and counts clear bits wherever a run may go, while the
map has `maxBlocks` bits. Here the search is written once more with the bits that it tests, and it is said when it
agrees with that number.
-/

namespace Pros

namespace PMM

/-! ## The bits that are tested -/

/-- `countFree`, with the bits it tests. -/
def countFreeTested (map : Memory ℕ) (currentBit size : ℕ) : (left free : ℕ) → Bool × List ℕ
  | 0, _ => (false, [])
  | left + 1, free =>
    let k := size - (left + 1)
    let free := if !testBit map (currentBit + k) then free + 1 else free
    if free = size then (true, [currentBit + k])
    else
      let (found, bits) := countFreeTested map currentBit size left free
      (found, (currentBit + k) :: bits)

/-- One round of the loop over the bits of a word, with the bits it tests. -/
def searchBitTested (map : Memory ℕ) (size i j : ℕ) : Option ℕ × List ℕ :=
  let currentBit := i * 32 + j
  if word map i &&& 1#32 <<< j = 0 then
    let (found, bits) := countFreeTested map currentBit size size 0
    (if found then some currentBit else none, currentBit :: bits)
  else (none, [currentBit])

/-- `searchWord`, with the bits it tests. -/
def searchWordTested (map : Memory ℕ) (size i : ℕ) : Option ℕ × List ℕ :=
  Scan.traced (searchBitTested map size i) (List.range 32)

/-- `firstFreePhysicalPagesBits`, with the bits it tests. -/
def searchTested (s : PMM) (size : U32) : Option ℕ × List ℕ :=
  if size = 0 then (none, [])
  else
    Scan.traced (fun i =>
      if word s.memoryMap i ≠ 0xFFFFFFFF then searchWordTested s.memoryMap size.toNat i else (none, []))
      (List.range (s.memorySize / 32 / 4096).toNat)

/-! ## The number of blocks -/

/-- `maxBlocks`, as `initPMM` computes it. -/
def blockCount (s : PMM) : ℕ := (s.memorySize / BLOCK_SIZE).toNat

/-- The search finds the first free run of the map, and looks at no other bits than those of the map. -/
structure SearchExact (s : PMM) (size : U32) : Prop where
  found : ∀ f, s.firstFreePhysicalPagesBits size = some f →
    f + size.toNat ≤ blockCount s ∧ FreeRun s.memoryMap f size.toNat ∧
      ∀ g, g + size.toNat ≤ blockCount s → FreeRun s.memoryMap g size.toNat → f ≤ g
  notFound : s.firstFreePhysicalPagesBits size = none →
    ∀ f, f + size.toNat ≤ blockCount s → ¬ FreeRun s.memoryMap f size.toNat
  tested : ∀ b ∈ (searchTested s size).2, b < blockCount s

/-- Below the bound of the search, every free block that the search comes to has room for the run in the map; and
    where no run begins below the bound, none lies in the blocks behind it. -/
structure SearchFits (s : PMM) (size : U32) : Prop where
  room : ∀ c < searchBound s, s.memoryMap.bit c = false →
    (∀ g < c, ¬ FreeRun s.memoryMap g size.toNat) → c + size.toNat ≤ blockCount s
  rest : (∀ g < searchBound s, ¬ FreeRun s.memoryMap g size.toNat) →
    ∀ f, searchBound s ≤ f → f + size.toNat ≤ blockCount s → ¬ FreeRun s.memoryMap f size.toNat

end PMM

end Pros
