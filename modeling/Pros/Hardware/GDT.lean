import Pros.Lib.Types
import Pros.Lib.String

/-!
# The global descriptor table

`setEntry` clears a descriptor with `memset` and fills it field by field. Base and limit are split over several
fields, and the limit shares a byte with the granularity.
-/

namespace Pros

/-- `GDT_MAX_ENTRIES`. -/
def GDT_MAX_ENTRIES : ℕ := 5

/-- A `GDTEntry`. It is packed, so its fields are at the offsets 0, 2, 4, 5, 6 and 7. -/
structure GDTEntry where
  limitLow : U16
  baseLow : U16
  baseMiddle : U8
  access : U8
  granularity : U8
  baseHigh : U8

/-- `sizeof(GDTEntry)`. -/
def GDTEntry.size : ℕ := 8

namespace GDT

/-- `&entries[i]`. -/
def entry (entries : U32) (i : ℕ) : U32 := entries + ((GDTEntry.size * i : ℕ) : U32)

def setEntry (m : Ram) (entries : U32) (i : ℕ) (base limit : U32) (access gran : U8) : Ram :=
  let entry := entry entries i
  let m := memset m entry 0 GDTEntry.size
  let m := m.store16 (entry + (2 : ℕ)) ((base &&& 0xFFFF).setWidth 16)
  let m := m.store8 (entry + (4 : ℕ)) (((base >>> 16) &&& 0xFF).setWidth 8)
  let m := m.store8 (entry + (7 : ℕ)) (((base >>> 24) &&& 0xFF).setWidth 8)
  let m := m.store16 (entry + (0 : ℕ)) ((limit &&& 0xFFFF).setWidth 16)
  let m := m.store8 (entry + (6 : ℕ)) (((limit >>> 16) &&& 0x0F).setWidth 8)
  let m := m.store8 (entry + (6 : ℕ)) (m.byte (entry + (6 : ℕ)) ||| (gran &&& 0xF0))
  m.store8 (entry + (5 : ℕ)) access

/-- The arguments of a call of `setEntry` for one of the entries there are. -/
structure Call where
  i : ℕ
  base : U32
  limit : U32
  access : U8
  gran : U8
  i_lt : i < GDT_MAX_ENTRIES

def Call.perform (entries : U32) (m : Ram) (c : Call) : Ram :=
  setEntry m entries c.i c.base c.limit c.access c.gran

/-- The calls of `init`: the null segment, and code and data for the kernel and for user mode. -/
def initCalls : List Call :=
  [⟨0, 0, 0, 0, 0, by decide⟩, ⟨1, 0, 0xFFFFFFFF, 0x9A, 0xCF, by decide⟩,
    ⟨2, 0, 0xFFFFFFFF, 0x92, 0xCF, by decide⟩, ⟨3, 0, 0xFFFFFFFF, 0xFA, 0xCF, by decide⟩,
    ⟨4, 0, 0xFFFFFFFF, 0xF2, 0xCF, by decide⟩]

/-- Calls one after the other. -/
def performAll (entries : U32) (m : Ram) (calls : List Call) : Ram := calls.foldl (Call.perform entries) m

/-! ## What the table is to hold -/

/-- The entry at a pointer. -/
def loadEntry (m : Ram) (entry : U32) : GDTEntry where
  limitLow := m.load16 (entry + (0 : ℕ))
  baseLow := m.load16 (entry + (2 : ℕ))
  baseMiddle := m.byte (entry + (4 : ℕ))
  access := m.byte (entry + (5 : ℕ))
  granularity := m.byte (entry + (6 : ℕ))
  baseHigh := m.byte (entry + (7 : ℕ))

/-- A segment, with the fields that its descriptor splits put together. -/
structure Segment where
  base : U32
  limit : BitVec 20
  access : U8
  flags : BitVec 4

/-- The processor's view of an entry. -/
def decode (e : GDTEntry) : Segment where
  base := e.baseHigh ++ e.baseMiddle ++ e.baseLow
  limit := e.granularity.extractLsb' 0 4 ++ e.limitLow
  access := e.access
  flags := e.granularity.extractLsb' 4 4

/-- The segment a call asks for. -/
def Call.segment (c : Call) : Segment where
  base := c.base
  limit := c.limit.setWidth 20
  access := c.access
  flags := c.gran.extractLsb' 4 4

/-- A call in a sequence is the last one for its entry. -/
def Last (calls : List Call) (c : Call) (post : List Call) : Prop :=
  (∃ pre, calls = pre ++ c :: post) ∧ ∀ d ∈ post, d.i ≠ c.i

/-- Every entry that was set has the segment of the last call for it, and outside the table nothing has changed. -/
structure SetUp (m m' : Ram) (entries : U32) (calls : List Call) : Prop where
  decodes : ∀ c post, Last calls c post → decode (loadEntry m' (entry entries c.i)) = c.segment
  unchanged : ∀ x, (∀ k < GDTEntry.size * GDT_MAX_ENTRIES, x ≠ entries + ((k : ℕ) : U32)) → m'.byte x = m.byte x

/-- Where a later call is for the entry before, the low byte of the limit is 0; and so is the byte behind the table,
    if the last entry is set. -/
structure Harmless (m : Ram) (entries : U32) (calls : List Call) : Prop where
  limits : ∀ c post, Last calls c post → (∃ d ∈ post, d.i + 1 = c.i) → c.limit.setWidth 8 = 0#8
  behind : (∃ c ∈ calls, c.i + 1 = GDT_MAX_ENTRIES) → m.byte (entry entries GDT_MAX_ENTRIES) = 0

end GDT

end Pros
