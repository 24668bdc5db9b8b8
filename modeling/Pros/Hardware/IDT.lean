import Pros.Hardware.GDT

/-!
# The interrupt descriptor table

`init` clears the table with `memset` and fills the gates of the vectors that `interrupts.asm` has code for. What
matters is where the processor goes: through a gate, and the segment in the other table that the gate selects.
-/

namespace Pros

/-- `HARDWARE_INTERRUPT_OFFSET`. -/
def HARDWARE_INTERRUPT_OFFSET : U8 := 0x20

/-- An `IDTEntry`. It is packed, so its fields are at the offsets 0, 2, 4, 5 and 6. -/
structure IDTEntry where
  baseLow : U16
  selector : U16
  zero : U8
  flags : U8
  baseHigh : U16

/-- `sizeof(IDTEntry)`. -/
def IDTEntry.size : ℕ := 8

namespace InterruptManager

/-- `&entries[i]`. -/
def entry (entries : U32) (i : U8) : U32 := entries + ((IDTEntry.size * i.toNat : ℕ) : U32)

def setEntry (m : Ram) (entries : U32) (i : U8) (base : U32) (selector : U16) (flags : U8) : Ram :=
  let entry := entry entries i
  let m := m.store16 (entry + (0 : ℕ)) ((base &&& 0xFFFF).setWidth 16)
  let m := m.store16 (entry + (6 : ℕ)) (((base >>> 16) &&& 0xFFFF).setWidth 16)
  let m := m.store8 (entry + (5 : ℕ)) flags
  let m := m.store16 (entry + (2 : ℕ)) selector
  m.store8 (entry + (4 : ℕ)) 0

/-- The arguments of a call of `setEntry`. -/
structure Call where
  i : U8
  base : U32
  selector : U16
  flags : U8

def Call.perform (entries : U32) (m : Ram) (c : Call) : Ram := setEntry m entries c.i c.base c.selector c.flags

/-- Calls one after the other. -/
def performAll (entries : U32) (m : Ram) (calls : List Call) : Ram := calls.foldl (Call.perform entries) m

/-- The calls of `init`, for the addresses of `isr0` to `isr31` and `irq0` to `irq15`. -/
def initCalls (isr irq : ℕ → U32) : List Call :=
  ((List.range 32).map fun n => ⟨BitVec.ofNat 8 n, isr n, 0x08, 0x8E⟩) ++
    (List.range 16).map fun n => ⟨0x20 + BitVec.ofNat 8 n, irq n, 0x08, 0x8E⟩

/-- `InterruptManager::init`, up to the instructions that load the table and allow interrupts. -/
def init (m : Ram) (entries : U32) (isr irq : ℕ → U32) : Ram :=
  performAll entries (memset m entries 0 (IDTEntry.size * 256)) (initCalls isr irq)

/-! ## What the table is to hold -/

/-- The entry at a pointer. -/
def loadEntry (m : Ram) (entry : U32) : IDTEntry where
  baseLow := m.load16 (entry + (0 : ℕ))
  selector := m.load16 (entry + (2 : ℕ))
  zero := m.byte (entry + (4 : ℕ))
  flags := m.byte (entry + (5 : ℕ))
  baseHigh := m.load16 (entry + (6 : ℕ))

/-- A gate, with the halves of its offset put together. -/
structure Gate where
  offset : U32
  selector : U16
  flags : U8
deriving DecidableEq

/-- The processor's view of an entry. -/
def decode (e : IDTEntry) : Gate := ⟨e.baseHigh ++ e.baseLow, e.selector, e.flags⟩

/-- The gate a call asks for. -/
def Call.gate (c : Call) : Gate := ⟨c.base, c.selector, c.flags⟩

/-- The last call for a vector. -/
def lastCall (calls : List Call) (i : U8) : Option Call := calls.reverse.find? fun c => c.i = i

end InterruptManager

/-! ## Where an interrupt goes -/

/-- A 32-bit interrupt gate that is present. -/
def InterruptManager.Gate.IsInterrupt (g : Gate) : Prop :=
  g.flags.getLsbD 7 = true ∧ g.flags.extractLsb' 0 5 = 0x0E

instance (g : InterruptManager.Gate) : Decidable g.IsInterrupt := by
  unfold InterruptManager.Gate.IsInterrupt
  infer_instance

/-- A code segment that is present and that an offset is in, whose limit is in pages of 4 KiB. -/
def GDT.Segment.HasCode (s : GDT.Segment) (offset : U32) : Prop :=
  s.access &&& 0x98 = 0x98 ∧ s.flags.getLsbD 3 = true ∧ offset >>> 12 ≤ s.limit.setWidth 32

instance (s : GDT.Segment) (offset : U32) : Decidable (s.HasCode offset) := by
  unfold GDT.Segment.HasCode
  infer_instance

/-- Where the processor goes on an interrupt with the given vector, from the two tables: the selector and the
    address. Without a gate for it, or a segment for the gate, the interrupt cannot be delivered. There is no
    local table for a selector with bit 2. -/
def vectorTarget (m : Ram) (idt gdt : U32) (v : U8) : Option (U16 × U32) :=
  let gate := InterruptManager.decode (InterruptManager.loadEntry m (InterruptManager.entry idt v))
  let segment := GDT.decode (GDT.loadEntry m (GDT.entry gdt (gate.selector.toNat / 8)))
  if gate.IsInterrupt ∧ gate.selector.getLsbD 2 = false ∧ gate.selector.toNat / 8 < GDT_MAX_ENTRIES ∧
      segment.HasCode gate.offset then
    some (gate.selector, segment.base + gate.offset)
  else none

/-- The code for a vector. -/
def handlerAddress (isr irq : ℕ → U32) (v : ℕ) : U32 := if v < 32 then isr v else irq (v - 32)

/-- The table of segments and the table of interrupts, with the byte behind it, are apart. -/
def TablesApart (idt gdt : U32) : Prop :=
  ∀ i j : ℕ, i ≤ IDTEntry.size * 256 → j < GDTEntry.size * GDT_MAX_ENTRIES → idt + (i : U32) ≠ gdt + (j : U32)

end Pros
