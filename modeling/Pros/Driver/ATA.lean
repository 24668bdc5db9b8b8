import Pros.Hardware.Port
import Pros.Lib.CString
import Pros.MM.Kmalloc

/-!
# The ATA driver

`ATA.cpp`, with the devices behind its ports as a parameter. The kernel's heap and the memory that it manages
are in `heap`: sector buffers come from `kmalloc`, and all data goes through memory.

`log` only prints and is left out.
-/

namespace Pros

/-- `ATA_SECTOR_SIZE`. -/
def ATA_SECTOR_SIZE : U32 := 512

/-- The ports of an `ATA` object, and which of the two drives it is. -/
structure ATA where
  dataPort : U16
  errorPort : U16
  sectorCountPort : U16
  lbaLowPort : U16
  lbaMidPort : U16
  lbaHighPort : U16
  devicePort : U16
  commandPort : U16
  controlPort : U16
  master : Bool

/-- What the driver works on. -/
structure DiskState (σ : Type) where
  device : σ
  heap : Heap
  /-- Ghost: what `readSector` returned so far, latest first. -/
  buffers : List U32 := []
  /-- Ghost: the arguments of the calls of `memcpy` so far, latest first. -/
  copies : List (U32 × U32 × U32) := []

/-- The sectors of a request: the local variables that `ATA::read` computes first. -/
structure SectorRange where
  start : U32
  startOffset : U32
  endSector : U32
  endOffset : U32

namespace SectorRange

def of (offset size : U32) : SectorRange where
  start := offset / ATA_SECTOR_SIZE
  startOffset := offset % ATA_SECTOR_SIZE
  endSector := (offset + size - 1) / ATA_SECTOR_SIZE
  endOffset := (offset + size - 1) % ATA_SECTOR_SIZE

/-- `sectorOffset` in the round for a sector. -/
def sectorOffset (r : SectorRange) (counter : U32) : U32 :=
  if counter = r.start then r.startOffset else 0

/-- `readSize` in the round for a sector. -/
def readSize (r : SectorRange) (counter : U32) : U32 :=
  if counter = r.endSector then r.endOffset - r.sectorOffset counter + 1
  else if counter = r.start then ATA_SECTOR_SIZE - r.sectorOffset counter
  else ATA_SECTOR_SIZE

end SectorRange

namespace ATA

/-- `ATA::ATA`. -/
def new (portBase : U16) (master : Bool) : ATA where
  dataPort := portBase
  errorPort := portBase + 1
  sectorCountPort := portBase + 2
  lbaLowPort := portBase + 3
  lbaMidPort := portBase + 4
  lbaHighPort := portBase + 5
  devicePort := portBase + 6
  commandPort := portBase + 7
  controlPort := portBase + 0x206
  master := master

variable {σ : Type}

/-! ## `readSector` -/

/-- The register writes of `readSector`. -/
def sendCommand (ata : ATA) (bus : PortBus σ) (lba : U32) (d : σ) : σ :=
  let d := bus.outb d ata.devicePort
    (((if ata.master then 0xE0 else 0xF0) ||| ((lba &&& (0x0F000000 : U32)) >>> 24)).setWidth 8)
  let d := bus.outb d ata.errorPort 0
  let d := bus.outb d ata.sectorCountPort 1
  let d := bus.outb d ata.lbaLowPort ((lba &&& (0x000000FF : U32)).setWidth 8)
  let d := bus.outb d ata.lbaMidPort (((lba &&& (0x0000FF00 : U32)) >>> 8).setWidth 8)
  let d := bus.outb d ata.lbaHighPort (((lba &&& (0x00FF0000 : U32)) >>> 16).setWidth 8)
  bus.outb d ata.commandPort 0x20

/-- The condition of the loop that waits for the drive. -/
def busy (status : U8) : Bool := (status &&& 0x80) == 0x80 && (status &&& 0x01) != 0x01

/-- The loop that waits for the drive. It reads the status at most `fuel` times; `none` means that the drive
    is still busy then. -/
def waitReady (ata : ATA) (bus : PortBus σ) : (fuel : ℕ) → (status : U8) → σ → Option σ
  | 0, status, d => if busy status then none else some d
  | fuel + 1, status, d =>
    if busy status then
      let (status, d) := bus.inb d ata.commandPort
      waitReady ata bus fuel status d
    else some d

/-- The loop of `readSector` that stores the data at `buf`, with `left` words to go from byte `i` on. -/
def readWords (ata : ATA) (bus : PortBus σ) (d : σ) (mem : Ram) (buf i : U32) : (left : ℕ) → σ × Ram
  | 0 => (d, mem)
  | left + 1 =>
    let (readData, d) := bus.inw d ata.dataPort
    let mem := mem.store8 (buf + i) ((readData &&& (0x00FF : U16)).setWidth 8)
    let mem := mem.store8 (buf + (i + 1)) (((readData >>> 8) &&& (0x00FF : U16)).setWidth 8)
    readWords ata bus d mem buf (i + 2) left

/-- `ATA::readSector`: the buffer and the new state, or `none` when it does not return. -/
def readSector (ata : ATA) (bus : PortBus σ) (fuel : ℕ) (lba : U32) (s : DiskState σ) :
    Option (U32 × DiskState σ) := do
  let (buf, heap) ← s.heap.malloc ATA_SECTOR_SIZE
  let (status, d) := bus.inb (ata.sendCommand bus lba s.device) ata.commandPort
  let d ← ata.waitReady bus fuel status d
  let (d, mem) := ata.readWords bus d heap.mem buf 0 256
  return (buf, { s with device := d, heap := { heap with mem := mem }, buffers := buf :: s.buffers })

/-! ## `identify` -/

/-- The register writes of `identify`. -/
def sendIdentify (ata : ATA) (bus : PortBus σ) (d : σ) : σ :=
  let d := bus.outb d ata.devicePort (if ata.master then 0xA0 else 0xB0)
  let d := bus.outb d ata.sectorCountPort 0
  let d := bus.outb d ata.lbaLowPort 0
  let d := bus.outb d ata.lbaMidPort 0
  let d := bus.outb d ata.lbaHighPort 0
  bus.outb d ata.commandPort 0xEC

/-- The loop of `identify`, with `left` words to go. `text` is the literal that the characters are stored to. -/
def readIdentity (ata : ATA) (bus : PortBus σ) (text : U32) (d : σ) (mem : Ram) : (left : ℕ) → σ × Ram
  | 0 => (d, mem)
  | left + 1 =>
    let (data, d) := bus.inw d ata.dataPort
    let mem := mem.store8 text (((data >>> 8) &&& (0xFF : U16)).setWidth 8)
    let mem := mem.store8 (text + 1) ((data &&& (0xFF : U16)).setWidth 8)
    readIdentity ata bus text d mem left

/-- `ATA::identify`: the new state, or `none` when it does not return. -/
def identify (ata : ATA) (bus : PortBus σ) (fuel : ℕ) (text : U32) (s : DiskState σ) : Option (DiskState σ) :=
  let (status, d) := bus.inb (ata.sendIdentify bus s.device) ata.commandPort
  if status = 0 then some { s with device := d }
  else do
    let d ← ata.waitReady bus fuel status d
    let (d, mem) := ata.readIdentity bus text d s.heap.mem 256
    return { s with device := d, heap := { s.heap with mem := mem } }

/-! ## `read` -/

/-- The part of the loop in `read` that copies from the sector's buffer `ret`. -/
def copySector (r : SectorRange) (counter currentBuffer ret : U32) (s : DiskState σ) : DiskState σ :=
  let src := ret + r.sectorOffset counter
  { s with
    heap := { s.heap with mem := memcpy s.heap.mem currentBuffer src (r.readSize counter).toNat }
    copies := (currentBuffer, src, r.readSize counter) :: s.copies }

/-- The loop of `read`, for at most `left` rounds: `total` and the new state. -/
def readLoop (ata : ATA) (bus : PortBus σ) (fuel : ℕ) (r : SectorRange) (counter currentBuffer total : U32)
    (s : DiskState σ) : (left : ℕ) → Option (U32 × DiskState σ)
  | 0 => some (total, s)
  | left + 1 =>
    if counter <= r.endSector then do
      let (ret, s) ← ata.readSector bus fuel counter s
      readLoop ata bus fuel r (counter + 1) (currentBuffer + r.readSize counter)
        (total + r.readSize counter) (copySector r counter currentBuffer ret s) left
    else some (total, s)

/-- The last sector is below this number, so that the loop of `read` has ended after as many rounds. -/
def sectors : ℕ := 2 ^ 23

/-- `ATA::read`: the number of bytes read and the new state, or `none` when it does not return. -/
def read (ata : ATA) (bus : PortBus σ) (fuel : ℕ) (_file offset size buf : U32) (s : DiskState σ) :
    Option (U32 × DiskState σ) :=
  let r := SectorRange.of offset size
  ata.readLoop bus fuel r r.start buf 0 s sectors

/-! ## Directories -/

/-- `ATA::findDirectory`. -/
def findDirectory {F : Type} (_ata : ATA) (_node : F) (_name : CString) : Option F := none

end ATA

end Pros
