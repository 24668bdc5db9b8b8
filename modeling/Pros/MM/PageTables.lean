import Pros.Foundations.Paging
import Pros.MM.PMM
import Pros.MM.Kmalloc

/-!
# Page tables

Page tables and the page directory are the contents of physical frames, and `ram` is physical memory. `walk` is the
translation that the processor finds by its two-level walk.
-/

namespace Pros

def PHYS_2_VIRT (x : U32) : U32 := x + GB 3
def VIRT_2_PHYS (x : U32) : U32 := x - GB 3

def PAGES_PER_TABLE : ℕ := 1024
def PAGE_SIZE : U32 := 4096

def PAGE_DIRECTORY_INDEX (x : U32) : U32 := (x >>> 22) &&& (0x3ff : U32)
def PAGE_TABLE_INDEX (x : U32) : U32 := (x >>> 12) &&& (0x3ff : U32)
def PAGE_GET_PHYSICAL_ADDRESS (x : U32) : U32 := x &&& ~~~(0xFFF : U32)
def GET_FRAME_ADDRESS (x : U32) : U32 := (x &&& (0xFFFFF000 : U32)) >>> 12

/-- `sizeof(PageTable)` and `sizeof(PageDirectory)`. -/
def sizeofPageTable : ℕ := 4096

/-! ## Entries -/

namespace PageEntry

/-! The bit-fields `present`, `write` and `frame`, which `PageTableEntry` and `PageDirectoryEntry` have at
the same places. -/

def present (w : U32) : Bool := w.getLsbD 0
def write (w : U32) : Bool := w.getLsbD 1
def frame (w : U32) : U32 := w >>> 12

def setPresent (w : U32) : U32 := w ||| 1
def setWrite (w : U32) : U32 := w ||| 2
def setFrame (w : U32) (frame : U32) : U32 := (w &&& (0xFFF : U32)) ||| (frame <<< 12)

end PageEntry

/-- `MemoryManager` together with physical memory. -/
structure MemoryManager where
  pmm : PMM
  ram : Ram
  currentPageDirectory : U32
  /-- Ghost: what `getFreePhysicalPage` returned so far, latest first. -/
  granted : List U32 := []
  /-- Ghost: the arguments of the calls of `mapPage` so far, latest first. -/
  mapped : List (U32 × U32) := []
  /-- Ghost: the addresses of the bytes stored so far, with the places that they led to, latest first. -/
  stored : List (U32 × U32) := []

namespace MemoryManager

def getFreePhysicalPage (s : MemoryManager) (size : U32) : U32 × MemoryManager :=
  let (p, pmm) := s.pmm.getFreePhysicalPage size
  (p, { s with pmm := pmm, granted := p :: s.granted })

/-- `&currentPageDirectory->entries[PAGE_DIRECTORY_INDEX(virt)]`. -/
def directoryEntry (s : MemoryManager) (virt : U32) : U32 :=
  s.currentPageDirectory + 4 * PAGE_DIRECTORY_INDEX virt

def setPageDirectory (s : MemoryManager) (pageDirectory : U32) : MemoryManager :=
  { s with currentPageDirectory := pageDirectory }

/-! ## The walk -/

/-- The physical address of the page directory, as `setPageDirectory` loads it into `cr3`. -/
def directory (s : MemoryManager) : U32 := VIRT_2_PHYS s.currentPageDirectory

/-- The entry of the page directory for an address. -/
def walkDirectory (s : MemoryManager) (virt : U32) : U32 :=
  s.ram.load32 (s.directory + 4 * PAGE_DIRECTORY_INDEX virt)

/-- The entry for an address in the page table that the directory names. -/
def walkTable (s : MemoryManager) (virt : U32) : U32 :=
  s.ram.load32 (PAGE_GET_PHYSICAL_ADDRESS (s.walkDirectory virt) + 4 * PAGE_TABLE_INDEX virt)

/-- The frame behind an address, if there is one. -/
def walk (s : MemoryManager) (virt : U32) : Option U32 :=
  if PageEntry.present (s.walkDirectory virt) && PageEntry.present (s.walkTable virt) then
    some (PageEntry.frame (s.walkTable virt))
  else none

/-- Both levels allow stores to the page of an address. -/
def Writable (s : MemoryManager) (virt : U32) : Prop :=
  PageEntry.write (s.walkDirectory virt) = true ∧ PageEntry.write (s.walkTable virt) = true

/-- The place in physical memory behind an address. -/
def translate (s : MemoryManager) (virt : U32) : Option U32 :=
  (s.walk virt).map fun (frame : U32) => (frame <<< 12) + (virt &&& 0xFFF)

/-- The translation while physical memory is `ram`. -/
def translation (s : MemoryManager) (ram : Ram) : U32 → Option U32 := ({ s with ram := ram } : MemoryManager).translate

end MemoryManager

end Pros
