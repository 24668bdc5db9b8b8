import Pros.Driver.Channel
import Pros.FS.Resolution

/-!
# Files on disks

The only storages that the kernel makes are `ATA` objects: a file that one of them is the storage of stands for the
whole disk, and has nothing below it.
-/

namespace Pros

variable {F σ : Type}

/-- `findDirectory` of the storages. -/
def ataFind (ata : ATA) (node : F) (name : CString) (s : DiskState σ) : Option F × DiskState σ :=
  (ata.findDirectory node name, s)

/-- `read` of the storages, with the addresses of the files. -/
def ataRead (address : F → U32) (bus : PortBus σ) (fuel : ℕ) (ata : ATA) (node : F) (offset size buffer : U32)
    (s : DiskState σ) : Option (U32 × DiskState σ) :=
  ata.read bus fuel (address node) offset size buffer s

end Pros
