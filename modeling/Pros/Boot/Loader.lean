import Pros.Foundations.Ia32
import Pros.Lib.Types

/-!
# The loader

`boot.asm`: the code that is entered with paging off at the place where the kernel has been loaded, and that leaves
for `kmain` at the addresses that the kernel is linked for, 3 GiB above. Assembler and linker choose the encodings
of the instructions and the places of the sections (`Image`).
-/

namespace Pros

open Ia32 (Instr Machine)

def KERNEL_VIRTUAL_BASE : U32 := 0xC0000000
def KERNEL_PAGE_NUMBER : ℕ := (KERNEL_VIRTUAL_BASE >>> 22).toNat

/-- The page directory in section `.data`. -/
def bootPageDirectory : List U32 :=
  -- identity map first page (4MB)
  [0x00000083] ++
  -- zero pages before kernel
  List.replicate (KERNEL_PAGE_NUMBER - 1) 0 ++
  -- map of the kernel's page (4MB)
  [0x00000083] ++
  -- pages after kernel
  List.replicate (1024 - KERNEL_PAGE_NUMBER - 1) 0

/-- What assembler and linker have made of the file: where its labels are, and the bytes of each instruction. -/
structure Image where
  /-- The address of `_loader`. -/
  loader : U32
  kmain : U32
  /-- The address of the label `bootPageDirectory`. -/
  directory : U32
  stack_top : U32
  text : List (List U8)

namespace Image

variable (im : Image)

/-- The address of an instruction, by its number. -/
def address (k : ℕ) : U32 := im.loader + ((im.text.take k).flatten.length : U32)

def startInHigherHalf : U32 := im.address 10
def loopb : U32 := im.address 17

/-- The instructions from `_loader` on. -/
def code : List Instr := [
  -- load our boot page directory
  .mov .ecx (im.directory - KERNEL_VIRTUAL_BASE),
  .movToCr .cr3 .ecx,
  -- enable 4 mb pages
  .movFromCr .ecx .cr4,
  .or .ecx 0x00000010,
  .movToCr .cr4 .ecx,
  -- enable paging
  .movFromCr .ecx .cr0,
  .or .ecx 0x80000001,
  .movToCr .cr0 .ecx,
  -- jump to higher half code
  .lea .ecx im.startInHigherHalf,
  .jmpReg .ecx,
  -- unmap first 4MB of physical address space
  .store im.directory 0,
  .invlpg 0,
  .mov .esp im.stack_top,
  .push .eax,
  .push .ebx,
  .call im.kmain,
  .cli,
  .hlt,
  .jmp im.loopb]

/-- `a` is in the `n` bytes from `b` on. -/
def In (a b : U32) (n : ℕ) : Prop := b.toNat ≤ a.toNat ∧ a.toNat < b.toNat + n

/-- The sections lie apart between `kernelStart` and the end of the 4 MiB that the directory maps. -/
structure Linked : Prop where
  length : im.text.length = im.code.length
  encodes : ∀ k i bytes, im.code[k]? = some i → im.text[k]? = some bytes → Ia32.Encodes (im.address k) bytes i
  text_start : 0xC0100000 ≤ im.loader.toNat
  text_end : im.loader.toNat + im.text.flatten.length ≤ 0xC0400000
  directory_aligned : im.directory.toNat % 0x1000 = 0
  directory_start : 0xC0100000 ≤ im.directory.toNat
  directory_end : im.directory.toNat + 0x1000 ≤ 0xC0400000
  stack_start : 0xC0100000 + 16384 ≤ im.stack_top.toNat
  stack_end : im.stack_top.toNat ≤ 0xC0400000
  text_directory : ∀ a, In a im.loader im.text.flatten.length → ¬ In a im.directory 0x1000
  text_stack : ∀ a, In a im.loader im.text.flatten.length → ¬ In a (im.stack_top - 16384) 16384
  directory_stack : ∀ a, In a im.directory 0x1000 → ¬ In a (im.stack_top - 16384) 16384

end Image

/-- The file's sections are in memory where the linker script loads them, 3 GiB below their addresses. -/
structure Loaded (im : Image) (mem : Memory U32) : Prop where
  text : ∀ j (h : j < im.text.flatten.length),
    mem.byte (im.loader - KERNEL_VIRTUAL_BASE + (j : U32)) = im.text.flatten.get ⟨j, h⟩
  directory : ∀ n (h : n < bootPageDirectory.length),
    mem.load32 (im.directory - KERNEL_VIRTUAL_BASE + 4 * (n : U32)) = bootPageDirectory.get ⟨n, h⟩

/-- How a Multiboot loader enters the kernel. -/
structure HandOver (im : Image) (s : Machine) : Prop where
  loaded : Loaded im s.mem
  eip : s.eip = im.loader - KERNEL_VIRTUAL_BASE
  paging : s.paging = false
  pae : s.pae = false
  globalPages : s.globalPages = false
  interrupts : s.eflags.getLsbD 9 = false

/-- The 4 MiB from 3 GiB on show the first 4 MiB of memory. -/
def kernelWindow (a : U32) : Option Ia32.Mapping :=
  if 0xC0000000 ≤ a.toNat ∧ a.toNat < 0xC0400000 then some ⟨a - KERNEL_VIRTUAL_BASE, true, 22⟩ else none

/-- The processor knows the kernel's 4 MiB and no other addresses. -/
structure BehindWindow (s : Machine) : Prop where
  paging : s.paging = true
  bigPages : s.bigPages = true
  pae : s.pae = false
  globalPages : s.globalPages = false
  walk : ∀ a, s.walk a = kernelWindow a
  /-- No older translation is left. -/
  cached : ∀ a μ, s.tlb a = some μ → kernelWindow a = some μ

/-- `kmain` has been called with the two values that the kernel was entered with in `ebx` and `eax`. -/
structure Entered (im : Image) (s t : Machine) : Prop extends BehindWindow t where
  eip : t.eip = im.kmain
  esp : t.reg .esp = im.stack_top - 12
  mbi : t.load32 (t.reg .esp + 4) = some (s.reg .ebx)
  multibootMagic : t.load32 (t.reg .esp + 8) = some (s.reg .eax)
  interrupts : t.eflags.getLsbD 9 = false
  mem : ∀ x : U32, ¬ Image.In (x + KERNEL_VIRTUAL_BASE) im.directory 0x1000 →
    ¬ Image.In (x + KERNEL_VIRTUAL_BASE) (im.stack_top - 12) 12 → t.mem.byte x = s.mem.byte x

end Pros
