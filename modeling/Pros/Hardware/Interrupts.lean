import Pros.Foundations.X86
import Pros.Hardware.Port
import Pros.Hardware.IDT

/-!
# The code for interrupts

The entry points of `interrupts.asm` push the number of the interrupt and an error code, save the registers and call
`handleInterrupt`, which tells the interrupt controllers that the interrupt has been dealt with. Then the registers
are restored and the program that was interrupted goes on.

The part between two labels is straight, so a part is a list of instructions, and a jump to a label goes on with its
list. What the C++ function leaves in the registers and in its frame on the stack is not known.
-/

namespace Pros

open X86

/-! ## Entry points -/

/-- The macro `EXCEPTION_NOERRCODE`, up to its jump. -/
def EXCEPTION_NOERRCODE (n : ℕ) : List Instr := [.cli, .pushByte 0, .pushByte (BitVec.ofNat 8 n)]

/-- The macro `EXCEPTION_ERRCODE`. -/
def EXCEPTION_ERRCODE (n : ℕ) : List Instr := [.cli, .pushByte (BitVec.ofNat 8 n)]

/-- The macro `INTERRUPT`. -/
def INTERRUPT (n : ℕ) : List Instr := [.cli, .pushByte 0, .pushByte (BitVec.ofNat 8 n + 0x20)]

/-- The exceptions that `interrupts.asm` has an error code for. -/
def HasErrcode (v : ℕ) : Prop := v = 8 ∨ 10 ≤ v ∧ v ≤ 14

instance (v : ℕ) : Decidable (HasErrcode v) := inferInstanceAs (Decidable (_ ∨ _))

/-- `isr0` to `isr31` and, from 32 on, `irq0` to `irq15`. -/
def entryCode (v : ℕ) : List Instr :=
  if v < 32 then
    if HasErrcode v then EXCEPTION_ERRCODE v else EXCEPTION_NOERRCODE v
  else INTERRUPT (v - 32)

/-- `exception` and `interrupt`, which are the same, up to the call. -/
def saveCode : List Instr :=
  [.pusha, .movFromSeg .eax .ds, .push .eax, .movLow .eax 0x10, .movToSeg .ds .eax, .movToSeg .es .eax,
    .movToSeg .fs .eax, .movToSeg .gs .eax]

/-- `exception` and `interrupt` from the call on. -/
def restoreCode : List Instr :=
  [.pop .ebx, .movToSeg .ds .ebx, .movToSeg .es .ebx, .movToSeg .fs .ebx, .movToSeg .gs .ebx, .popa,
    .add .esp 8, .sti, .iret]

/-! ## `handleInterrupt` -/

/-- `Registers`, as far as they have been pushed when the ring has not changed. -/
structure Registers where
  ds : U32
  edi : U32
  esi : U32
  ebp : U32
  esp : U32
  ebx : U32
  edx : U32
  ecx : U32
  eax : U32
  interrupt : U32
  error : U32
  eip : U32
  cs : U32
  eflags : U32

/-- The argument of a call, on the stack. -/
def Registers.load (m : Ram) (a : U32) : Registers where
  ds := m.load32 a
  edi := m.load32 (a + 4)
  esi := m.load32 (a + 8)
  ebp := m.load32 (a + 12)
  esp := m.load32 (a + 16)
  ebx := m.load32 (a + 20)
  edx := m.load32 (a + 24)
  ecx := m.load32 (a + 28)
  eax := m.load32 (a + 32)
  interrupt := m.load32 (a + 36)
  error := m.load32 (a + 40)
  eip := m.load32 (a + 44)
  cs := m.load32 (a + 48)
  eflags := m.load32 (a + 52)

namespace InterruptManager

/-- The ports written to by the constructor, with the values, in order. -/
def new : List (U16 × U8) :=
  [(0x20, 0x11), (0xA0, 0x11), (0x21, HARDWARE_INTERRUPT_OFFSET), (0xA1, HARDWARE_INTERRUPT_OFFSET + 8),
    (0x21, 0x04), (0xA1, 0x02), (0x21, 0x01), (0xA1, 0x01), (0x21, 0x00), (0xA1, 0x00)]

/-- The ports written to by `handleInterrupt`. -/
def handleInterrupt (registers : Registers) : List (U16 × U8) :=
  (0x20, 0x20) :: if 40 ≤ registers.interrupt then [(0xA0, 0x20)] else []

end InterruptManager

/-! ## Interrupts as a whole -/

/-- The processor in `s` takes an interrupt through its gate, with the error code `error` if there is one, and is
    in `t` when the program goes on. In between `handleInterrupt` is called with `registers`, and uses no more than
    `frame` bytes of stack. -/
def Interrupted (frame : ℕ) (v : ℕ) (error : Option U32) (target : U16 × U32) (registers : Registers)
    (s t : Cpu) : Prop :=
  ∃ u : Cpu,
    let called := run (entryCode v ++ saveCode) (s.interrupt target.1 target.2 error)
    registers = Registers.load called.mem (called.reg .esp) ∧ Returned frame called u ∧ t = run restoreCode u

/-- The registers that a program is interrupted with. -/
structure SavedOf (s : Cpu) (v : ℕ) (error : Option U32) (registers : Registers) : Prop where
  ds : registers.ds.setWidth 16 = s.sreg .ds
  edi : registers.edi = s.reg .edi
  esi : registers.esi = s.reg .esi
  ebp : registers.ebp = s.reg .ebp
  /-- The value that `pusha` stores, when there are five words on the stack. -/
  esp : registers.esp = s.reg .esp - 20
  ebx : registers.ebx = s.reg .ebx
  edx : registers.edx = s.reg .edx
  ecx : registers.ecx = s.reg .ecx
  eax : registers.eax = s.reg .eax
  interrupt : registers.interrupt = BitVec.ofNat 32 v
  error : registers.error = error.getD 0
  eip : registers.eip = s.eip
  cs : registers.cs = (s.sreg .cs).setWidth 32
  eflags : registers.eflags = s.eflags

/-- A program goes on as it was interrupted: with its registers, but for three segment registers, which it has `ds`
    in; and its memory, but for `n` bytes below the stack pointer. -/
structure Resumed (n : ℕ) (s t : Cpu) : Prop where
  reg : t.reg = s.reg
  eip : t.eip = s.eip
  eflags : t.eflags = s.eflags
  kept : ∀ r, r = .cs ∨ r = .ss ∨ r = .ds → t.sreg r = s.sreg r
  data : ∀ r, r = .es ∨ r = .fs ∨ r = .gs → t.sreg r = s.sreg .ds
  mem : SameBut (s.reg .esp) n s.mem t.mem

end Pros
