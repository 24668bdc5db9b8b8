import Pros.Foundations.InterruptController
import Pros.Foundations.Run
import Pros.Hardware.Interrupts

/-!
# The kernel and its interrupt controllers

Devices request interrupts at any time, also while the kernel writes to the ports of the controllers. The kernel takes
interrupts and exceptions when it has no more bytes to write: the constructor of `InterruptManager` runs before
interrupts are allowed, and a gate keeps them off until the registers are restored.

What is to hold over any such run is that nothing stays in service. Then each request is served in its turn, with the
vector of its line.
-/

namespace Pros

open PIC

structure IrqSystem where
  pics : Pair
  /-- The ports that the kernel is still to write to, and the values. -/
  todo : List (U16 × U8)
  /-- Ghost: the vectors that the processor has been given so far, latest first. -/
  vectors : List U8

/-- What devices and processor do. -/
inductive IrqOp where
  | request (l : Line)
  | withdraw (l : Line)
  /-- The next of the writes that the kernel is to do. -/
  | write
  /-- The processor asks for a vector, and the code for it begins. -/
  | acknowledge
  /-- An exception, with its number. -/
  | exception (n : ℕ)
deriving DecidableEq

namespace IrqSystem

/-- The writes that `handleInterrupt` does for the interrupt with the given number. -/
def Handles (number : U32) (todo : List (U16 × U8)) : Prop :=
  ∃ registers : Registers, registers.interrupt = number ∧ todo = InterruptManager.handleInterrupt registers

def Step (s : IrqSystem) (op : IrqOp) (s' : IrqSystem) : Prop :=
  match op with
  | .request l => s' = { s with pics := s.pics.request l }
  | .withdraw l => s' = { s with pics := s.pics.withdraw l }
  | .write => ∃ w todo, s.todo = w :: todo ∧ s' = { s with pics := s.pics.outb w.1 w.2, todo := todo }
  | .acknowledge => s.todo = [] ∧ ∃ todo, Handles (s.pics.acknowledge.1.setWidth 32) todo ∧
      s' = ⟨s.pics.acknowledge.2, todo, s.pics.acknowledge.1 :: s.vectors⟩
  | .exception n => n < 32 ∧ s.todo = [] ∧ ∃ todo, Handles (BitVec.ofNat 32 n) todo ∧ s' = { s with todo := todo }

/-- Before the constructor, with the controllers as they may be. -/
def boot (pics : Pair) : IrqSystem := ⟨pics, InterruptManager.new, []⟩

end IrqSystem

/-! ## What is to hold -/

/-- The controllers as the kernel sets them up, with nothing in service. -/
def readyControls : Controls where
  master := ⟨.operating, true, false, 0x20, 0x04, 0x01, 0, ∅⟩
  slave := ⟨.operating, true, false, 0x28, 0x02, 0x01, 0, ∅⟩

/-- A request here is noise. -/
def noiseLine : Line := .master slaveLine

/-- The vector of a line. Noise looks like the last line of the slave. -/
def lineVector : Line → U8
  | .master i => if i = slaveLine then 0x2F else 0x20 + BitVec.ofNat 8 i
  | .slave i => 0x28 + BitVec.ofNat 8 i

/-- The place of a line in the order of priorities: the slave's lines stand for the line that it is on. -/
def lineRank : Line → ℕ
  | .master i => if i < slaveLine then i else 8 + i
  | .slave i => 2 + i

/-- The pending request of the highest priority is served, the others stay pending. If there is none, the processor
    is given the vector of the master's last line. -/
def Serves (p : Pair) (v : U8) (p' : Pair) : Prop :=
  (∃ l, p.Pending l ∧ (∀ l', p.Pending l' → lineRank l ≤ lineRank l') ∧ v = lineVector l ∧
      (¬ p'.Pending l) ∧ ∀ l', l' ≠ l → l' ≠ noiseLine → (p'.Pending l' ↔ p.Pending l')) ∨
    (∀ l, ¬ p.Pending l) ∧ v = 0x27 ∧ p' = p

/-- The kernel takes interrupts with nothing in service, whatever it is given has a vector that there is code for, and
    the next one is the one it should be. -/
structure InService (s : IrqSystem) : Prop where
  ready : s.todo = [] → s.pics.controls = readyControls
  vectors : ∀ v ∈ s.vectors, 0x20 ≤ v.toNat ∧ v.toNat < 0x30
  serves : ∀ s', s.Step .acknowledge s' → ∃ v, s'.vectors = v :: s.vectors ∧ Serves s.pics v s'.pics

/-- The lines whose vectors the controllers give for requests of theirs only. -/
def Ordinary (l : Line) : Prop := l ≠ noiseLine ∧ l ≠ .master (Fin.last 7) ∧ l ≠ .slave (Fin.last 7)

/-- No controller will be initialised by the writes to come. -/
def IrqSystem.Booted (s : IrqSystem) : Prop := ∀ w ∈ s.todo, w.2.getLsbD 4 = false

/-- How often a line has been served, and whether it is to be. -/
def IrqSystem.tally (s : IrqSystem) (l : Line) : ℕ :=
  s.vectors.count (lineVector l) + if s.pics.Pending l then 1 else 0

end Pros
