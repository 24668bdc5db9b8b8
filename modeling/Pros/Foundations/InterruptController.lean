import Mathlib.Data.BitVec
import Mathlib.Data.Finset.Max
import Mathlib.Data.Fintype.Basic

/-!
# Cascaded interrupt controllers

Two 8259A controllers as a PC has them: eight lines each, the second one behind line 2 of the first. What the
processor writes to their ports changes the control part of a controller only (`Controls.outb`), except that a
controller forgets its requests when it is initialised; what the devices do changes the requests only.

In the control part that matters is which lines are in service. A line is served when no line of the same or a higher
priority is; an end of interrupt takes the one of the highest priority out of service (`endOfInterrupt_acknowledge`).
-/

namespace PIC

/-- What the next byte at the second port of a controller is. -/
inductive Phase where
  | icw2
  | icw3
  | icw4
  | operating
deriving DecidableEq

/-- A controller, less its requests. -/
structure Control where
  phase : Phase
  /-- Initialisation has a fourth byte. -/
  needsIcw4 : Bool
  /-- There is no other controller, and no third byte. -/
  single : Bool
  /-- The vector of line 0. -/
  base : BitVec 8
  /-- Where the other controller is: a mask of lines, or a line. -/
  wiring : BitVec 8
  mode : BitVec 8
  /-- The lines that are masked. -/
  imr : BitVec 8
  /-- The lines in service. -/
  isr : Finset (Fin 8)
deriving DecidableEq

namespace Control

/-- The line of the highest priority in a set, which is the lowest one. -/
def highest (lines : Finset (Fin 8)) : Option (Fin 8) := if h : lines.Nonempty then some (lines.min' h) else none

/-- The end of an interrupt that does not say which. -/
def endOfInterrupt (c : Control) : Control :=
  match highest c.isr with
  | none => c
  | some i => { c with isr := c.isr.erase i }

/-- A byte for the first port. -/
def command (c : Control) (data : BitVec 8) : Control :=
  if data.getLsbD 4 then
    { c with
      phase := .icw2
      needsIcw4 := data.getLsbD 0
      single := data.getLsbD 1
      mode := 0
      imr := 0
      isr := ∅ }
  else if data.getLsbD 3 then c
  else if data.extractLsb' 5 3 = 1 then c.endOfInterrupt
  else if data.extractLsb' 5 3 = 3 then { c with isr := c.isr.erase ⟨(data.extractLsb' 0 3).toNat, by omega⟩ }
  else c

/-- The phase behind the third byte of the initialisation. -/
def lastPhase (c : Control) : Phase := if c.needsIcw4 then .icw4 else .operating

/-- A byte for the second port. -/
def data (c : Control) (data : BitVec 8) : Control :=
  match c.phase with
  | .icw2 => { c with base := data &&& 0xF8, phase := if c.single then c.lastPhase else .icw3 }
  | .icw3 => { c with wiring := data, phase := c.lastPhase }
  | .icw4 => { c with mode := data, phase := .operating }
  | .operating => { c with imr := data }

/-- A request can be served: it is not masked, and no line of the same or a higher priority is in service. -/
def CanServe (c : Control) (i : Fin 8) : Prop := c.imr.getLsbD i = false ∧ ∀ j ∈ c.isr, i < j

instance (c : Control) (i : Fin 8) : Decidable (c.CanServe i) := inferInstanceAs (Decidable (_ ∧ _))

/-- The line that is served next. -/
def next (c : Control) (requests : Finset (Fin 8)) : Option (Fin 8) := highest (requests.filter c.CanServe)

/-- The processor has asked for the line. It is in service from now on, unless interrupts end by themselves. -/
def acknowledge (c : Control) (i : Fin 8) : Control :=
  if c.mode.getLsbD 1 then c else { c with isr := insert i c.isr }

/-- The vector of a line. -/
def vector (c : Control) (i : Fin 8) : BitVec 8 := c.base + BitVec.ofNat 8 i

end Control

/-- The control parts of both controllers. -/
structure Controls where
  master : Control
  slave : Control
deriving DecidableEq

/-- A byte for one of the ports. -/
def Controls.outb (c : Controls) (port : BitVec 16) (data : BitVec 8) : Controls :=
  if port = 0x20 then { c with master := c.master.command data }
  else if port = 0x21 then { c with master := c.master.data data }
  else if port = 0xA0 then { c with slave := c.slave.command data }
  else if port = 0xA1 then { c with slave := c.slave.data data }
  else c

/-- The line of the master that the slave is on. -/
abbrev slaveLine : Fin 8 := 2

/-- A line of one of the controllers. On `slaveLine` of the master a request is noise. -/
inductive Line where
  | master (i : Fin 8)
  | slave (i : Fin 8)
deriving DecidableEq

structure Pair where
  controls : Controls
  /-- The requests of the devices. -/
  masterIrr : Finset (Fin 8)
  slaveIrr : Finset (Fin 8)

namespace Pair

/-- A byte for one of the ports. The first byte of an initialisation has bit 4. -/
def outb (p : Pair) (port : BitVec 16) (data : BitVec 8) : Pair where
  controls := p.controls.outb port data
  masterIrr := if port = 0x20 ∧ data.getLsbD 4 then ∅ else p.masterIrr
  slaveIrr := if port = 0xA0 ∧ data.getLsbD 4 then ∅ else p.slaveIrr

def Pending (p : Pair) : Line → Prop
  | .master i => i ∈ p.masterIrr
  | .slave i => i ∈ p.slaveIrr

instance (p : Pair) (l : Line) : Decidable (p.Pending l) := by
  cases l <;> unfold Pending <;> infer_instance

def request (p : Pair) : Line → Pair
  | .master i => { p with masterIrr := insert i p.masterIrr }
  | .slave i => { p with slaveIrr := insert i p.slaveIrr }

/-- A device takes its request back. -/
def withdraw (p : Pair) : Line → Pair
  | .master i => { p with masterIrr := p.masterIrr.erase i }
  | .slave i => { p with slaveIrr := p.slaveIrr.erase i }

/-- The requests that the master sees. -/
def masterRequests (p : Pair) : Finset (Fin 8) :=
  if (p.controls.slave.next p.slaveIrr).isSome then insert slaveLine p.masterIrr else p.masterIrr

/-- The slave is behind the line. -/
def Cascades (c : Controls) (i : Fin 8) : Prop :=
  c.master.wiring.getLsbD i = true ∧ c.slave.wiring = BitVec.ofNat 8 i

instance (c : Controls) (i : Fin 8) : Decidable (Cascades c i) := inferInstanceAs (Decidable (_ ∧ _))

/-- The processor asks for a vector. A controller that has nothing to serve gives the vector of its last line. -/
def acknowledge (p : Pair) : BitVec 8 × Pair :=
  match p.controls.master.next p.masterRequests with
  | none => (p.controls.master.vector 7, p)
  | some i =>
    let p' := { p with
      controls := { p.controls with master := p.controls.master.acknowledge i }
      masterIrr := p.masterIrr.erase i }
    if Cascades p.controls i then
      match p.controls.slave.next p.slaveIrr with
      | none => (p.controls.slave.vector 7, p')
      | some j => (p.controls.slave.vector j,
          { p' with
            controls := { p'.controls with slave := p.controls.slave.acknowledge j }
            slaveIrr := p.slaveIrr.erase j })
    else (p.controls.master.vector i, p')

end Pair

/-! ## Service -/

namespace Control

variable {c : Control} {lines requests : Finset (Fin 8)} {i j : Fin 8}

theorem highest_eq_none : highest lines = none ↔ lines = ∅ := by
  unfold highest
  split_ifs with h
  · exact ⟨fun hnone => absurd hnone (by simp), fun hempty => absurd hempty h.ne_empty⟩
  · exact ⟨fun _ => Finset.not_nonempty_iff_eq_empty.mp h, fun _ => rfl⟩

theorem highest_eq_some : highest lines = some i ↔ i ∈ lines ∧ ∀ j ∈ lines, i ≤ j := by
  unfold highest
  constructor
  · intro h
    split_ifs at h with hne
    obtain rfl := Option.some.inj h
    exact ⟨Finset.min'_mem lines hne, fun j hj => Finset.min'_le lines j hj⟩
  · rintro ⟨hi, hle⟩
    rw [dif_pos ⟨i, hi⟩]
    exact congrArg some (le_antisymm (Finset.min'_le lines i hi) (hle _ (Finset.min'_mem lines _)))

/-- With nothing in service and nothing masked, every request can be served. -/
theorem next_eq (hisr : c.isr = ∅) (himr : c.imr = 0) (requests : Finset (Fin 8)) :
    c.next requests = highest requests := by
  have hall : ∀ i ∈ requests, c.CanServe i := fun i _ => by
    refine ⟨?_, fun j hj => ?_⟩
    · rw [himr]
      exact BitVec.getLsbD_zero
    · rw [hisr] at hj
      exact absurd hj (Finset.notMem_empty j)
  rw [next, Finset.filter_true_of_mem hall]

/-- The end of an interrupt when nothing is in service. -/
theorem endOfInterrupt_of_isr (hisr : c.isr = ∅) : c.endOfInterrupt = c := by
  unfold endOfInterrupt
  rw [highest_eq_none.mpr hisr]

/-- The end of an interrupt undoes its acknowledgement, if nothing else is in service. -/
theorem endOfInterrupt_acknowledge (hisr : c.isr = ∅) (hmode : c.mode.getLsbD 1 = false) (i : Fin 8) :
    (c.acknowledge i).endOfInterrupt = c := by
  have hack : c.acknowledge i = { c with isr := {i} } := by
    rw [acknowledge, hmode, hisr]
    rfl
  have hhigh : highest {i} = some i :=
    highest_eq_some.mpr ⟨Finset.mem_singleton_self i, fun j hj => (Finset.mem_singleton.mp hj).ge⟩
  rw [hack, endOfInterrupt]
  simp only [hhigh, Finset.erase_singleton]
  rw [← hisr]

/-- The command 0x20. -/
theorem command_endOfInterrupt (c : Control) : c.command 0x20 = c.endOfInterrupt := by
  unfold command
  rw [if_neg (by decide), if_neg (by decide), if_pos (by decide)]

end Control

end PIC
