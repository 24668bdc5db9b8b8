import Pros.Foundations.X86

/-!
# A 32-bit processor that turns paging on

The processor as start-up code meets it: in protected mode with flat segments and interrupts off, it fetches the
bytes of its instructions from memory, at first directly and then through page tables. It may look up translations
at any time and keep them (`Event`), and it drops them only where it has to.

Nothing is translated with PAE on. Marks that the processor leaves in the tables (accessed, dirty) are not modelled.
-/

namespace Ia32

open X86 (Reg)

/-- The control registers. -/
inductive CReg where
  | cr0
  | cr3
  | cr4
deriving DecidableEq

/-- What an address is translated to. -/
structure Mapping where
  place : BitVec 32
  write : Bool
  /-- The page has `2 ^ bits` bytes. -/
  bits : ℕ

structure Machine where
  reg : Reg → BitVec 32
  eip : BitVec 32
  eflags : BitVec 32
  cr : CReg → BitVec 32
  /-- The translations that are cached. -/
  tlb : BitVec 32 → Option Mapping
  mem : Memory (BitVec 32)

namespace Machine

variable (s : Machine)

def setReg (r : Reg) (v : BitVec 32) : Machine := { s with reg := Function.update s.reg r v }

/-! The bits of the control registers that matter here. -/

def writeProtect : Bool := (s.cr .cr0).getLsbD 16
def paging : Bool := (s.cr .cr0).getLsbD 31
def bigPages : Bool := (s.cr .cr4).getLsbD 4
def pae : Bool := (s.cr .cr4).getLsbD 5
def globalPages : Bool := (s.cr .cr4).getLsbD 7

/-! ## Memory -/

/-- The directory's entry for an address. -/
def directoryEntry (a : BitVec 32) : BitVec 32 :=
  s.mem.load32 ((s.cr .cr3 &&& (0xFFFFF000 : BitVec 32)) + (4 : BitVec 32) * (a >>> 22))

/-- The entry for an address in the page table that an entry of the directory names. -/
def tableEntry (pde a : BitVec 32) : BitVec 32 :=
  s.mem.load32 ((pde &&& (0xFFFFF000 : BitVec 32)) + (4 : BitVec 32) * ((a >>> 12) &&& 0x3FF))

/-- What the tables in memory say of an address. -/
def walk (a : BitVec 32) : Option Mapping :=
  let pde := s.directoryEntry a
  if s.pae || !pde.getLsbD 0 then none
  else if s.bigPages && pde.getLsbD 7 then
    some ⟨(pde &&& 0xFFC00000) + (a &&& 0x3FFFFF), pde.getLsbD 1, 22⟩
  else
    let pte := s.tableEntry pde a
    if !pte.getLsbD 0 then none
    else some ⟨(pte &&& 0xFFFFF000) + (a &&& 0xFFF), pde.getLsbD 1 && pte.getLsbD 1, 12⟩

/-- The translation that is used. There is none at a page fault. -/
def translate (a : BitVec 32) : Option Mapping :=
  if s.paging then (s.tlb a).or (s.walk a) else some ⟨a, true, 32⟩

/-- Where a load of the byte at `a` goes. -/
def readPlace (a : BitVec 32) : Option (BitVec 32) := (s.translate a).map Mapping.place

/-- Where a store goes. Pages that are not writable stop it only with write protection on. -/
def writePlace (a : BitVec 32) : Option (BitVec 32) :=
  (s.translate a).bind fun μ => if μ.write || !s.writeProtect then some μ.place else none

def load8 (a : BitVec 32) : Option (BitVec 8) := (s.readPlace a).map s.mem.byte

def load32 (a : BitVec 32) : Option (BitVec 32) := do
  return (← s.load8 (a + (3 : ℕ))) ++ (← s.load8 (a + (2 : ℕ))) ++ (← s.load8 (a + (1 : ℕ))) ++
    (← s.load8 (a + (0 : ℕ)))

/-- The bytes are stored when each of them has a place. -/
def store32 (a v : BitVec 32) : Option Machine := do
  let x₀ ← s.writePlace (a + (0 : ℕ))
  let x₁ ← s.writePlace (a + (1 : ℕ))
  let x₂ ← s.writePlace (a + (2 : ℕ))
  let x₃ ← s.writePlace (a + (3 : ℕ))
  let mem := s.mem.store8 x₀ (v.extractLsb' 0 8)
  let mem := mem.store8 x₁ (v.extractLsb' 8 8)
  let mem := mem.store8 x₂ (v.extractLsb' 16 8)
  return { s with mem := mem.store8 x₃ (v.extractLsb' 24 8) }

def push (v : BitVec 32) : Option Machine :=
  (s.setReg .esp (s.reg .esp - 4)).store32 (s.reg .esp - 4) v

end Machine

/-! ## Instructions -/

inductive Instr where
  | mov (r : Reg) (v : BitVec 32)
  | movToCr (c : CReg) (r : Reg)
  | movFromCr (r : Reg) (c : CReg)
  | or (r : Reg) (v : BitVec 32)
  | lea (r : Reg) (a : BitVec 32)
  /-- `mov` of a constant to memory. -/
  | store (a v : BitVec 32)
  | invlpg (a : BitVec 32)
  | push (r : Reg)
  | jmpReg (r : Reg)
  | jmp (a : BitVec 32)
  | call (a : BitVec 32)
  | cli
  | hlt
deriving DecidableEq

/-- The flags after `or`, which leaves the adjust flag undefined. -/
def orFlags (eflags v : BitVec 32) : BitVec 32 :=
  let flag (bit : ℕ) (c : Bool) : BitVec 32 := if c then 1#32 <<< bit else 0
  (eflags &&& ~~~0x8D5) ||| flag 7 v.msb ||| flag 6 (v == 0) |||
    flag 2 ((List.range 8).countP (fun i => v.getLsbD i) % 2 == 0)

/-- The interrupt flag stays. -/
theorem getLsbD_orFlags_nine (eflags v : BitVec 32) : (orFlags eflags v).getLsbD 9 = eflags.getLsbD 9 := by
  have hmask : (~~~0x8D5 : BitVec 32).getLsbD 9 = true := by decide
  simp only [orFlags, BitVec.getLsbD_or, BitVec.getLsbD_and, hmask, Bool.and_true]
  split_ifs <;> simp

/-- Assign to a control register. Paging needs protection, and `cr3` drops what is cached of pages that are not
    global. -/
def Machine.setCr (s : Machine) (c : CReg) (v : BitVec 32) : Option Machine :=
  let s' := { s with cr := Function.update s.cr c v }
  match c with
  | .cr0 => if v.getLsbD 31 && !v.getLsbD 0 then none else some s'
  | .cr3 => some { s' with tlb := if s.globalPages then s.tlb else fun _ => none }
  | .cr4 => some s'

/-- Drop what is cached of the page that an address is on. -/
def Machine.invalidate (s : Machine) (a : BitVec 32) : Machine :=
  { s with tlb := fun x => (s.tlb x).filter fun μ => x >>> μ.bits != a >>> μ.bits }

/-- An instruction, with `eip` at the next one already. -/
def Instr.exec : Instr → Machine → Option Machine
  | .mov r v, s => some (s.setReg r v)
  | .movToCr c r, s => s.setCr c (s.reg r)
  | .movFromCr r c, s => some (s.setReg r (s.cr c))
  | .or r v, s => some { s.setReg r (s.reg r ||| v) with eflags := orFlags s.eflags (s.reg r ||| v) }
  | .lea r a, s => some (s.setReg r a)
  | .store a v, s => s.store32 a v
  | .invlpg a, s => some (s.invalidate a)
  | .push r, s => s.push (s.reg r)
  | .jmpReg r, s => some { s with eip := s.reg r }
  | .jmp a, s => some { s with eip := a }
  | .call a, s => (s.push s.eip).map fun s => { s with eip := a }
  | .cli, s => some { s with eflags := s.eflags &&& ~~~X86.interruptFlag }
  -- only what is not modelled ends it
  | .hlt, s => some s

/-! ## Machine code -/

def regOf (n : BitVec 8) : Reg :=
  match n.toNat % 8 with
  | 0 => .eax
  | 1 => .ecx
  | 2 => .edx
  | 3 => .ebx
  | 4 => .esp
  | 5 => .ebp
  | 6 => .esi
  | _ => .edi

def cregOf (n : BitVec 8) : Option CReg :=
  match n.toNat % 8 with
  | 0 => some .cr0
  | 3 => some .cr3
  | 4 => some .cr4
  | _ => none

section Decode

-- the bytes from the one that `eip` is at
variable (fetch : ℕ → Option (BitVec 8))

/-- A word in the code, least significant byte first. -/
def imm32 (j : ℕ) : Option (BitVec 32) := do
  return (← fetch (j + 3)) ++ (← fetch (j + 2)) ++ (← fetch (j + 1)) ++ (← fetch j)

/-- A byte in the code, with its sign. -/
def imm8 (j : ℕ) : Option (BitVec 32) := (fetch j).map fun b => b.signExtend 32

/-- The instructions of one opcode byte that is followed by `modrm`. -/
def decodeModrm (op modrm : BitVec 8) : Option (Instr × ℕ) :=
  if op = 0x83 ∧ modrm &&& 0xF8 = 0xC8 then (imm8 fetch 2).map fun v => (.or (regOf modrm) v, 3)
  else if op = 0x81 ∧ modrm &&& 0xF8 = 0xC8 then (imm32 fetch 2).map fun v => (.or (regOf modrm) v, 6)
  else if op = 0xFF ∧ modrm &&& 0xF8 = 0xE0 then some (.jmpReg (regOf modrm), 2)
  else if op = 0x8D ∧ modrm &&& 0xC7 = 0x05 then (imm32 fetch 2).map fun a => (.lea (regOf (modrm >>> 3)) a, 6)
  else if op = 0xC7 ∧ modrm = 0x05 then
    (imm32 fetch 2).bind fun a => (imm32 fetch 6).map fun v => (.store a v, 10)
  else none

/-- The instructions of the opcode bytes `0F op`. -/
def decodeSystem (op modrm : BitVec 8) : Option (Instr × ℕ) :=
  if op = 0x20 ∧ modrm &&& 0xC0 = 0xC0 then
    (cregOf (modrm >>> 3)).map fun c => (.movFromCr (regOf modrm) c, 3)
  else if op = 0x22 ∧ modrm &&& 0xC0 = 0xC0 then
    (cregOf (modrm >>> 3)).map fun c => (.movToCr c (regOf modrm), 3)
  else if op = 0x01 ∧ modrm = 0x3D then (imm32 fetch 3).map fun a => (.invlpg a, 7)
  else none

/-- The instructions that do not depend on where they stand, by their first byte. -/
def decodeFixed (op : BitVec 8) : Option (Instr × ℕ) :=
  if op &&& 0xF8 = 0xB8 then (imm32 fetch 1).map fun v => (.mov (regOf op) v, 5)
  else if op &&& 0xF8 = 0x50 then some (.push (regOf op), 1)
  else if op = 0xFA then some (.cli, 1)
  else if op = 0xF4 then some (.hlt, 1)
  else (fetch 1).bind fun modrm =>
    if op = 0x0F then (fetch 2).bind fun modrm' => decodeSystem fetch modrm modrm'
    else decodeModrm fetch op modrm

/-- The instruction at `eip` and its number of bytes. Jumps and calls are encoded by their distance. -/
def decode (eip : BitVec 32) : Option (Instr × ℕ) :=
  (fetch 0).bind fun op =>
    if op = 0xEB then (imm8 fetch 1).map fun d => (.jmp (eip + 2 + d), 2)
    else if op = 0xE9 then (imm32 fetch 1).map fun d => (.jmp (eip + 5 + d), 5)
    else if op = 0xE8 then (imm32 fetch 1).map fun d => (.call (eip + 5 + d), 5)
    else decodeFixed fetch op

end Decode

/-- The bytes decode to the instruction at the address `a`, whatever follows them. -/
def Encodes (a : BitVec 32) (bytes : List (BitVec 8)) (i : Instr) : Prop :=
  ∀ fetch : ℕ → Option (BitVec 8), (∀ j (h : j < bytes.length), fetch j = some (bytes.get ⟨j, h⟩)) →
    decode fetch a = some (i, bytes.length)

/-! ## Steps -/

namespace Machine

/-- One instruction. There is no next state after a page fault, or without an instruction. -/
def step (s : Machine) : Option Machine :=
  (decode (fun j => s.load8 (s.eip + (j : BitVec 32))) s.eip).bind fun (i, size) =>
    i.exec { s with eip := s.eip + (size : BitVec 32) }

/-- Look up a translation and keep it. -/
def lookup (s : Machine) (a : BitVec 32) : Machine :=
  if s.paging then { s with tlb := Function.update s.tlb a (s.walk a) } else s

/-- Lose a translation. -/
def drop (s : Machine) (a : BitVec 32) : Machine := { s with tlb := Function.update s.tlb a none }

end Machine

/-- An instruction, or what the cache does between instructions. -/
inductive Event where
  | step
  | lookup (a : BitVec 32)
  | drop (a : BitVec 32)
deriving DecidableEq

def Machine.event (s : Machine) : Event → Option Machine
  | .step => s.step
  | .lookup a => some (s.lookup a)
  | .drop a => some (s.drop a)

def Machine.after (s : Machine) (events : List Event) : Option Machine := events.foldlM Machine.event s

/-! ## Accesses with a known place -/

/-- The base of a page. -/
theorem toNat_and_page (x : BitVec 32) : (x &&& (0xFFFFF000 : BitVec 32)).toNat = x.toNat / 4096 * 4096 := by
  have hshift : x &&& (0xFFFFF000 : BitVec 32) = x >>> 12 <<< 12 := by
    apply BitVec.eq_of_getLsbD_eq
    intro i hi
    have hmask : ∀ i < 32, (0xFFFFF000 : BitVec 32).getLsbD i = decide (12 ≤ i) := by decide
    rw [BitVec.getLsbD_and, hmask i hi, BitVec.getLsbD_shiftLeft, BitVec.getLsbD_ushiftRight]
    by_cases h : 12 ≤ i
    · rw [Nat.add_sub_cancel' h]
      simp [h, hi]
    · simp [h]
  rw [hshift, BitVec.toNat_shiftLeft, BitVec.toNat_ushiftRight, Nat.shiftLeft_eq, Nat.shiftRight_eq_div_pow]
  omega

namespace Machine

variable {s : Machine} {a x : BitVec 32}

theorem reg_setReg_same (s : Machine) (r : Reg) (v : BitVec 32) : (s.setReg r v).reg r = v := by
  simp only [setReg, Function.update_self]

theorem reg_setReg_of_ne (s : Machine) {r r' : Reg} (v : BitVec 32) (h : r' ≠ r) : (s.setReg r v).reg r' = s.reg r' := by
  simp only [setReg, Function.update_of_ne h]

/-- The byte at `a` is at `x`, and may be stored to. -/
def Reaches (s : Machine) (a x : BitVec 32) : Prop :=
  ∃ μ, s.translate a = some μ ∧ μ.place = x ∧ μ.write = true

theorem Reaches.load8 (h : s.Reaches a x) : s.load8 a = some (s.mem.byte x) := by
  obtain ⟨μ, hμ, rfl, -⟩ := h
  rw [Machine.load8, readPlace, hμ, Option.map_some, Option.map_some]

theorem Reaches.writePlace (h : s.Reaches a x) : s.writePlace a = some x := by
  obtain ⟨μ, hμ, rfl, hw⟩ := h
  rw [Machine.writePlace, hμ, Option.bind_some, hw, Bool.true_or, if_pos rfl]

/-- The general registers and the flags do not take part in the translation. -/
theorem translate_congr {t : Machine} (hcr : t.cr = s.cr) (htlb : t.tlb = s.tlb) (hmem : t.mem = s.mem) :
    t.translate = s.translate := by
  cases s
  cases t
  subst hcr htlb hmem
  rfl

theorem Reaches.congr {t : Machine} (h : s.Reaches a x) (hcr : t.cr = s.cr) (htlb : t.tlb = s.tlb)
    (hmem : t.mem = s.mem) : t.Reaches a x := by
  rw [Reaches, translate_congr hcr htlb hmem]
  exact h

theorem load32_of_reaches (h : ∀ i : ℕ, i < 4 → s.Reaches (a + (i : BitVec 32)) (x + (i : BitVec 32))) :
    s.load32 a = some (s.mem.load32 x) := by
  rw [load32, (h 3 (by omega)).load8, (h 2 (by omega)).load8, (h 1 (by omega)).load8, (h 0 (by omega)).load8]
  rfl

theorem store32_of_reaches (h : ∀ i : ℕ, i < 4 → s.Reaches (a + (i : BitVec 32)) (x + (i : BitVec 32)))
    (v : BitVec 32) : s.store32 a v = some { s with mem := s.mem.store32 x v } := by
  rw [store32, (h 0 (by omega)).writePlace, (h 1 (by omega)).writePlace, (h 2 (by omega)).writePlace,
    (h 3 (by omega)).writePlace]
  rfl

theorem push_of_reaches (h : ∀ i : ℕ, i < 4 → s.Reaches (s.reg .esp - 4 + (i : BitVec 32)) (x + (i : BitVec 32)))
    (v : BitVec 32) :
    s.push v = some { s.setReg .esp (s.reg .esp - 4) with mem := s.mem.store32 x v } := by
  have hmoved : ∀ i : ℕ, i < 4 →
      (s.setReg .esp (s.reg .esp - 4)).Reaches (s.reg .esp - 4 + (i : BitVec 32)) (x + (i : BitVec 32)) :=
    fun i hi => (h i hi).congr rfl rfl rfl
  exact store32_of_reaches hmoved v

/-- A step executes the instruction that the bytes at `eip` decode to. -/
theorem step_of_encodes {bytes : List (BitVec 8)} {i : Instr} (hi : Encodes s.eip bytes i)
    (hload : ∀ j (h : j < bytes.length), s.load8 (s.eip + (j : BitVec 32)) = some (bytes.get ⟨j, h⟩)) :
    s.step = i.exec { s with eip := s.eip + ((bytes.length : ℕ) : BitVec 32) } := by
  rw [step, hi _ hload, Option.bind_some]

end Machine

/-! ## Runs -/

/-- What each instruction leads to, and the cache keeps, holds after any order of events. -/
theorem Machine.after_of_step {P : ℕ → Machine → Prop} {n : ℕ}
    (hstep : ∀ k s, k < n → P k s → ∃ t, s.step = some t ∧ P (k + 1) t)
    (hlookup : ∀ k s a, P k s → P k (s.lookup a)) (hdrop : ∀ k s a, P k s → P k (s.drop a)) {k : ℕ} {s : Machine}
    (h : P k s) (events : List Event) (hcount : k + events.count .step ≤ n) :
    ∃ t, s.after events = some t ∧ P (k + events.count .step) t := by
  induction events generalizing s k with
  | nil => exact ⟨s, rfl, h⟩
  | cons e events ih =>
    cases e with
    | step =>
      rw [List.count_cons_self] at hcount
      obtain ⟨t, ht, hnext⟩ := hstep k s (by omega) h
      obtain ⟨u, hu, hlast⟩ := ih hnext (by omega)
      refine ⟨u, ?_, ?_⟩
      · rw [Machine.after, List.foldlM_cons, Machine.event, ht]
        exact hu
      · rw [List.count_cons_self, ← add_assoc, add_right_comm]
        exact hlast
    | lookup a =>
      rw [List.count_cons_of_ne (by simp)] at hcount ⊢
      exact ih (hlookup k s a h) hcount
    | drop a =>
      rw [List.count_cons_of_ne (by simp)] at hcount ⊢
      exact ih (hdrop k s a h) hcount

/-- What holds of every cached translation, and of those that are looked up, holds of the ones cached later. -/
theorem Machine.tlb_lookup {s : Machine} {M : BitVec 32 → Mapping → Prop} (h : ∀ a μ, s.tlb a = some μ → M a μ)
    {b : BitVec 32} (hwalk : s.paging = true → ∀ μ, s.walk b = some μ → M b μ) :
    ∀ a μ, (s.lookup b).tlb a = some μ → M a μ := by
  intro a μ hμ
  rw [lookup] at hμ
  split_ifs at hμ with hp
  · replace hμ : Function.update s.tlb b (s.walk b) a = some μ := hμ
    by_cases hab : a = b
    · subst hab
      rw [Function.update_self] at hμ
      exact hwalk hp μ hμ
    · rw [Function.update_of_ne hab] at hμ
      exact h a μ hμ
  · exact h a μ hμ

theorem Machine.tlb_drop {s : Machine} {M : BitVec 32 → Mapping → Prop} (h : ∀ a μ, s.tlb a = some μ → M a μ)
    (b : BitVec 32) : ∀ a μ, (s.drop b).tlb a = some μ → M a μ := by
  intro a μ (hμ : Function.update s.tlb b none a = some μ)
  by_cases hab : a = b
  · subst hab
    rw [Function.update_self] at hμ
    cases hμ
  · rw [Function.update_of_ne hab] at hμ
    exact h a μ hμ

/-- Only the cache changes. -/
theorem Machine.lookup_eq (s : Machine) (a : BitVec 32) : s.lookup a = { s with tlb := (s.lookup a).tlb } := by
  rw [lookup]
  split_ifs <;> rfl

/-! ## Where code stands -/

section Decode

variable {f g : ℕ → Option (BitVec 8)}

theorem imm32_mono (h : ∀ j b, f j = some b → g j = some b) {j : ℕ} {v : BitVec 32} (hv : imm32 f j = some v) :
    imm32 g j = some v := by
  obtain ⟨b₃, h₃, hv⟩ := Option.bind_eq_some_iff.mp hv
  obtain ⟨b₂, h₂, hv⟩ := Option.bind_eq_some_iff.mp hv
  obtain ⟨b₁, h₁, hv⟩ := Option.bind_eq_some_iff.mp hv
  obtain ⟨b₀, h₀, hv⟩ := Option.bind_eq_some_iff.mp hv
  rw [imm32, h _ _ h₃, h _ _ h₂, h _ _ h₁, h _ _ h₀]
  exact hv

theorem imm8_mono (h : ∀ j b, f j = some b → g j = some b) {j : ℕ} {v : BitVec 32} (hv : imm8 f j = some v) :
    imm8 g j = some v := by
  obtain ⟨b, hb, hv⟩ := Option.map_eq_some_iff.mp hv
  rw [imm8, h _ _ hb, Option.map_some, hv]

/-- An option that is defined in more cases. -/
theorem map_mono {α β : Type} {x y : Option α} (h : ∀ a, x = some a → y = some a) (k : α → β) {b : β}
    (hb : x.map k = some b) : y.map k = some b := by
  obtain ⟨a, ha, hb⟩ := Option.map_eq_some_iff.mp hb
  rw [h a ha, Option.map_some, hb]

theorem bind_mono {α β : Type} {x y : Option α} (h : ∀ a, x = some a → y = some a) {k l : α → Option β} {b : β}
    (hkl : ∀ a, k a = some b → l a = some b) (hb : x.bind k = some b) : y.bind l = some b := by
  obtain ⟨a, ha, hb⟩ := Option.bind_eq_some_iff.mp hb
  rw [h a ha, Option.bind_some, hkl a hb]

theorem decodeModrm_mono (h : ∀ j b, f j = some b → g j = some b) {op modrm : BitVec 8} {r : Instr × ℕ}
    (hr : decodeModrm f op modrm = some r) : decodeModrm g op modrm = some r := by
  unfold decodeModrm at hr ⊢
  split_ifs at hr ⊢
  · exact map_mono (fun _ => imm8_mono h) _ hr
  · exact map_mono (fun _ => imm32_mono h) _ hr
  · exact hr
  · exact map_mono (fun _ => imm32_mono h) _ hr
  · exact bind_mono (fun _ => imm32_mono h) (fun _ => map_mono (fun _ => imm32_mono h) _) hr

theorem decodeSystem_mono (h : ∀ j b, f j = some b → g j = some b) {op modrm : BitVec 8} {r : Instr × ℕ}
    (hr : decodeSystem f op modrm = some r) : decodeSystem g op modrm = some r := by
  unfold decodeSystem at hr ⊢
  split_ifs at hr ⊢
  · exact hr
  · exact hr
  · exact map_mono (fun _ => imm32_mono h) _ hr

theorem decodeFixed_mono (h : ∀ j b, f j = some b → g j = some b) {op : BitVec 8} {r : Instr × ℕ}
    (hr : decodeFixed f op = some r) : decodeFixed g op = some r := by
  unfold decodeFixed at hr ⊢
  split_ifs at hr ⊢
  · exact map_mono (fun _ => imm32_mono h) _ hr
  · exact hr
  · exact hr
  · exact hr
  · exact bind_mono (h 1) (fun _ => bind_mono (h 2) fun _ => decodeSystem_mono h) hr
  · exact bind_mono (h 1) (fun _ => decodeModrm_mono h) hr

theorem decode_mono (h : ∀ j b, f j = some b → g j = some b) {a : BitVec 32} {r : Instr × ℕ}
    (hr : decode f a = some r) : decode g a = some r := by
  refine bind_mono (h 0) (fun op hop => ?_) hr
  split_ifs at hop ⊢
  · exact map_mono (fun _ => imm8_mono h) _ hop
  · exact map_mono (fun _ => imm32_mono h) _ hop
  · exact map_mono (fun _ => imm32_mono h) _ hop
  · exact decodeFixed_mono h hop

end Decode

/-- The decoder reads the bytes of the instruction only. -/
theorem encodes_of_decode {a : BitVec 32} {bytes : List (BitVec 8)} {i : Instr}
    (h : decode (fun j => bytes[j]?) a = some (i, bytes.length)) : Encodes a bytes i := by
  intro fetch hfetch
  refine decode_mono (fun j b hb => ?_) h
  obtain ⟨hj, rfl⟩ := List.getElem?_eq_some_iff.mp hb
  exact hfetch j hj

/-- The instructions whose encoding depends on where they stand. -/
def Instr.relative : Instr → Bool
  | .jmp _ => true
  | .call _ => true
  | _ => false

/-- All other code may stand anywhere. -/
theorem Encodes.move {a b : BitVec 32} {bytes : List (BitVec 8)} {i : Instr} (h : Encodes a bytes i)
    (hi : i.relative = false) : Encodes b bytes i := by
  intro fetch hfetch
  have hdecode := h fetch hfetch
  unfold decode at hdecode ⊢
  cases hop : fetch 0 with
  | none =>
    rw [hop] at hdecode
    cases hdecode
  | some op =>
    rw [hop, Option.bind_some] at hdecode
    rw [Option.bind_some]
    split_ifs at hdecode ⊢
    iterate 3
      obtain ⟨d, -, hd⟩ := Option.map_eq_some_iff.mp hdecode
      obtain ⟨rfl, -⟩ := Prod.mk.inj hd
      cases hi
    exact hdecode

end Ia32
