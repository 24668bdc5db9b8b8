import Pros.Foundations.Memory

/-!
# The stack of a 32-bit processor

The instructions of the 32-bit x86 with which code saves and restores the registers of a program that it
interrupts. Segments are flat, so an offset is an address. The code is straight, so `eip` does not follow it: an
interrupt sets it, and `iret` sets it back.

`Stacked s n ws t` says what has become of the stack of `s` when `t` is reached: the words `ws` stand on it, and
memory has changed in the `n` bytes below it only. It is kept by pushes and pops, and by calls of functions.
-/

namespace X86

/-- The general registers. -/
inductive Reg where
  | eax
  | ecx
  | edx
  | ebx
  | esp
  | ebp
  | esi
  | edi
deriving DecidableEq

/-- The segment registers. -/
inductive SReg where
  | es
  | cs
  | ss
  | ds
  | fs
  | gs
deriving DecidableEq

structure Cpu where
  reg : Reg → BitVec 32
  sreg : SReg → BitVec 16
  eip : BitVec 32
  eflags : BitVec 32
  mem : Memory (BitVec 32)

/-- The interrupt flag, bit 9 of `eflags`. -/
def interruptFlag : BitVec 32 := 0x200

/-- What an interrupt gate clears: the trap, interrupt, nested task, resume and virtual mode flags. -/
def gateFlags : BitVec 32 := 0x34300

namespace Cpu

def setReg (s : Cpu) (r : Reg) (v : BitVec 32) : Cpu := { s with reg := Function.update s.reg r v }

def setSReg (s : Cpu) (r : SReg) (v : BitVec 16) : Cpu := { s with sreg := Function.update s.sreg r v }

/-- The word on top of the stack. -/
def top (s : Cpu) : BitVec 32 := s.mem.load32 (s.reg .esp)

/-- Take the word on top off the stack. -/
def drop (s : Cpu) : Cpu := s.setReg .esp (s.reg .esp + 4)

def push (s : Cpu) (v : BitVec 32) : Cpu :=
  { s.setReg .esp (s.reg .esp - 4) with mem := s.mem.store32 (s.reg .esp - 4) v }

def pop (s : Cpu) (r : Reg) : Cpu := s.drop.setReg r s.top

end Cpu

/-- The status flags after an addition: overflow, sign, zero, adjust, parity and carry. -/
def addFlags (eflags a b : BitVec 32) : BitVec 32 :=
  let sum := a + b
  let flag (bit : ℕ) (c : Bool) : BitVec 32 := if c then 1#32 <<< bit else 0
  (eflags &&& ~~~0x8D5) ||| flag 11 (BitVec.saddOverflow a b) ||| flag 7 sum.msb ||| flag 6 (sum == 0) |||
    flag 4 (decide (16 ≤ a.toNat % 16 + b.toNat % 16)) |||
    flag 2 ((List.range 8).countP (fun i => sum.getLsbD i) % 2 == 0) ||| flag 0 (BitVec.uaddOverflow a b)

inductive Instr where
  | cli
  | sti
  /-- `push byte v`, which extends the sign. -/
  | pushByte (v : BitVec 8)
  | push (r : Reg)
  | pop (r : Reg)
  | pusha
  | popa
  /-- `mov` from a segment register to the lower half of a register. -/
  | movFromSeg (r : Reg) (sr : SReg)
  /-- `mov` from the lower half of a register to a segment register. -/
  | movToSeg (sr : SReg) (r : Reg)
  /-- `mov` of a constant to the lower half of a register. -/
  | movLow (r : Reg) (v : BitVec 16)
  | add (r : Reg) (v : BitVec 32)
  | iret

/-- Assign to the lower half of a register. -/
def Cpu.setLow (s : Cpu) (r : Reg) (v : BitVec 16) : Cpu := s.setReg r ((s.reg r).extractLsb' 16 16 ++ v)

def Instr.exec : Instr → Cpu → Cpu
  | .cli, s => { s with eflags := s.eflags &&& ~~~interruptFlag }
  | .sti, s => { s with eflags := s.eflags ||| interruptFlag }
  | .pushByte v, s => s.push (v.signExtend 32)
  | .push r, s => s.push (s.reg r)
  | .pop r, s => s.pop r
  | .pusha, s =>
    -- the stack pointer that is pushed is the one from before
    let esp := s.reg .esp
    let s := (((s.push (s.reg .eax)).push (s.reg .ecx)).push (s.reg .edx)).push (s.reg .ebx)
    (((s.push esp).push (s.reg .ebp)).push (s.reg .esi)).push (s.reg .edi)
  | .popa, s =>
    -- the stack pointer is not popped
    let s := (((s.pop .edi).pop .esi).pop .ebp).drop
    (((s.pop .ebx).pop .edx).pop .ecx).pop .eax
  | .movFromSeg r sr, s => s.setLow r (s.sreg sr)
  | .movToSeg sr r, s => s.setSReg sr ((s.reg r).setWidth 16)
  | .movLow r v, s => s.setLow r v
  | .add r v, s => { s.setReg r (s.reg r + v) with eflags := addFlags s.eflags (s.reg r) v }
  | .iret, s =>
    let s' := s.drop
    let s'' := s'.drop
    { s''.drop.setSReg .cs (s'.top.setWidth 16) with eip := s.top, eflags := s''.top }

/-- Instructions one after the other. -/
def run (code : List Instr) (s : Cpu) : Cpu := code.foldl (fun s i => i.exec s) s

/-- An interrupt through a gate of the ring that the processor is in. Some exceptions push an error code. -/
def Cpu.interrupt (s : Cpu) (selector : BitVec 16) (offset : BitVec 32) (error : Option (BitVec 32)) : Cpu :=
  let s' := ((s.push s.eflags).push ((s.sreg .cs).setWidth 32)).push s.eip
  let s' := match error with
    | none => s'
    | some e => s'.push e
  { s'.setSReg .cs selector with eip := offset, eflags := s.eflags &&& ~~~gateFlags }

/-! ## Stacks -/

/-- The words of a list stand one after the other from `a` on. -/
def HasWords (m : Memory (BitVec 32)) : (a : BitVec 32) → List (BitVec 32) → Prop
  | _, [] => True
  | a, w :: ws => m.load32 a = w ∧ HasWords m (a + 4) ws

/-- One of the `n` bytes below `a`. -/
def Below (a : BitVec 32) (n : ℕ) (x : BitVec 32) : Prop := ∃ k : ℕ, 1 ≤ k ∧ k ≤ n ∧ x = a - (k : BitVec 32)

/-- Between two memories, bytes have changed among the `n` bytes below `a` only. -/
def SameBut (a : BitVec 32) (n : ℕ) (m m' : Memory (BitVec 32)) : Prop :=
  ∀ x, ¬ Below a n x → m'.byte x = m.byte x

/-- On the stack of `s`, the words `ws` have been pushed; memory has changed in the `n` bytes below it only. -/
structure Stacked (s : Cpu) (n : ℕ) (ws : List (BitVec 32)) (t : Cpu) : Prop where
  esp : t.reg .esp = s.reg .esp - ((4 * ws.length : ℕ) : BitVec 32)
  words : HasWords t.mem (t.reg .esp) ws
  mem : SameBut (s.reg .esp) n s.mem t.mem

/-- A C function that is called in `s` has returned in `t`: registers are as before but for three of them, and
    memory is but for the `frame` bytes below the stack pointer, which the return address is among. -/
structure Returned (frame : ℕ) (s t : Cpu) : Prop where
  reg : ∀ r, r ≠ .eax → r ≠ .ecx → r ≠ .edx → t.reg r = s.reg r
  sreg : t.sreg = s.sreg
  mem : SameBut (s.reg .esp) frame s.mem t.mem

section Words

variable {m m' : Memory (BitVec 32)} {a : BitVec 32} {ws : List (BitVec 32)}

theorem HasWords.congr (h : HasWords m a ws)
    (hm : ∀ k < 4 * ws.length, m'.byte (a + ((k : ℕ) : BitVec 32)) = m.byte (a + ((k : ℕ) : BitVec 32))) :
    HasWords m' a ws := by
  induction ws generalizing a with
  | nil => trivial
  | cons w ws ih =>
    rw [List.length_cons] at hm
    refine ⟨?_, ih h.2 fun k hk => ?_⟩
    · rw [← h.1]
      exact Memory.load32_congr fun i hi => hm i (by omega)
    · have hk4 := hm (k + 4) (by omega)
      rwa [Nat.cast_add, add_comm (k : BitVec 32), ← add_assoc] at hk4

/-- What is below the stack pointer is not on the stack. -/
theorem not_below {n k : ℕ} (h : n + k < 2 ^ 32) : ¬ Below a n (a + ((k : ℕ) : BitVec 32)) := by
  rintro ⟨j, hj1, hjn, hx⟩
  have hkj : (a - (j : BitVec 32)) + ((k + j : ℕ) : BitVec 32) = a + (k : BitVec 32) := by
    rw [Nat.cast_add]
    ring
  rw [hx, ← add_zero (a - (j : BitVec 32)), ← Nat.cast_zero, add_assoc, ← Nat.cast_add, Nat.zero_add] at hkj
  have := BitVec.add_cast_inj (by omega) (by omega) hkj
  omega

theorem HasWords.sameBut {n : ℕ} (h : HasWords m a ws) (hm : SameBut a n m m')
    (hn : n + 4 * ws.length ≤ 2 ^ 32) : HasWords m' a ws :=
  h.congr fun k hk => hm _ (not_below (by omega))

theorem sameBut_store32 (m : Memory (BitVec 32)) (a v : BitVec 32) : SameBut a 4 m (m.store32 (a - 4) v) := by
  intro x hx
  refine Memory.byte_store32_of_ne fun i hi heq => hx ⟨4 - i, by omega, by omega, ?_⟩
  rw [heq, Nat.cast_sub (by omega)]
  ring

theorem Below.sub {d n N : ℕ} {x : BitVec 32} (h : Below (a - (d : BitVec 32)) n x) (hN : d + n ≤ N) : Below a N x := by
  obtain ⟨k, hk1, hkn, rfl⟩ := h
  exact ⟨d + k, by omega, by omega, by rw [Nat.cast_add, sub_sub]⟩

theorem SameBut.refl (a : BitVec 32) (n : ℕ) (m : Memory (BitVec 32)) : SameBut a n m m := fun _ _ => rfl

/-- First above, then further down. -/
theorem SameBut.trans_sub {d n N : ℕ} {m'' : Memory (BitVec 32)} (h : SameBut a N m m')
    (h' : SameBut (a - (d : BitVec 32)) n m' m'') (hN : d + n ≤ N) : SameBut a N m m'' := by
  intro x hx
  rw [h' x fun hb => hx (hb.sub hN), h x hx]

end Words

theorem Returned.refl (frame : ℕ) (s : Cpu) : Returned frame s s := ⟨fun _ _ _ _ => rfl, rfl, SameBut.refl _ _ _⟩

/-! ## Registers -/

namespace Cpu

variable {s : Cpu} {v : BitVec 32}

@[simp] theorem reg_setReg (s : Cpu) (r r' : Reg) (v : BitVec 32) :
    (s.setReg r v).reg r' = if r' = r then v else s.reg r' := by
  simp only [setReg, Function.update_apply]

@[simp] theorem sreg_setSReg (s : Cpu) (r r' : SReg) (v : BitVec 16) :
    (s.setSReg r v).sreg r' = if r' = r then v else s.sreg r' := by
  simp only [setSReg, Function.update_apply]

@[simp] theorem sreg_setReg (s : Cpu) (r : Reg) (v : BitVec 32) : (s.setReg r v).sreg = s.sreg := rfl
@[simp] theorem mem_setReg (s : Cpu) (r : Reg) (v : BitVec 32) : (s.setReg r v).mem = s.mem := rfl
@[simp] theorem eip_setReg (s : Cpu) (r : Reg) (v : BitVec 32) : (s.setReg r v).eip = s.eip := rfl
@[simp] theorem reg_setSReg (s : Cpu) (r : SReg) (v : BitVec 16) : (s.setSReg r v).reg = s.reg := rfl
@[simp] theorem mem_setSReg (s : Cpu) (r : SReg) (v : BitVec 16) : (s.setSReg r v).mem = s.mem := rfl

@[simp] theorem reg_push (s : Cpu) (v : BitVec 32) (r : Reg) :
    (s.push v).reg r = if r = .esp then s.reg .esp - 4 else s.reg r := reg_setReg ..

@[simp] theorem sreg_push (s : Cpu) (v : BitVec 32) : (s.push v).sreg = s.sreg := rfl

@[simp] theorem reg_drop (s : Cpu) (r : Reg) : s.drop.reg r = if r = .esp then s.reg .esp + 4 else s.reg r :=
  reg_setReg ..

@[simp] theorem sreg_drop (s : Cpu) : s.drop.sreg = s.sreg := rfl

@[simp] theorem reg_pop (s : Cpu) (r r' : Reg) :
    (s.pop r).reg r' = if r' = r then s.top else s.drop.reg r' := reg_setReg ..

@[simp] theorem sreg_pop (s : Cpu) (r : Reg) : (s.pop r).sreg = s.sreg := rfl

@[simp] theorem reg_setLow (s : Cpu) (r r' : Reg) (v : BitVec 16) :
    (s.setLow r v).reg r' = if r' = r then (s.reg r).extractLsb' 16 16 ++ v else s.reg r' := reg_setReg ..

@[simp] theorem sreg_setLow (s : Cpu) (r : Reg) (v : BitVec 16) : (s.setLow r v).sreg = s.sreg := rfl
@[simp] theorem mem_setLow (s : Cpu) (r : Reg) (v : BitVec 16) : (s.setLow r v).mem = s.mem := rfl

end Cpu

/-! ## What becomes of the stack -/

namespace Stacked

variable {s t u : Cpu} {n frame : ℕ} {ws : List (BitVec 32)} {w : BitVec 32}

theorem refl (s : Cpu) (n : ℕ) : Stacked s n [] s where
  esp := by simp
  words := trivial
  mem := .refl _ _ _

/-- Instructions that leave the stack alone. -/
theorem congr (h : Stacked s n ws t) (hesp : u.reg .esp = t.reg .esp) (hmem : u.mem = t.mem) : Stacked s n ws u where
  esp := hesp.trans h.esp
  words := by
    rw [hesp, hmem]
    exact h.words
  mem := by
    rw [hmem]
    exact h.mem

theorem push (h : Stacked s n ws t) (v : BitVec 32) (hn : 4 * (ws.length + 1) ≤ n) (hn' : n < 2 ^ 32) :
    Stacked s n (v :: ws) (t.push v) := by
  have hstore : SameBut (t.reg .esp) 4 t.mem (t.push v).mem := sameBut_store32 _ _ _
  have hesp : (t.push v).reg .esp = t.reg .esp - 4 := by simp
  refine ⟨?_, ⟨?_, ?_⟩, ?_⟩
  · rw [hesp, h.esp, List.length_cons, Nat.mul_succ, Nat.cast_add, sub_sub]
    rfl
  · rw [hesp]
    exact Memory.load32_store32 ..
  · rw [hesp, sub_add_cancel]
    exact h.words.sameBut hstore (by omega)
  · rw [h.esp] at hstore
    exact h.mem.trans_sub hstore (by omega)

theorem top (h : Stacked s n (w :: ws) t) : t.top = w := h.words.1

theorem drop (h : Stacked s n (w :: ws) t) : Stacked s n ws t.drop where
  esp := by
    rw [Cpu.reg_drop, if_pos rfl, h.esp, List.length_cons, Nat.mul_succ, Nat.cast_add, ← sub_sub]
    exact sub_add_cancel ..
  words := by
    rw [Cpu.reg_drop, if_pos rfl]
    exact h.words.2
  mem := h.mem

theorem pop (h : Stacked s n (w :: ws) t) {r : Reg} (hr : r ≠ .esp) : Stacked s n ws (t.pop r) :=
  h.drop.congr (by simp [hr.symm]) rfl

/-- A function keeps what its caller has pushed. -/
theorem returned (h : Stacked s n ws t) (hr : Returned frame t u) (hn : 4 * ws.length + frame ≤ n) (hn' : n < 2 ^ 32) :
    Stacked s n ws u := by
  have hesp : u.reg .esp = t.reg .esp := hr.reg .esp (by decide) (by decide) (by decide)
  have hmem := hr.mem
  refine ⟨hesp.trans h.esp, ?_, ?_⟩
  · rw [hesp]
    exact h.words.sameBut hmem (by omega)
  · rw [h.esp] at hmem
    exact h.mem.trans_sub hmem hn

/-! The instructions for many registers at once. -/

theorem pusha (h : Stacked s n ws t) (hn : 4 * (ws.length + 8) ≤ n) (hn' : n < 2 ^ 32) :
    Stacked s n (t.reg .edi :: t.reg .esi :: t.reg .ebp :: t.reg .esp :: t.reg .ebx :: t.reg .edx :: t.reg .ecx ::
      t.reg .eax :: ws) (Instr.pusha.exec t) := by
  have hax := h.push (t.reg .eax) (by omega) hn'
  have hcx := hax.push (t.reg .ecx) (by simp only [List.length_cons]; omega) hn'
  have hdx := hcx.push (t.reg .edx) (by simp only [List.length_cons]; omega) hn'
  have hbx := hdx.push (t.reg .ebx) (by simp only [List.length_cons]; omega) hn'
  have hsp := hbx.push (t.reg .esp) (by simp only [List.length_cons]; omega) hn'
  have hbp := hsp.push (t.reg .ebp) (by simp only [List.length_cons]; omega) hn'
  have hsi := hbp.push (t.reg .esi) (by simp only [List.length_cons]; omega) hn'
  have hdi := hsi.push (t.reg .edi) (by simp only [List.length_cons]; omega) hn'
  simpa [Instr.exec] using hdi

theorem popa {di si bp sp bx dx cx ax : BitVec 32}
    (h : Stacked s n (di :: si :: bp :: sp :: bx :: dx :: cx :: ax :: ws) t) :
    Stacked s n ws (Instr.popa.exec t) := by
  have hbp := ((h.pop (r := .edi) (by decide)).pop (r := .esi) (by decide)).pop (r := .ebp) (by decide)
  have hdx := (hbp.drop.pop (r := .ebx) (by decide)).pop (r := .edx) (by decide)
  exact (hdx.pop (r := .ecx) (by decide)).pop (by decide)

theorem iret {ip c f : BitVec 32} (h : Stacked s n (ip :: c :: f :: ws) t) : Stacked s n ws (Instr.iret.exec t) :=
  h.drop.drop.drop.congr (by simp [Instr.exec]) rfl

end Stacked

/-- What `popa` takes from the stack. -/
theorem reg_popa {s t : Cpu} {n : ℕ} {ws : List (BitVec 32)} {di si bp sp bx dx cx ax : BitVec 32}
    (h : Stacked s n (di :: si :: bp :: sp :: bx :: dx :: cx :: ax :: ws) t) (r : Reg) :
    (Instr.popa.exec t).reg r =
      match r with
      | .eax => ax
      | .ecx => cx
      | .edx => dx
      | .ebx => bx
      | .esp => t.reg .esp + 32
      | .ebp => bp
      | .esi => si
      | .edi => di := by
  have hsi := h.pop (r := .edi) (by decide)
  have hbp := hsi.pop (r := .esi) (by decide)
  have hsp := hbp.pop (r := .ebp) (by decide)
  have hbx := hsp.drop
  have hdx := hbx.pop (r := .ebx) (by decide)
  have hcx := hdx.pop (r := .edx) (by decide)
  have hax := hcx.pop (r := .ecx) (by decide)
  cases r with
  | eax => simpa [Instr.exec] using hax.top
  | ecx => simpa [Instr.exec] using hcx.top
  | edx => simpa [Instr.exec] using hdx.top
  | ebx => simpa [Instr.exec] using hbx.top
  | esp =>
    simp only [Instr.exec, Cpu.reg_pop, Cpu.reg_drop, reduceCtorEq, if_false, if_true, add_assoc]
    rfl
  | ebp => simpa [Instr.exec] using hbp.top
  | esi => simpa [Instr.exec] using hsi.top
  | edi => simpa [Instr.exec] using h.top

theorem iret_eip {s t : Cpu} {n : ℕ} {ws : List (BitVec 32)} {ip c f : BitVec 32}
    (h : Stacked s n (ip :: c :: f :: ws) t) : (Instr.iret.exec t).eip = ip ∧
      (Instr.iret.exec t).eflags = f ∧ (Instr.iret.exec t).sreg .cs = c.setWidth 16 := by
  refine ⟨h.top, h.drop.drop.top, ?_⟩
  have hcs := congrArg (BitVec.setWidth 16) h.drop.top
  simpa [Instr.exec] using hcs

end X86
