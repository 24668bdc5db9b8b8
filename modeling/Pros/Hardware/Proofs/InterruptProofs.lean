import Pros.Hardware.Interrupts

/-!
# Interrupted programs go on

The entry code brings the stack into one form, whatever the interrupt (`stacked_entryCode`): number, error code, and
what the processor has pushed. From there on saving and restoring are inverse to each other, and the call between
them keeps what is on the stack. If the processor pushes an error code where the entry code does not expect one, or
does not where it does, the stack pointer is one word off in the end.
-/

namespace Pros

open X86

variable {s t u : Cpu} {n frame v : ℕ} {ws : List U32} {error : Option U32} {selector : U16} {offset : U32}

theorem run_append (code code' : List Instr) (s : Cpu) : run (code ++ code') s = run code' (run code s) :=
  List.foldl_append

/-! ## Entry -/

theorem signExtend_vector (hv : v < 48) : (BitVec.ofNat 8 v).signExtend 32 = BitVec.ofNat 32 v := by
  have h : ∀ v < 48, (BitVec.ofNat 8 v).signExtend 32 = BitVec.ofNat 32 v := by decide
  exact h v hv

theorem ofNat_irq (hv : v < 48) (h32 : ¬ v < 32) : BitVec.ofNat 8 (v - 32) + 0x20 = BitVec.ofNat 8 v := by
  have h : ∀ v < 48, ¬ v < 32 → BitVec.ofNat 8 (v - 32) + 0x20 = BitVec.ofNat 8 v := by decide
  exact h v hv h32

/-- The entry code, by whether there is an error code for it. -/
theorem entryCode_eq (hv : v < 48) : entryCode v =
    if HasErrcode v then [.cli, .pushByte (BitVec.ofNat 8 v)]
    else [.cli, .pushByte 0, .pushByte (BitVec.ofNat 8 v)] := by
  unfold entryCode
  split_ifs with h32 herr herr
  · rfl
  · rfl
  · exact absurd herr (by unfold HasErrcode; omega)
  · rw [INTERRUPT, ofNat_irq hv h32]

/-- The stack as the processor leaves it, without an error code. -/
theorem stacked_interrupt_none (s : Cpu) (selector : U16) (offset : U32) (hn : 12 ≤ n) (hn' : n < 2 ^ 32) :
    Stacked s n [s.eip, (s.sreg .cs).setWidth 32, s.eflags] (s.interrupt selector offset none) := by
  have hflags := (Stacked.refl s n).push s.eflags (by simp only [List.length_nil]; omega) hn'
  have hcs := hflags.push ((s.sreg .cs).setWidth 32) (by simp only [List.length_cons, List.length_nil]; omega) hn'
  exact (hcs.push s.eip (by simp only [List.length_cons, List.length_nil]; omega) hn').congr rfl rfl

theorem stacked_interrupt_some (s : Cpu) (selector : U16) (offset e : U32) (hn : 16 ≤ n) (hn' : n < 2 ^ 32) :
    Stacked s n [e, s.eip, (s.sreg .cs).setWidth 32, s.eflags] (s.interrupt selector offset (some e)) := by
  have hnone := stacked_interrupt_none s selector offset (by omega) hn'
  exact (hnone.push e (by simp only [List.length_cons, List.length_nil]; omega) hn').congr rfl rfl

/-- After the entry code the stack has the same form for all interrupts. -/
theorem stacked_entryCode (hv : v < 48) (herr : error.isSome ↔ HasErrcode v) (s : Cpu) (hn : 20 ≤ n)
    (hn' : n < 2 ^ 32) :
    Stacked s n [BitVec.ofNat 32 v, error.getD 0, s.eip, (s.sreg .cs).setWidth 32, s.eflags]
      (run (entryCode v) (s.interrupt selector offset error)) := by
  rw [entryCode_eq hv]
  cases error with
  | none =>
    rw [if_neg fun h => absurd (herr.mpr h) (by simp)]
    have hcli : Stacked s n _ (Instr.cli.exec (s.interrupt selector offset none)) :=
      (stacked_interrupt_none s selector offset (by omega) hn').congr rfl rfl
    have hzero := hcli.push ((0 : U8).signExtend 32) (by simp only [List.length_cons, List.length_nil]; omega) hn'
    have hnum := hzero.push ((BitVec.ofNat 8 v).signExtend 32)
      (by simp only [List.length_cons, List.length_nil]; omega) hn'
    rw [← signExtend_vector hv]
    exact hnum
  | some e =>
    rw [if_pos (herr.mp rfl)]
    have hcli : Stacked s n _ (Instr.cli.exec (s.interrupt selector offset (some e))) :=
      (stacked_interrupt_some s selector offset e (by omega) hn').congr rfl rfl
    have hnum := hcli.push ((BitVec.ofNat 8 v).signExtend 32)
      (by simp only [List.length_cons, List.length_nil]; omega) hn'
    rw [← signExtend_vector hv]
    exact hnum

/-- Interrupt and entry code change no register but the stack pointer. -/
theorem reg_entryCode (v : ℕ) (s : Cpu) {r : Reg} (hr : r ≠ .esp) :
    (run (entryCode v) (s.interrupt selector offset error)).reg r = s.reg r := by
  unfold entryCode EXCEPTION_ERRCODE EXCEPTION_NOERRCODE INTERRUPT
  split_ifs <;> cases error <;> simp [run, Instr.exec, Cpu.interrupt, hr]

theorem sreg_entryCode (v : ℕ) (s : Cpu) {r : SReg} (hr : r ≠ .cs) :
    (run (entryCode v) (s.interrupt selector offset error)).sreg r = s.sreg r := by
  unfold entryCode EXCEPTION_ERRCODE EXCEPTION_NOERRCODE INTERRUPT
  split_ifs <;> cases error <;> simp [run, Instr.exec, Cpu.interrupt, hr]

/-! ## Saving and restoring -/

/-- The saved registers, on top of what was on the stack. -/
theorem stacked_saveCode (h : Stacked s n ws t) (hn : 4 * (ws.length + 9) ≤ n) (hn' : n < 2 ^ 32) :
    Stacked s n (((t.reg .eax).extractLsb' 16 16 ++ t.sreg .ds) :: t.reg .edi :: t.reg .esi :: t.reg .ebp ::
      t.reg .esp :: t.reg .ebx :: t.reg .edx :: t.reg .ecx :: t.reg .eax :: ws) (run saveCode t) := by
  have hpusha := h.pusha (by omega) hn'
  have hds : Stacked s n _ ((Instr.movFromSeg .eax .ds).exec (Instr.pusha.exec t)) :=
    hpusha.congr (by simp [Instr.exec]) rfl
  have hpush := hds.push ((t.reg .eax).extractLsb' 16 16 ++ t.sreg .ds)
    (by simp only [List.length_cons]; omega) hn'
  refine hpush.congr ?_ ?_
  · simp [run, saveCode, Instr.exec]
  · simp [run, saveCode, Instr.exec, Cpu.push]

theorem sreg_saveCode (t : Cpu) : (run saveCode t).sreg .ss = t.sreg .ss := by
  simp [run, saveCode, Instr.exec]

/-- The first instructions of `restoreCode`, which give the segment registers the value that was pushed last. -/
def reloadSegments (u : Cpu) : Cpu :=
  run [.pop .ebx, .movToSeg .ds .ebx, .movToSeg .es .ebx, .movToSeg .fs .ebx, .movToSeg .gs .ebx] u

theorem run_restoreCode (u : Cpu) : run restoreCode u =
    Instr.iret.exec (Instr.sti.exec ((Instr.add .esp 8).exec (Instr.popa.exec (reloadSegments u)))) := rfl

/-- Behind `popa` only the stack pointer changes. -/
theorem reg_restoreCode (u : Cpu) {r : Reg} (hr : r ≠ .esp) :
    (run restoreCode u).reg r = (Instr.popa.exec (reloadSegments u)).reg r := by
  rw [run_restoreCode]
  generalize Instr.popa.exec (reloadSegments u) = t
  simp [Instr.exec, hr]

section Restore

variable {w di si bp sp bx dx cx ax x y ip c f : U32}
  (h : Stacked s n (w :: di :: si :: bp :: sp :: bx :: dx :: cx :: ax :: x :: y :: ip :: c :: f :: ws) u)

include h

theorem stacked_reloadSegments :
    Stacked s n (di :: si :: bp :: sp :: bx :: dx :: cx :: ax :: x :: y :: ip :: c :: f :: ws) (reloadSegments u) :=
  (h.pop (r := .ebx) (by decide)).congr (by simp [reloadSegments, run, Instr.exec])
    (by simp [reloadSegments, run, Instr.exec])

theorem stacked_beforeIret : Stacked s n (ip :: c :: f :: ws)
    (Instr.sti.exec ((Instr.add .esp 8).exec (Instr.popa.exec (reloadSegments u)))) := by
  refine (stacked_reloadSegments h).popa.drop.drop.congr ?_ ?_
  · generalize Instr.popa.exec (reloadSegments u) = t
    simp only [Instr.exec, Cpu.reg_setReg, Cpu.reg_drop, if_true, add_assoc]
    rfl
  · generalize Instr.popa.exec (reloadSegments u) = t
    rfl

theorem stacked_restoreCode : Stacked s n ws (run restoreCode u) := (stacked_beforeIret h).iret

theorem sreg_restoreCode (r : SReg) : (run restoreCode u).sreg r =
    if r = .cs then c.setWidth 16 else if r = .ss then u.sreg .ss else w.setWidth 16 := by
  have htop : u.top = w := h.top
  by_cases hcs : r = .cs
  · rw [if_pos hcs, hcs]
    exact (iret_eip (stacked_beforeIret h)).2.2
  · rw [if_neg hcs]
    have hkeep : (run restoreCode u).sreg r = (reloadSegments u).sreg r := by
      rw [run_restoreCode]
      simp [Instr.exec, hcs]
    rw [hkeep]
    cases r <;> first | exact absurd rfl hcs | simp [reloadSegments, run, Instr.exec, htop]

end Restore

/-! ## The whole interrupt -/

/-- The argument of `handleInterrupt`, read off the stack. -/
theorem load_registers {ds di si bp sp bx dx cx ax num err ip c f : U32}
    (h : Stacked s n [ds, di, si, bp, sp, bx, dx, cx, ax, num, err, ip, c, f] t) :
    Registers.load t.mem (t.reg .esp) = ⟨ds, di, si, bp, sp, bx, dx, cx, ax, num, err, ip, c, f⟩ := by
  have hw := h.words
  simp only [HasWords, add_assoc] at hw
  obtain ⟨h0, h1, h2, h3, h4, h5, h6, h7, h8, h9, h10, h11, h12, h13, -⟩ := hw
  rw [Registers.load, Registers.mk.injEq]
  exact ⟨h0, h1, h2, h3, h4, h5, h6, h7, h8, h9, h10, h11, h12, h13⟩

/-- With the error codes that the entry code expects. -/
theorem interrupted_resumes {target : U16 × U32} {registers : Registers} (hv : v < 48)
    (herr : error.isSome ↔ HasErrcode v) (hframe : frame + 60 < 2 ^ 32)
    (h : Interrupted frame v error target registers s t) :
    Resumed (frame + 60) s t ∧ SavedOf s v error registers := by
  obtain ⟨u, hregisters, hreturned, rfl⟩ := h
  rw [run_append] at hregisters hreturned
  have hentry : Stacked s (frame + 60) [BitVec.ofNat 32 v, error.getD 0, s.eip, (s.sreg .cs).setWidth 32, s.eflags]
      (run (entryCode v) (s.interrupt target.1 target.2 error)) := stacked_entryCode hv herr s (by omega) hframe
  have hreg : ∀ r, r ≠ Reg.esp → (run (entryCode v) (s.interrupt target.1 target.2 error)).reg r = s.reg r :=
    fun r hr => reg_entryCode v s hr
  have hsreg : ∀ r, r ≠ SReg.cs → (run (entryCode v) (s.interrupt target.1 target.2 error)).sreg r = s.sreg r :=
    fun r hr => sreg_entryCode v s hr
  generalize run (entryCode v) (s.interrupt target.1 target.2 error) = e at *
  have hsaved := stacked_saveCode hentry (by simp only [List.length_cons, List.length_nil]; omega) hframe
  have hds : ((e.reg .eax).extractLsb' 16 16 ++ e.sreg .ds).setWidth 16 = s.sreg .ds := by
    rw [hsreg .ds (by decide)]
    exact BitVec.setWidth_append_eq_right
  have hback := hsaved.returned hreturned (by simp only [List.length_cons, List.length_nil]; omega) hframe
  have hend := stacked_restoreCode hback
  constructor
  · refine ⟨funext fun r => ?_, ?_, ?_, ?_, ?_, hend.mem⟩
    · by_cases hr : r = .esp
      · rw [hr, hend.esp]
        exact sub_zero _
      · rw [reg_restoreCode u hr, reg_popa (stacked_reloadSegments hback)]
        cases r <;> first | exact absurd rfl hr | exact hreg _ hr
    · exact (iret_eip (stacked_beforeIret hback)).1
    · exact (iret_eip (stacked_beforeIret hback)).2.1
    · rintro r (rfl | rfl | rfl)
      · rw [sreg_restoreCode hback, if_pos rfl]
        exact BitVec.setWidth_setWidth_of_le _ (by decide)
      · rw [sreg_restoreCode hback, if_neg (by decide), if_pos rfl, hreturned.sreg, sreg_saveCode e,
          hsreg .ss (by decide)]
      · rw [sreg_restoreCode hback, if_neg (by decide), if_neg (by decide), hds]
    · rintro r (rfl | rfl | rfl) <;>
        rw [sreg_restoreCode hback, if_neg (by decide), if_neg (by decide), hds]
  · rw [load_registers hsaved] at hregisters
    rw [hregisters]
    refine ⟨hds, hreg _ (by decide), hreg _ (by decide), hreg _ (by decide), ?_, hreg _ (by decide), hreg _ (by decide),
      hreg _ (by decide), hreg _ (by decide), rfl, rfl, rfl, rfl, rfl⟩
    exact hentry.esp

/-! ## Error codes -/

theorem esp_entryCode (hv : v < 48) (s : Cpu) :
    (run (entryCode v) (s.interrupt selector offset error)).reg .esp =
      s.reg .esp - (if error.isSome then 16 else 12) - (if HasErrcode v then 4 else 8) := by
  rw [entryCode_eq hv]
  cases error with
  | none =>
    rw [if_neg (show ¬ (none : Option U32).isSome by decide)]
    split_ifs <;> simp only [run, List.foldl_cons, List.foldl_nil, Instr.exec, Cpu.interrupt, Cpu.reg_setSReg,
      Cpu.reg_push, if_true] <;> bv_omega
  | some e =>
    rw [if_pos (show (some e).isSome from rfl)]
    split_ifs <;> simp only [run, List.foldl_cons, List.foldl_nil, Instr.exec, Cpu.interrupt, Cpu.reg_setSReg,
      Cpu.reg_push, if_true] <;> bv_omega

theorem esp_saveCode (t : Cpu) : (run saveCode t).reg .esp = t.reg .esp - 36 := by
  simp only [run, saveCode, List.foldl_cons, List.foldl_nil, Instr.exec, Cpu.reg_setSReg, Cpu.reg_setLow, Cpu.reg_push,
    reduceCtorEq, if_true, if_false]
  ring

theorem esp_restoreCode (u : Cpu) : (run restoreCode u).reg .esp = u.reg .esp + 56 := by
  simp only [run, restoreCode, List.foldl_cons, List.foldl_nil, Instr.exec, Cpu.reg_setSReg, Cpu.reg_setReg,
    Cpu.reg_pop, Cpu.reg_drop, reduceCtorEq, if_true, if_false]
  ring

/-- A program that is interrupted goes on as it was, and `handleInterrupt` is given its registers and the number of
    the interrupt, exactly when the processor pushes an error code for the exceptions that the entry code expects one
    for, and for no others. -/
theorem interrupt_transparent_iff {target : U16 × U32} {registers : Registers} (hv : v < 48)
    (hframe : frame + 60 < 2 ^ 32) (h : Interrupted frame v error target registers s t) :
    Resumed (frame + 60) s t ∧ SavedOf s v error registers ↔ (error.isSome ↔ HasErrcode v) := by
  refine ⟨fun hgood => ?_, fun herr => interrupted_resumes hv herr hframe h⟩
  have hesp := congrFun hgood.1.reg .esp
  obtain ⟨u, -, hreturned, rfl⟩ := h
  rw [esp_restoreCode, hreturned.reg .esp (by decide) (by decide) (by decide), run_append, esp_saveCode,
    esp_entryCode hv] at hesp
  -- A word too many or too few on the stack.
  cases herror : error.isSome with
  | false =>
    refine ⟨fun hfalse => absurd hfalse (by decide), fun hcode => ?_⟩
    rw [herror, if_neg (by decide), if_pos hcode] at hesp
    bv_omega
  | true =>
    refine ⟨fun _ => by_contra fun hcode => ?_, fun _ => rfl⟩
    rw [herror, if_pos rfl, if_neg hcode] at hesp
    bv_omega

/-- A processor with its stack at 0xC0110000. -/
def idleCpu : Cpu where
  reg _ := 0xC0110000
  sreg _ := 0x10
  eip := 0xC0101000
  eflags := 0x202
  mem := { byte := fun _ => 0 }

/-- The first hardware interrupt, and a function that changes nothing. -/
theorem interrupt_transparent_timer : ∃ registers t,
    Interrupted 0 32 none (0x08, 0xC0102000) registers idleCpu t ∧
      (Resumed 60 idleCpu t ∧ SavedOf idleCpu 32 none registers ↔ ((none : Option U32).isSome ↔ HasErrcode 32)) := by
  refine ⟨_, _, ⟨_, rfl, Returned.refl 0 _, rfl⟩, ?_⟩
  exact interrupt_transparent_iff (by decide) (by decide) ⟨_, rfl, Returned.refl 0 _, rfl⟩

end Pros
