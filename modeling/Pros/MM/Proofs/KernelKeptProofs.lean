import Pros.MM.BootLayout
import Pros.MM.Proofs.BootMapProofs

/-!
# The blocks of the kernel and the bitmap

Only the first 2 MiB are reserved, whatever the kernel and the bitmap take. Above them a block is in use
after booting if the map leaves it so; and what is in use after booting, and not handed out, stays so.
-/

namespace Pros

open PMM

variable {s : PMM} {entries : List MmapEntry} {b : ℕ} {c c' : FrameClient} {op : FrameOp}

/-- A block in use that no live run has. -/
structure Kept (b : ℕ) (c : FrameClient) : Prop where
  used : c.pmm.memoryMap.bit b = true
  not_live : ∀ x ∈ c.live, b ∉ runBlocks x

theorem Kept.alloc {size : U32} (h : Kept b c) (hstep : c.Step (.getFreePhysicalPage size) c') :
    Kept b c' := by
  obtain rfl | ⟨f, -, hfirst, rfl⟩ := FrameClient.step_alloc hstep
  · exact h
  · refine ⟨?_, fun x hx => ?_⟩
    · simp only [bit_setBits, h.used, ite_self]
    · simp only at hx
      split_ifs at hx with hnull
      · exact h.not_live x hx
      · rcases List.mem_cons.mp hx with rfl | hx
        · rw [hfirst.runBlocks_eq]
          intro hb
          exact absurd ((hfirst.2.1 b hb.1 hb.2).symm.trans h.used) Bool.false_ne_true
        · exact h.not_live x hx

theorem Kept.free {p size : U32} (h : Kept b c) (hstep : c.Step (.freePage p size) c') : Kept b c' := by
  obtain ⟨hmem, rfl⟩ := FrameClient.step_free hstep
  refine ⟨?_, fun x hx => h.not_live x (List.mem_of_mem_erase hx)⟩
  have hb : ¬ (p.toNat / 4096 ≤ b ∧ b < p.toNat / 4096 + size.toNat) := h.not_live _ hmem
  simp only [freePage_memoryMap, bit_unsetBits]
  rw [if_neg hb, h.used]

theorem Kept.step (h : Kept b c) (hstep : c.Step op c') : Kept b c' := by
  cases op with
  | getFreePhysicalPage size => exact h.alloc hstep
  | freePage p size => exact h.free hstep

/-- Above the first 2 MiB the map decides. -/
theorem testBit_init (h512 : 512 ≤ b) :
    testBit (s.init entries).memoryMap b = true ↔ LeavesUsed s entries b := by
  unfold LeavesUsed
  rw [testBit_eq]
  unfold PMM.init
  rw [bit_initPMM_of_le h512, foldl_mark_eq_true, bit_fill (by omega), toNat_maxBlocks_initPMM]
  split_ifs <;> simp

/-- The kernel and the bitmap are kept exactly when the memory map leaves in use what they take above the
    first 2 MiB. -/
theorem kernel_kept_iff (kernelEnd : U32) (s : PMM) (entries : List MmapEntry) :
    KernelKept kernelEnd s entries ↔
      ∀ b, HoldsKernel kernelEnd (s.init entries).maxBlocks b → 512 ≤ b → LeavesUsed s entries b := by
  constructor
  · intro h b hb h512
    exact (testBit_init h512).mp (h.used b hb)
  · intro h
    have hused : ∀ b, HoldsKernel kernelEnd (s.init entries).maxBlocks b →
        testBit (s.init entries).memoryMap b = true := by
      intro b hb
      by_cases h512 : 512 ≤ b
      · exact (testBit_init h512).mpr (h b hb h512)
      · rw [testBit_eq]
        exact initPMM_reserved (by omega)
    refine ⟨hused, fun ops c hrun b hb => ?_⟩
    have hinit : Kept b ⟨s.init entries, []⟩ :=
      ⟨testBit_eq.symm.trans (hused b hb), by intro x hx; cases hx⟩
    have hkept : Kept b c := hrun.invariant hinit fun _ _ _ h hstep => h.step hstep
    exact hkept.not_live

/-- On a PC with 16 MiB, a kernel of a little more than 1 MiB reaches into block 512, which is free after
    booting. -/
theorem kernel_block_free :
    HoldsKernel 0xC0201000 ((PMM.zero { byte := fun _ => 0 }).init smallPc).maxBlocks 512 ∧
    testBit ((PMM.zero { byte := fun _ => 0 }).init smallPc).memoryMap 512 = false ∧
    ¬ KernelKept 0xC0201000 (.zero { byte := fun _ => 0 }) smallPc := by
  have hholds : HoldsKernel 0xC0201000 ((PMM.zero { byte := fun _ => 0 }).init smallPc).maxBlocks 512 := by
    refine ⟨0x200000, ⟨by decide, by decide⟩, by decide, ?_⟩
    show 0x200000 < (0xC0201000 : U32).toNat - 0xC0000000 + _
    have hend : (0xC0201000 : U32).toNat = 0xC0201000 := rfl
    rw [hend]
    omega
  have hfree : testBit ((PMM.zero { byte := fun _ => 0 }).init smallPc).memoryMap 512 = false := by
    rw [testBit_eq]
    unfold PMM.init
    rw [bit_initPMM_of_le le_rfl, foldl_mark_eq_false]
    exact Or.inl ⟨_, ⟨smallPc.take 2, [], rfl, by decide, by simp⟩, rfl⟩
  refine ⟨hholds, hfree, fun h => ?_⟩
  rw [h.used 512 hholds] at hfree
  cases hfree

end Pros
