import Pros.MM.Proofs.VMMInitProofs
import Pros.MM.Proofs.BootMapProofs

/-!
# When `initVMM` succeeds

From a bitmap whose free blocks are the ones from `q` up to `top`, requests are granted one after the other
from `q` on. `initVMM` takes a frame for each page of the heap and one to spare, the directory, the
window's table, and at most one table for the heap.
-/

namespace Pros

open MemoryManager PageEntry

/-- The free blocks are the ones from `q` up to `top`, and the allocator counts and searches them all. -/
structure FreeFrom (s : PMM) (q top : ℕ) : Prop where
  ge : 512 ≤ q
  used : ∀ b < q, s.memoryMap.bit b = true
  free : ∀ b, q ≤ b → b < top → s.memoryMap.bit b = false
  bound : top ≤ PMM.searchBound s
  count : top ≤ s.getFreeBlockCount.toNat + q

section Grants

variable {s : PMM} {m : MemoryManager} {q top d k p : ℕ} {size : U32}

/-- A request that fits is met at `q`. -/
theorem FreeFrom.alloc (h : FreeFrom s q top) (hsize : 0 < size.toNat) (hfit : q + size.toNat ≤ top) :
    (s.getFreePhysicalPage size).1 = ptr (q * 4096) ∧
      FreeFrom (s.getFreePhysicalPage size).2 (q + size.toNat) top := by
  have hne : size ≠ 0 := by
    rintro rfl
    exact absurd hsize (by decide)
  have hrun : PMM.FreeRun s.memoryMap q size.toNat := fun b h1 h2 => h.free b h1 (by omega)
  have hbound := h.bound
  have hcount := h.count
  rcases getFreePhysicalPage_cases s size with ⟨hfail | hfail, -⟩ | ⟨f, -, -, hfirst, heq⟩
  · rw [hfail, show (0 : U32).toNat = 0 from rfl] at hcount
    omega
  · exact absurd hrun ((PMM.firstFree_none hne).mp hfail q (by omega))
  · have hqf : q ≤ f := hfirst.le_of_used hsize h.used
    have hfq : f = q := by
      by_contra hlt
      exact hfirst.2.2 q (by omega) hrun
    subst hfq
    rw [heq]
    refine ⟨rfl, ⟨by have := h.ge; omega, fun b hb => ?_, fun b h1 h2 => ?_, h.bound, ?_⟩⟩
    · rw [PMM.bit_setBits]
      split_ifs with hb'
      · rfl
      · exact h.used b (by omega)
    · rw [PMM.bit_setBits, if_neg (by omega)]
      exact h.free b (by omega) h2
    · show top ≤ (s.maxBlocks - (s.usedBlocks + size)).toNat + (f + size.toNat)
      have hle : size ≤ s.getFreeBlockCount := BitVec.le_def.mpr (by omega)
      have hsub : s.maxBlocks - (s.usedBlocks + size) = s.getFreeBlockCount - size := by
        rw [PMM.getFreeBlockCount]
        ring
      rw [hsub, BitVec.toNat_sub_of_le hle]
      omega

theorem ptr_frame_ne_nullptr (hq : 0 < q) (hlt : q < 2 ^ 20) : ptr (q * 4096) ≠ nullptr :=
  ptr_ne_nullptr (by omega) (by omega)

theorem FreeFrom.lt (h : FreeFrom s q top) (hq : q < top) : q < 2 ^ 20 := by
  have hbound := h.bound
  have hle := @searchBound_le s
  omega

/-- A request that fits. -/
theorem FreeFrom.getFreePhysicalPages (h : FreeFrom m.pmm q top) (size : U32) (hg : AllGranted m)
    (hsize : 0 < size.toNat) (hfit : q + size.toNat ≤ top) : (m.getFreePhysicalPage size).1 = ptr (q * 4096) ∧
      AllGranted (m.getFreePhysicalPage size).2 ∧ FreeFrom (m.getFreePhysicalPage size).2.pmm (q + size.toNat) top := by
  obtain ⟨hp, hfree⟩ := h.alloc hsize hfit
  have hge := h.ge
  have hp' : (m.getFreePhysicalPage size).1 = ptr (q * 4096) := hp
  refine ⟨hp', ?_, hfree⟩
  rw [allGranted_getFreePhysicalPage, hp']
  exact ⟨(ptr_frame_ne_nullptr (by omega) (h.lt (by omega))).symm, hg⟩

/-- A single frame. -/
theorem FreeFrom.getFreePhysicalPage (h : FreeFrom m.pmm q top) (hq : q < top) (hg : AllGranted m) :
    (m.getFreePhysicalPage 1).1 = ptr (q * 4096) ∧ AllGranted (m.getFreePhysicalPage 1).2 ∧
      FreeFrom (m.getFreePhysicalPage 1).2.pmm (q + 1) top := by
  have hpos : 0 < (1 : U32).toNat := by decide
  exact h.getFreePhysicalPages 1 hg hpos hq

/-- Mapping a page takes at most one frame, and none if there is a table. -/
theorem FreeFrom.flatMapPage (h : FreeFrom m.pmm q top) (phys virt : U32) (hpaged : Paged m d)
    (hq : q < top) (hg : AllGranted m) :
    ∃ q' ≤ q + 1, q ≤ q' ∧ FreeFrom (m.flatMapPage phys virt).pmm q' top ∧ AllGranted (m.flatMapPage phys virt) ∧
      (present (dirEntry m d (dirIndex virt)) = true → q' = q) := by
  rcases flatEnsureTable_cases hpaged virt with ⟨hp, heq⟩ | ⟨habs, t, -, -⟩
  · refine ⟨q, by omega, le_rfl, ?_, ?_, fun _ => rfl⟩
    · show FreeFrom (m.flatEnsureTable virt).pmm q top
      rw [heq]
      exact h
    · show nullptr ∉ (m.flatEnsureTable virt).granted
      rw [heq]
      exact hg
  · obtain ⟨-, hg', h'⟩ := h.getFreePhysicalPage hq hg
    have hnew : m.flatEnsureTable virt = m.flatNewTable (m.directoryEntry virt) := by
      rw [flatEnsureTable_eq hpaged, if_neg (Bool.not_eq_true _ ▸ habs)]
    refine ⟨q + 1, le_rfl, by omega, ?_, ?_, fun hp => ?_⟩
    · show FreeFrom (m.flatEnsureTable virt).pmm (q + 1) top
      rw [hnew]
      exact h'
    · show nullptr ∉ (m.flatEnsureTable virt).granted
      rw [hnew]
      exact hg'
    · rw [habs] at hp
      cases hp

/-- Once a page of the heap is mapped, the heap has its table. -/
theorem HeapMapped.table_present (h : HeapMapped m d k p) (hk0 : 0 < k) (hk : k < 256) :
    present (dirEntry m d (dirIndex (heapPage k))) = true := by
  obtain ⟨f, hf, -⟩ := h.frames 0 hk0
  have hp := h.paged.mapped _ _ hf
  rwa [dirIndex_heapPage (by omega)] at hp ⊢

/-- The loop over the heap takes one frame for each page once there is a table. -/
theorem FreeFrom.flatMapHeap {fuel : ℕ} (h : FreeFrom m.pmm q top) (hmap : HeapMapped m d k p)
    (hk0 : 0 < k) (hk : k + fuel = 257) (hle : k ≤ 256) (hq : q + 256 ≤ top + k) (hg : AllGranted m) :
    AllGranted (flatMapHeap m (ptr (p * 4096)) (heapPage k) fuel) ∧
      FreeFrom (flatMapHeap m (ptr (p * 4096)) (heapPage k) fuel).pmm (q + (256 - k)) top := by
  induction fuel generalizing m k p q with
  | zero => omega
  | succ fuel ih =>
    by_cases hlt : k < 256
    · obtain ⟨q', -, -, h1, hg1, heq⟩ :=
        h.flatMapPage (ptr (p * 4096)) (heapPage k) hmap.paged (by omega) hg
      obtain rfl := heq (hmap.table_present hk0 hlt)
      obtain ⟨-, hg2, h2⟩ := h1.getFreePhysicalPage (by omega) hg1
      obtain ⟨p', hp', hmap'⟩ := hmap.step hlt hg2
      rw [flatMapHeap_succ m _ hlt, hp']
      have hrest := ih h2 hmap' (by omega) (by omega) (by omega) (by omega) hg2
      rwa [show q' + 1 + (256 - (k + 1)) = q' + (256 - k) by omega] at hrest
    · obtain rfl : k = 256 := by omega
      rw [flatMapHeap_end]
      exact ⟨hg, h⟩

/-- `initVMM` succeeds if there are 260 free frames, and takes 259 or 260 of them. -/
theorem FreeFrom.flatInitVMM (h : FreeFrom m.pmm q top) (hq : q + 260 ≤ top) (hmapped : m.mapped = [])
    (hg : AllGranted m) :
    AllGranted m.flatInitVMM ∧ ∃ q' ≤ q + 260, q + 259 ≤ q' ∧ FreeFrom m.flatInitVMM.pmm q' top := by
  obtain ⟨-, hg1, h1⟩ := h.getFreePhysicalPage (by omega) hg
  obtain ⟨-, hg2, h2⟩ := h1.getFreePhysicalPage (by omega) hg1
  have hg2' : AllGranted m.flatInitTables := hg2
  have h2' : FreeFrom m.flatInitTables.pmm (q + 2) top := h2
  have hres : ∀ b < 512, m.pmm.memoryMap.bit b = true := fun b hb => h.used b (by have := h.ge; omega)
  obtain ⟨d, hpaged, hzero, hwindow, habsent⟩ := paged_flatInitTables hres hmapped hg2'
  obtain ⟨hp3, hg3, h3⟩ := h2'.getFreePhysicalPage (by omega) hg2'
  have hne : (m.flatInitTables.getFreePhysicalPage 1).1 ≠ nullptr := by
    rw [hp3]
    exact ptr_frame_ne_nullptr (by omega) (h2.lt (by omega))
  obtain ⟨p, hp, hstart⟩ := heapMapped_start hpaged hzero hwindow habsent hmapped hne
  obtain ⟨q', hle, hge, h4, hg4, -⟩ :=
    h3.flatMapPage (ptr (p * 4096)) (heapPage 0) hstart.paged (by omega) hg3
  obtain ⟨-, hg5, h5⟩ := h4.getFreePhysicalPage (by omega) hg4
  obtain ⟨p', hp', hfirst⟩ := hstart.step (by omega) hg5
  rw [flatInitVMM_eq, hp, flatMapHeap_succ _ _ (by omega), hp']
  have hfuel : 0 + 1 + 256 = 257 := rfl
  obtain ⟨hall, hfree⟩ := h5.flatMapHeap hfirst (by omega) hfuel (by omega) (by omega) hg5
  exact ⟨hall, q' + 1 + (256 - 1), by omega, by omega, hfree⟩

/-- The PC with 16 MiB has the blocks above the first 2 MiB free. -/
theorem freeFrom_smallPc (map : Memory ℕ) :
    FreeFrom (PMM.initPMM ⟨MB 16, 0, 0, map⟩ smallPc) 512 4096 := by
  have hsize : (MB 16).toNat / 4096 = 4096 := by decide
  refine ⟨le_rfl, fun b => initPMM_reserved, fun b h1 h2 => ?_, ?_, ?_⟩
  · have hlast : MmapEntry.Covers ⟨0x100000, 0, 0xF00000, 0, MULTIBOOT_MEMORY_AVAILABLE⟩ b := by
      unfold MmapEntry.Covers
      rw [show (0x100000 : U32).toNat = 0x100000 from rfl, show (0xF00000 : U32).toNat = 0xF00000 from rfl]
      omega
    rw [bit_initPMM (by rw [hsize]; exact h2), bootUsed, decide_eq_false (by omega), Bool.false_or,
      smallPc, List.foldl_cons, List.foldl_cons, List.foldl_cons, List.foldl_nil]
    exact if_pos hlast
  · have hkeep : (PMM.initPMM ⟨MB 16, 0, 0, map⟩ smallPc).memorySize = MB 16 := memorySize_initPMM
    rw [PMM.searchBound, hkeep]
    decide
  · rw [PMM.getFreeBlockCount, usedBlocks_initPMM, maxBlocks_initPMM]
    show 4096 ≤ (MB 16 / BLOCK_SIZE - (MB 16 / BLOCK_SIZE + countedBlocks smallPc - 512)).toNat + 512
    decide

/-- Its boot succeeds, and takes the blocks from 512 on. -/
theorem flatInitVMM_smallPc (map : Memory ℕ) (ram : Ram) (dir : U32) :
    AllGranted (bootState ⟨MB 16, 0, 0, map⟩ smallPc ram dir).flatInitVMM ∧ ∃ q ≤ 772, 771 ≤ q ∧
      FreeFrom (bootState ⟨MB 16, 0, 0, map⟩ smallPc ram dir).flatInitVMM.pmm q 4096 := by
  have hfree : FreeFrom (bootState ⟨MB 16, 0, 0, map⟩ smallPc ram dir).pmm 512 4096 :=
    freeFrom_smallPc map
  have hnone : AllGranted (bootState ⟨MB 16, 0, 0, map⟩ smallPc ram dir) := List.not_mem_nil
  obtain ⟨hall, q, h1, h2, h3⟩ := hfree.flatInitVMM (by omega) rfl hnone
  exact ⟨hall, q, by omega, by omega, h3⟩

end Grants

end Pros
