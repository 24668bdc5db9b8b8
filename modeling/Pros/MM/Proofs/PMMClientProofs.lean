import Pros.MM.PMMClient
import Pros.MM.Proofs.PMMProofs

/-!
# The frame allocator hands out each block once

The invariant of a run is `FrameInv`: the first 512 bits are set, the live runs are disjoint, lie above
them, and have their bits set. `getFreePhysicalPage` takes a run of clear bits, which is therefore apart
from all of these.
-/

namespace Pros

open PMM

section Calls

variable {s : PMM} {size : U32} {f : ℕ}

theorem searchBound_le : searchBound s ≤ 32 * 32767 := by
  have h : (s.memorySize / 32 / 4096).toNat = s.memorySize.toNat / 32 / 4096 := by
    simp only [BitVec.toNat_udiv]; rfl
  have hlt := s.memorySize.isLt
  unfold searchBound
  omega

/-- The address that `getFreePhysicalPage` makes of a frame. -/
theorem frame_address : BitVec.ofNat 32 f * BLOCK_SIZE = ptr (f * 4096) := by
  rw [show BLOCK_SIZE = BitVec.ofNat 32 4096 from rfl, ← BitVec.ofNat_mul]
  rfl

/-- What `getFreePhysicalPage` can do. -/
theorem getFreePhysicalPage_cases (s : PMM) (size : U32) :
    (AllocFails s size ∧ s.getFreePhysicalPage size = (nullptr, s)) ∨
    ∃ f, ¬ AllocFails s size ∧ size ≠ 0 ∧ FirstFree s.memoryMap (searchBound s) size.toNat f ∧
      s.getFreePhysicalPage size = (ptr (f * 4096),
        { s with
          memoryMap := setBits s.memoryMap f size.toNat
          usedBlocks := s.usedBlocks + size }) := by
  rw [getFreePhysicalPage]
  by_cases hguard : s.getFreeBlockCount ≤ 0
  · rw [if_pos hguard]
    refine Or.inl ⟨Or.inl ?_, rfl⟩
    apply BitVec.eq_of_toNat_eq
    rw [BitVec.le_def] at hguard
    simpa using hguard
  · rw [if_neg hguard]
    have hcount : s.getFreeBlockCount ≠ 0 := by
      intro h
      rw [h] at hguard
      exact hguard (by decide)
    cases hfind : s.firstFreePhysicalPagesBits size with
    | none => exact Or.inl ⟨Or.inr hfind, rfl⟩
    | some f =>
      have hsize : size ≠ 0 := by
        rintro rfl
        rw [firstFreePhysicalPagesBits, if_pos rfl] at hfind
        cases hfind
      refine Or.inr ⟨f, ?_, hsize, (firstFree_iff hsize).mp hfind, ?_⟩
      · rintro (h | h)
        · exact hcount h
        · rw [hfind] at h; cases h
      · simp only [frame_address]

/-- The frame of a run that was found, read off its address. -/
theorem PMM.FirstFree.toNat_address {n : ℕ} (h : FirstFree s.memoryMap (searchBound s) n f) :
    (ptr (f * 4096)).toNat = f * 4096 := by
  have hbound := @searchBound_le s
  have hlt := h.1
  exact toNat_ptr_of_lt (by omega)

theorem PMM.FirstFree.runBlocks_eq (h : FirstFree s.memoryMap (searchBound s) size.toNat f) :
    runBlocks (ptr (f * 4096), size) = Set.Ico f (f + size.toNat) := by
  unfold runBlocks
  rw [h.toNat_address, Nat.mul_div_cancel _ (by omega)]

/-- A free run begins above blocks that are in use. -/
theorem PMM.FirstFree.le_of_used {map : Memory ℕ} {bound n k : ℕ} (h : FirstFree map bound n f) (hn : 0 < n)
    (hused : ∀ b < k, map.bit b = true) : k ≤ f := by
  by_contra hlt
  have hset := hused f (by omega)
  rw [h.2.1.bit hn] at hset
  cases hset

theorem freePage_memoryMap (p : U32) :
    (s.freePage p size).memoryMap = unsetBits s.memoryMap (p.toNat / 4096) size.toNat := by
  rw [freePage, BitVec.toNat_udiv]
  rfl

/-- Giving back what was just handed out. -/
theorem freePage_getFreePhysicalPage (h : FirstFree s.memoryMap (searchBound s) size.toNat f) :
    SameUse s (freePage
      { s with
        memoryMap := setBits s.memoryMap f size.toNat
        usedBlocks := s.usedBlocks + size } (ptr (f * 4096)) size) := by
  constructor
  · apply Memory.byte_eq_of_bit_eq
    intro b
    rw [freePage_memoryMap, bit_unsetBits, bit_setBits, h.toNat_address, Nat.mul_div_cancel _ (by omega)]
    split_ifs with hb
    · exact (h.2.1 b hb.1 hb.2).symm
    · rfl
  · show s.usedBlocks + size - size = s.usedBlocks
    ring

/-- Bits that are set stay set when a run is handed out. -/
theorem bit_getFreePhysicalPage {b : ℕ} (hb : s.memoryMap.bit b = true) :
    (s.getFreePhysicalPage size).2.memoryMap.bit b = true := by
  rcases getFreePhysicalPage_cases s size with ⟨-, heq⟩ | ⟨f, -, -, -, heq⟩
  · rw [heq]
    exact hb
  · rw [heq, bit_setBits, hb, ite_self]

/-- A request for one block takes the first free block. -/
theorem getFreePhysicalPage_one (hres : ∀ b < 512, s.memoryMap.bit b = true) :
    s.getFreePhysicalPage 1 = (nullptr, s) ∨
    ∃ t, (s.getFreePhysicalPage 1).1 = ptr (t * 4096) ∧ 512 ≤ t ∧ t < 2 ^ 20 - 1 ∧
      s.memoryMap.bit t = false ∧ (∀ b < t, s.memoryMap.bit b = true) ∧
      ∀ b, (s.getFreePhysicalPage 1).2.memoryMap.bit b = if b = t then true else s.memoryMap.bit b := by
  rcases getFreePhysicalPage_cases s 1 with ⟨-, heq⟩ | ⟨t, -, -, hfirst, heq⟩
  · exact Or.inl heq
  · have hone : (1 : U32).toNat = 1 := rfl
    rw [hone] at hfirst heq
    have hbound := @searchBound_le s
    have hlt := hfirst.1
    refine Or.inr ⟨t, by rw [heq], hfirst.le_of_used (by omega) hres, by omega,
      hfirst.2.1.bit (by omega), fun b hb => ?_, fun b => ?_⟩
    · by_contra hclear
      refine hfirst.2.2 b hb ?_
      intro x h1 h2
      obtain rfl : x = b := by omega
      exact Bool.eq_false_of_not_eq_true hclear
    · rw [heq, bit_setBits]
      have hiff : (t ≤ b ∧ b < t + 1) ↔ b = t := by omega
      simp only [hiff]

end Calls

/-- The invariant of a client's run. -/
structure FrameInv (c : FrameClient) : Prop where
  reserved : ∀ b < 512, c.pmm.memoryMap.bit b = true
  disjoint : c.live.Pairwise fun x y => Disjoint (runBlocks x) (runBlocks y)
  used : ∀ x ∈ c.live, ∀ b ∈ runBlocks x, c.pmm.memoryMap.bit b = true
  above : ∀ x ∈ c.live, 512 ≤ x.1.toNat / 4096

section Run

variable {c c' : FrameClient} {op : FrameOp} {s : PMM} {entries : List MmapEntry}

/-- What a request for a run does. -/
theorem FrameClient.step_alloc {size : U32} (hstep : c.Step (.getFreePhysicalPage size) c') :
    c' = c ∨ ∃ f, size ≠ 0 ∧ FirstFree c.pmm.memoryMap (searchBound c.pmm) size.toNat f ∧
      c' = ⟨{ c.pmm with
          memoryMap := setBits c.pmm.memoryMap f size.toNat
          usedBlocks := c.pmm.usedBlocks + size },
        if ptr (f * 4096) = nullptr then c.live else (ptr (f * 4096), size) :: c.live⟩ := by
  unfold FrameClient.Step at hstep
  rcases getFreePhysicalPage_cases c.pmm size with ⟨-, heq⟩ | ⟨f, -, hsize, hfirst, heq⟩
  · rw [FrameClient.step, heq] at hstep
    simp only [if_true] at hstep
    exact Or.inl (Option.some.inj hstep).symm
  · rw [FrameClient.step, heq] at hstep
    exact Or.inr ⟨f, hsize, hfirst, (Option.some.inj hstep).symm⟩

/-- What giving back a run does. -/
theorem FrameClient.step_free {p size : U32} (hstep : c.Step (.freePage p size) c') :
    (p, size) ∈ c.live ∧ c' = ⟨c.pmm.freePage p size, c.live.erase (p, size)⟩ := by
  unfold FrameClient.Step at hstep
  rw [FrameClient.step] at hstep
  split_ifs at hstep with hmem
  exact ⟨hmem, (Option.some.inj hstep).symm⟩

/-- Reserving the first 2 MiB sets the first 512 bits. -/
theorem bit_setRegionUsed_low (s : PMM) (b : ℕ) :
    (s.setRegionUsed 0x00000000 (MB 2)).memoryMap.bit b = (decide (b < 512) || s.memoryMap.bit b) := by
  have hblocks : (MB 2 / BLOCK_SIZE).toNat = 512 := by decide
  have hbase : ((0x00000000 : U32) / BLOCK_SIZE).toNat = 0 := by decide
  rw [setRegionUsed]
  simp only [hblocks, hbase, bit_setBit, bit_useBlocks]
  by_cases hb : b < 512
  · rw [decide_eq_true hb, Bool.true_or, if_pos (show 0 ≤ b ∧ b < 0 + 512 by omega), ite_self]
  · rw [decide_eq_false hb, Bool.false_or, if_neg (show ¬ b = 0 by omega),
      if_neg (show ¬ (0 ≤ b ∧ b < 0 + 512) by omega)]

/-- That is the last thing `initPMM` does. -/
theorem initPMM_reserved {b : ℕ} (hb : b < 512) : (s.initPMM entries).memoryMap.bit b = true := by
  rw [initPMM, bit_setRegionUsed_low, decide_eq_true hb, Bool.true_or]

theorem FrameInv.boot : FrameInv (.boot s entries) where
  reserved := fun _ => initPMM_reserved
  disjoint := List.Pairwise.nil
  used := by intro x hx; cases hx
  above := by intro x hx; cases hx

theorem FrameInv.alloc {size : U32} (h : FrameInv c)
    (hstep : c.Step (.getFreePhysicalPage size) c') : FrameInv c' := by
  obtain rfl | ⟨f, hsize, hfirst, rfl⟩ := FrameClient.step_alloc hstep
  · exact h
  · have hn := toNat_pos_of_ne_zero hsize
    have hf : 512 ≤ f := hfirst.le_of_used hn h.reserved
    have hnull : ptr (f * 4096) ≠ nullptr := by
      intro hz
      have hz' := hfirst.toNat_address
      rw [hz] at hz'
      have h0 : nullptr.toNat = 0 := rfl
      omega
    rw [if_neg hnull]
    refine ⟨fun b hb => ?_, List.Pairwise.cons (fun y hy => ?_) h.disjoint, fun x hx b hb => ?_,
      fun x hx => ?_⟩
    · simp only [bit_setBits, h.reserved b hb, ite_self]
    · rw [hfirst.runBlocks_eq, Set.disjoint_left]
      intro b hb hby
      have hset := h.used y hy b hby
      rw [hfirst.2.1 b hb.1 hb.2] at hset
      cases hset
    · simp only [bit_setBits]
      rcases List.mem_cons.mp hx with rfl | hx
      · rw [hfirst.runBlocks_eq] at hb
        exact if_pos hb
      · rw [h.used x hx b hb, ite_self]
    · rcases List.mem_cons.mp hx with rfl | hx
      · show 512 ≤ (ptr (f * 4096)).toNat / 4096
        rw [hfirst.toNat_address]
        omega
      · exact h.above x hx

theorem FrameInv.free {p size : U32} (h : FrameInv c) (hstep : c.Step (.freePage p size) c') :
    FrameInv c' := by
  obtain ⟨hmem, rfl⟩ := FrameClient.step_free hstep
  have hperm := List.perm_cons_erase hmem
  have hdisj := (hperm.pairwise_iff fun h => Disjoint.symm h).mp h.disjoint
  have habove := h.above _ hmem
  refine ⟨fun b hb => ?_, (List.pairwise_cons.mp hdisj).2, fun x hx b hb => ?_, fun x hx => ?_⟩
  · simp only [freePage_memoryMap, bit_unsetBits]
    rw [if_neg (by simp only at habove; omega), h.reserved b hb]
  · have hb' : ¬ (p.toNat / 4096 ≤ b ∧ b < p.toNat / 4096 + size.toNat) :=
      Set.disjoint_right.mp ((List.pairwise_cons.mp hdisj).1 x hx) hb
    simp only [freePage_memoryMap, bit_unsetBits]
    rw [if_neg hb', h.used x (List.mem_of_mem_erase hx) b hb]
  · exact h.above x (List.mem_of_mem_erase hx)

theorem FrameInv.step (h : FrameInv c) (hstep : c.Step op c') : FrameInv c' := by
  cases op with
  | getFreePhysicalPage size => exact h.alloc hstep
  | freePage p size => exact h.free hstep

theorem FrameInv.exclusive (h : FrameInv c) : Exclusive c where
  disjoint := h.disjoint
  used := by
    intro x hx b hb
    rw [testBit_eq]
    exact h.used x hx b hb
  reserved := by
    intro x hx b hb
    exact (h.above x hx).trans hb.1

theorem FrameInv.allocSpec (h : FrameInv c) (size : U32) : AllocSpec c.pmm size := by
  rcases getFreePhysicalPage_cases c.pmm size with ⟨hfail, heq⟩ | ⟨f, hok, hsize, hfirst, heq⟩
  · constructor
    · simp [heq, hfail]
    · intro _
      rw [heq]
    · intro hne
      exact absurd (by rw [heq]) hne
    · intro hne
      exact absurd (by rw [heq]) hne
  · have hf : 512 ≤ f := hfirst.le_of_used (toNat_pos_of_ne_zero hsize) h.reserved
    have hblock : (c.pmm.getFreePhysicalPage size).1.toNat / 4096 = f := by
      rw [heq, hfirst.toNat_address, Nat.mul_div_cancel _ (by omega)]
    have hnull : (c.pmm.getFreePhysicalPage size).1 ≠ nullptr := by
      intro hz
      rw [hz, show nullptr.toNat = 0 from rfl] at hblock
      omega
    constructor
    · simp [hnull, hok]
    · intro hz
      exact absurd hz hnull
    · intro _
      omega
    · intro _
      rw [heq]
      exact freePage_getFreePhysicalPage hfirst

/-- Exclusivity of the frame allocator. In every state that a run of allocations and releases reaches
    from a boot on any memory map, the live runs are exclusive, and every request meets its
    specification. -/
theorem frame_allocator_exclusive {ops : List FrameOp}
    (hrun : Run FrameClient.Step (.boot s entries) ops c) :
    Exclusive c ∧ ∀ size, AllocSpec c.pmm size := by
  have h : FrameInv c := hrun.invariant .boot fun _ _ _ h hstep => h.step hstep
  exact ⟨h.exclusive, h.allocSpec⟩

/-- With three free blocks behind the first 2 MiB, two requests are granted, the second one behind the first. -/
theorem frame_allocator_exclusive_two : ∃ c,
    Run FrameClient.Step (.boot ⟨0x220000, 0, 0, { byte := fun _ => 0 }⟩
      [⟨0x200000, 0, 0x3000, 0, MULTIBOOT_MEMORY_AVAILABLE⟩]) [.getFreePhysicalPage 2, .getFreePhysicalPage 1] c ∧
    c.live = [(0x202000, 1), (0x200000, 2)] ∧ Exclusive c ∧ ∀ size, AllocSpec c.pmm size := by
  -- The state is compared by what is live in it.
  have hlive : ((FrameClient.boot ⟨0x220000, 0, 0, { byte := fun _ => 0 }⟩
      [⟨0x200000, 0, 0x3000, 0, MULTIBOOT_MEMORY_AVAILABLE⟩]).step (.getFreePhysicalPage 2) >>=
        fun c => c.step (.getFreePhysicalPage 1)).map FrameClient.live = some [(0x202000, 1), (0x200000, 2)] := by
    decide +kernel
  obtain ⟨c, hc, hlive⟩ := Option.map_eq_some_iff.mp hlive
  obtain ⟨c₁, h₁, h₂⟩ := Option.bind_eq_some_iff.mp hc
  have hrun : Run FrameClient.Step _ [.getFreePhysicalPage 2, .getFreePhysicalPage 1] c :=
    .snoc _ (.snoc _ .nil h₁) h₂
  exact ⟨c, hrun, hlive, frame_allocator_exclusive hrun⟩

end Run

end Pros
