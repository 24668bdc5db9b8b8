import Pros.MM.BootMap
import Pros.MM.Proofs.PMMClientProofs

/-!
# The bitmap and the counter after booting

`initPMM` decides the bit of each block from the entries that cover it (`bit_initPMM`), and its counter
from their lengths (`usedBlocks_initPMM`). From the first follows exactly when the blocks marked free are
memory, from the second exactly when counter and bitmap agree.
-/

namespace Pros

open PMM

section Boot

variable {s : PMM} {e : MmapEntry} {entries : List MmapEntry} {b : ℕ}

theorem toNat_div_BLOCK_SIZE (x : U32) : (x / BLOCK_SIZE).toNat = x.toNat / 4096 := by
  rw [BitVec.toNat_udiv]
  rfl

/-- The entry's type is only asked whether it is `MULTIBOOT_MEMORY_AVAILABLE`. -/
theorem setRegion_eq : setRegion s e =
    if e.Available then setRegionFree s e.addr_low e.len_low
    else setRegionUsed s e.addr_low e.len_low := by
  unfold setRegion MmapEntry.Available
  simp only [ite_self]
  rfl

theorem bit_setRegion (hb : 0 < b) :
    (setRegion s e).memoryMap.bit b = mark b (s.memoryMap.bit b) e := by
  have hne : b ≠ 0 := by omega
  rw [setRegion_eq]
  unfold mark MmapEntry.Covers
  by_cases ha : e.Available
  · rw [if_pos ha, decide_eq_true ha, setRegionFree]
    simp only [bit_freeBlocks, toNat_div_BLOCK_SIZE, Bool.not_true]
  · rw [if_neg ha, decide_eq_false ha, setRegionUsed]
    simp only [bit_setBit, bit_useBlocks, toNat_div_BLOCK_SIZE, if_neg hne, Bool.not_false]

theorem bit_foldl_setRegion (hb : 0 < b) : (entries.foldl setRegion s).memoryMap.bit b =
    entries.foldl (mark b) (s.memoryMap.bit b) := by
  induction entries generalizing s with
  | nil => rfl
  | cons e entries ih => rw [List.foldl_cons, ih, bit_setRegion hb, List.foldl_cons]

theorem counts_setRegion : (setRegion s e).memorySize = s.memorySize ∧
    (setRegion s e).maxBlocks = s.maxBlocks ∧
    (setRegion s e).usedBlocks = s.usedBlocks +
      if e.Available then e.len_low / BLOCK_SIZE else -(e.len_low / BLOCK_SIZE) := by
  rw [setRegion_eq]
  by_cases ha : e.Available
  · have h := @counts_freeBlocks s (e.addr_low / BLOCK_SIZE).toNat (e.len_low / BLOCK_SIZE).toNat
    rw [BitVec.ofNat_toNat, BitVec.setWidth_eq] at h
    rw [if_pos ha, if_pos ha]
    exact h
  · have h := @counts_useBlocks s (e.addr_low / BLOCK_SIZE).toNat (e.len_low / BLOCK_SIZE).toNat
    rw [BitVec.ofNat_toNat, BitVec.setWidth_eq, BitVec.sub_eq_add_neg] at h
    rw [if_neg ha, if_neg ha]
    exact h

theorem counts_foldl_setRegion : (entries.foldl setRegion s).memorySize = s.memorySize ∧
    (entries.foldl setRegion s).maxBlocks = s.maxBlocks ∧
    (entries.foldl setRegion s).usedBlocks = s.usedBlocks + countedBlocks entries := by
  induction entries generalizing s with
  | nil => exact ⟨rfl, rfl, (BitVec.add_zero _).symm⟩
  | cons e entries ih =>
    obtain ⟨h1, h2, h3⟩ := @ih (setRegion s e)
    obtain ⟨g1, g2, g3⟩ := @counts_setRegion s e
    refine ⟨h1.trans g1, h2.trans g2, h3.trans ?_⟩
    rw [g3, countedBlocks, BitVec.add_assoc]

theorem memorySize_initPMM : (s.initPMM entries).memorySize = s.memorySize := by
  rw [initPMM, setRegionUsed]
  simp only [counts_useBlocks.1, counts_foldl_setRegion.1]
  rfl

theorem maxBlocks_initPMM : (s.initPMM entries).maxBlocks = s.memorySize / BLOCK_SIZE := by
  rw [initPMM, setRegionUsed]
  simp only [counts_useBlocks.2.1, counts_foldl_setRegion.2.1]
  rfl

theorem toNat_maxBlocks_initPMM :
    (s.initPMM entries).maxBlocks.toNat = s.memorySize.toNat / 4096 := by
  rw [maxBlocks_initPMM, toNat_div_BLOCK_SIZE]

theorem usedBlocks_initPMM : (s.initPMM entries).usedBlocks =
    s.memorySize / BLOCK_SIZE + countedBlocks entries - 512 := by
  rw [initPMM, setRegionUsed]
  simp only [counts_useBlocks.2.2, counts_foldl_setRegion.2.2]
  rfl

/-- The fill sets the lower half of each byte, and begins with the second byte. -/
theorem bit_fill (h8 : 8 ≤ b) : (fill s).memoryMap.bit b =
    if b / 8 ≤ s.memorySize.toNat / 4096 / 8 then decide (b % 8 < 4) else s.memoryMap.bit b := by
  have hcount : (s.memorySize / BLOCK_SIZE / BLOCKS_PER_BYTE).toNat = s.memorySize.toNat / 4096 / 8 := by
    rw [BitVec.toNat_udiv, toNat_div_BLOCK_SIZE]
    rfl
  rw [fill, hcount]
  split_ifs with hb
  · have hbyte := byte_memset_add s.memoryMap 0 (0xF : U8) (show 1 ≤ b / 8 by omega) hb
    rw [Nat.zero_add, Nat.cast_id] at hbyte
    have hbits : ∀ j < 8, (0xF : U8).getLsbD j = decide (j < 4) := by decide
    rw [Memory.bit_of_byte hbyte, hbits _ (by omega)]
  · apply Memory.bit_of_byte
    refine byte_memset_of_ne ?_
    intro i _ hi heq
    rw [Nat.zero_add, Nat.cast_id] at heq
    omega

/-- Above the first 2 MiB the entries overwrite the fill in turn. -/
theorem bit_initPMM_of_le (h512 : 512 ≤ b) : (s.initPMM entries).memoryMap.bit b =
    entries.foldl (mark b) ((fill s).memoryMap.bit b) := by
  rw [initPMM, bit_setRegionUsed_low, decide_eq_false (by omega), Bool.false_or, bit_foldl_setRegion (by omega)]

/-- The bitmap after `initPMM`, below `maxBlocks`. -/
theorem bit_initPMM (hb : b < s.memorySize.toNat / 4096) :
    (s.initPMM entries).memoryMap.bit b = bootUsed entries b := by
  unfold bootUsed
  by_cases hlow : b < 512
  · rw [initPMM_reserved hlow, decide_eq_true hlow, Bool.true_or]
  · rw [decide_eq_false hlow, Bool.false_or, bit_initPMM_of_le (by omega), bit_fill (by omega),
      if_pos (by omega)]

/-! ## Which blocks are free -/

theorem uncovered_append : Uncovered (entries ++ [e]) b ↔ Uncovered entries b ∧ ¬ e.Covers b := by
  unfold Uncovered
  simp only [List.mem_append, List.mem_singleton, or_imp, forall_and, forall_eq]

theorem lastCover_append {d : MmapEntry} : LastCover (entries ++ [e]) b d ↔
    e.Covers b ∧ d = e ∨ ¬ e.Covers b ∧ LastCover entries b d := by
  constructor
  · rintro ⟨before, after, heq, hd, hafter⟩
    rcases List.eq_nil_or_concat after with rfl | ⟨after, e', rfl⟩
    · obtain ⟨-, he⟩ := List.append_inj' heq rfl
      obtain rfl := List.singleton_inj.mp he
      exact Or.inl ⟨hd, rfl⟩
    · rw [List.concat_eq_append] at heq hafter
      rw [← List.cons_append, ← List.append_assoc] at heq
      obtain ⟨hentries, he⟩ := List.append_inj' heq rfl
      obtain rfl := List.singleton_inj.mp he
      refine Or.inr ⟨hafter e (by simp), before, after, hentries, hd, fun e' he' => hafter e' ?_⟩
      exact List.mem_append_left _ he'
  · rintro (⟨he, rfl⟩ | ⟨he, before, after, rfl, hd, hafter⟩)
    · exact ⟨entries, [], rfl, he, by simp⟩
    · refine ⟨before, after ++ [e], by simp, hd, fun e' he' => ?_⟩
      rcases List.mem_append.mp he' with h | h
      · exact hafter e' h
      · obtain rfl := List.mem_singleton.mp h
        exact he

/-- The last cover of a block decides its bit, or what was there before if there is none. -/
theorem foldl_mark_eq {used v : Bool} : entries.foldl (mark b) used = v ↔
    (∃ e, LastCover entries b e ∧ (!decide e.Available) = v) ∨ Uncovered entries b ∧ used = v := by
  induction entries using List.reverseRecOn with
  | nil =>
    have hnone : ¬ ∃ e, LastCover [] b e ∧ (!decide e.Available) = v := by
      rintro ⟨e, ⟨before, after, h, -⟩, -⟩
      simp at h
    rw [or_iff_right hnone]
    simp [Uncovered]
  | append_singleton entries e ih =>
    rw [List.foldl_append, List.foldl_cons, List.foldl_nil, mark, uncovered_append]
    simp only [lastCover_append]
    by_cases hc : e.Covers b
    · simp [hc]
    · simp [hc, ih]

/-- A block is left free by its last cover, or by the fill if there is none. -/
theorem foldl_mark_eq_false {used : Bool} : entries.foldl (mark b) used = false ↔
    (∃ e, LastCover entries b e ∧ e.Available) ∨ Uncovered entries b ∧ used = false := by
  simp only [foldl_mark_eq, Bool.not_eq_false', decide_eq_true_eq]

/-- A block is left in use by its last cover, or by the fill if there is none. -/
theorem foldl_mark_eq_true {used : Bool} : entries.foldl (mark b) used = true ↔
    (∃ e, LastCover entries b e ∧ ¬ e.Available) ∨ Uncovered entries b ∧ used = true := by
  simp only [foldl_mark_eq, Bool.not_eq_true', decide_eq_false_iff_not]

/-- The blocks that `initPMM` leaves free are available memory exactly when the map is one it handles. -/
theorem freeBlocksSound_iff :
    FreeBlocksSound (s.initPMM entries) entries ↔ MapHandled s.memorySize entries := by
  have hfree : ∀ b, 512 ≤ b → b < s.memorySize.toNat / 4096 →
      (testBit (s.initPMM entries).memoryMap b = false ↔
        (∃ e, LastCover entries b e ∧ e.Available) ∨ Uncovered entries b ∧ 4 ≤ b % 8) := by
    intro b h512 hb
    rw [testBit_eq, bit_initPMM hb, bootUsed, decide_eq_false (by omega), Bool.false_or,
      foldl_mark_eq_false, decide_eq_false_iff_not, Nat.not_lt]
  unfold FreeBlocksSound
  rw [toNat_maxBlocks_initPMM]
  constructor
  · intro h
    constructor
    · intro b h512 hb hun hhigh
      exact (h b hb ((hfree b h512 hb).mpr (Or.inr ⟨hun, hhigh⟩))).2
    · intro b e h512 hb hlast ha
      exact (h b hb ((hfree b h512 hb).mpr (Or.inl ⟨e, hlast, ha⟩))).2
  · intro h b hb hbit
    have h512 : 512 ≤ b := by
      by_contra hlt
      rw [testBit_eq, initPMM_reserved (by omega)] at hbit
      cases hbit
    refine ⟨h512, ?_⟩
    rcases (hfree b h512 hb).mp hbit with ⟨e, hlast, ha⟩ | ⟨hun, hhigh⟩
    · exact h.covered b e h512 hb hlast ha
    · exact h.uncovered b h512 hb hun hhigh

/-- Memory with a hole between 4 MiB and 16 MiB: block 1028, inside the hole, is marked free. -/
theorem hole_marked_free :
    ¬ FreeBlocksSound
      (PMM.init (.zero { byte := fun _ => 0 })
        [⟨0, 0, 0x400000, 0, MULTIBOOT_MEMORY_AVAILABLE⟩,
          ⟨0x1000000, 0, 0xC00000, 0, MULTIBOOT_MEMORY_AVAILABLE⟩])
      [⟨0, 0, 0x400000, 0, MULTIBOOT_MEMORY_AVAILABLE⟩,
        ⟨0x1000000, 0, 0xC00000, 0, MULTIBOOT_MEMORY_AVAILABLE⟩] := by
  unfold PMM.init
  rw [freeBlocksSound_iff]
  intro h
  obtain ⟨⟨e, he, -, hx⟩, -⟩ := h.uncovered 1028 (by decide) (by decide)
    (by unfold Uncovered; decide) (by decide) (4096 * 1028) (by unfold blockBytes; simp)
  unfold MmapEntry.bytes at hx
  rcases List.mem_cons.mp he with rfl | he
  · exact absurd hx.2 (by decide)
  · obtain rfl := List.mem_singleton.mp he
    exact absurd hx.1 (by decide)

/-! ## Counting blocks -/

/-- Booting leaves counter and bitmap in agreement exactly when the map is balanced. -/
theorem usedBlocks_iff : (s.initPMM entries).usedBlocks.toNat =
      Nat.count (fun b => testBit (s.initPMM entries).memoryMap b = true)
        (s.initPMM entries).maxBlocks.toNat ↔
    MapBalanced s.memorySize entries := by
  have hcount : Nat.count (fun b => testBit (s.initPMM entries).memoryMap b = true)
      (s.initPMM entries).maxBlocks.toNat =
      Nat.count (fun b => bootUsed entries b = true) (s.memorySize.toNat / 4096) := by
    rw [toNat_maxBlocks_initPMM]
    apply Bitmap.count_congr
    intro b hb
    rw [testBit_eq, bit_initPMM hb]
  rw [hcount, usedBlocks_initPMM]
  rfl

end Boot

section Accounting

variable {s : PMM} {c c' : FrameClient} {op : FrameOp} {entries : List MmapEntry}

/-- Everything else about the counter follows from its being the number of set bits. -/
theorem accounted_of_used (h : s.usedBlocks.toNat =
    Nat.count (fun b => testBit s.memoryMap b = true) s.maxBlocks.toNat) : Accounted s := by
  have hle : s.usedBlocks.toNat ≤ s.maxBlocks.toNat := h.trans_le (Nat.count_le _)
  have hfree : s.getFreeBlockCount.toNat =
      Nat.count (fun b => ¬ testBit s.memoryMap b = true) s.maxBlocks.toNat := by
    have hsum := Bitmap.count_not (p := fun b => testBit s.memoryMap b = true) s.maxBlocks.toNat
    rw [getFreeBlockCount, BitVec.toNat_sub_of_le (BitVec.le_def.mpr hle)]
    omega
  refine ⟨h, hle, hfree, ?_⟩
  rw [BitVec.le_def, hfree, show (0 : U32).toNat = 0 from rfl, Nat.le_zero, Nat.count_iff_forall_not]
  simp only [not_not]

/-- The invariant of a run whose requests are met inside the memory. -/
structure CountInv (c : FrameClient) : Prop extends FrameInv c where
  used_eq : c.pmm.usedBlocks.toNat =
    Nat.count (fun b => testBit c.pmm.memoryMap b = true) c.pmm.maxBlocks.toNat
  inside : ∀ x ∈ c.live, x.1.toNat / 4096 + x.2.toNat ≤ c.pmm.maxBlocks.toNat

theorem CountInv.boot (h : MapBalanced s.memorySize entries) : CountInv (.boot s entries) where
  toFrameInv := .boot
  used_eq := usedBlocks_iff.mpr h
  inside := by intro x hx; cases hx

theorem CountInv.alloc {size : U32} (h : CountInv c) (hstep : c.Step (.getFreePhysicalPage size) c')
    (hin : RunsInside c (.getFreePhysicalPage size)) : CountInv c' := by
  have hframe := h.toFrameInv.alloc hstep
  obtain rfl | ⟨f, hsize, hfirst, rfl⟩ := FrameClient.step_alloc hstep
  · exact h
  · have hfit := hin f hfirst
    have hlt := c.pmm.maxBlocks.isLt
    have hcount : Nat.count (fun b => testBit (setBits c.pmm.memoryMap f size.toNat) b = true)
        c.pmm.maxBlocks.toNat = c.pmm.usedBlocks.toNat + size.toNat := by
      rw [h.used_eq]
      apply Bitmap.count_add_run hfit
      · intro b h1 h2
        rw [testBit_eq, hfirst.2.1 b h1 h2]
        decide
      · intro b
        rw [testBit_eq, testBit_eq, bit_setBits]
        split_ifs with hb <;> simp [hb]
    have hle : Nat.count (fun b => testBit (setBits c.pmm.memoryMap f size.toNat) b = true)
        c.pmm.maxBlocks.toNat ≤ c.pmm.maxBlocks.toNat := Nat.count_le _
    refine ⟨hframe, ?_, fun x hx => ?_⟩
    · simp only
      rw [hcount, BitVec.toNat_add_of_lt (by omega)]
    · simp only at hx
      split_ifs at hx with hnull
      · exact h.inside x hx
      · rcases List.mem_cons.mp hx with rfl | hx
        · show (ptr (f * 4096)).toNat / 4096 + size.toNat ≤ c.pmm.maxBlocks.toNat
          rw [hfirst.toNat_address, Nat.mul_div_cancel _ (by omega)]
          exact hfit
        · exact h.inside x hx

theorem CountInv.free {p size : U32} (h : CountInv c) (hstep : c.Step (.freePage p size) c') :
    CountInv c' := by
  have hframe := h.toFrameInv.free hstep
  obtain ⟨hmem, rfl⟩ := FrameClient.step_free hstep
  have hcount : Nat.count (fun b => testBit c.pmm.memoryMap b = true) c.pmm.maxBlocks.toNat =
      Nat.count (fun b => testBit (c.pmm.freePage p size).memoryMap b = true)
        c.pmm.maxBlocks.toNat + size.toNat := by
    have hused : ∀ b, p.toNat / 4096 ≤ b → b < p.toNat / 4096 + size.toNat →
        c.pmm.memoryMap.bit b = true := fun b h1 h2 => h.used _ hmem b ⟨h1, h2⟩
    apply Bitmap.count_add_run (h.inside _ hmem)
    · intro b h1 h2
      rw [testBit_eq, freePage_memoryMap, bit_unsetBits, if_pos ⟨h1, h2⟩]
      decide
    · intro b
      rw [testBit_eq, testBit_eq, freePage_memoryMap, bit_unsetBits]
      split_ifs with hb
      · simp [hb, hused b hb.1 hb.2]
      · simp [hb]
  refine ⟨hframe, ?_, fun x hx => h.inside x (List.mem_of_mem_erase hx)⟩
  show (c.pmm.usedBlocks - size).toNat =
    Nat.count (fun b => testBit (c.pmm.freePage p size).memoryMap b = true) c.pmm.maxBlocks.toNat
  have hused := h.used_eq
  rw [BitVec.toNat_sub_of_le (BitVec.le_def.mpr (by omega))]
  omega

theorem CountInv.step (h : CountInv c) (hstep : c.Step op c') (hin : RunsInside c op) :
    CountInv c' := by
  cases op with
  | getFreePhysicalPage size => exact h.alloc hstep hin
  | freePage p size => exact h.free hstep

/-- Counter and bitmap agree in every state of every run whose requests are met inside the memory,
    exactly when the memory map is balanced. -/
theorem block_accounting_iff :
    (∀ ops c, Run (fun c op c' => c.Step op c' ∧ RunsInside c op) (.boot s entries) ops c →
      Accounted c.pmm) ↔ MapBalanced s.memorySize entries := by
  constructor
  · intro h
    exact usedBlocks_iff.mp (h [] _ .nil).used_eq
  · intro h ops c hrun
    have hinv : CountInv c := hrun.invariant (.boot h) fun _ _ _ h hstep => h.step hstep.1 hstep.2
    exact accounted_of_used hinv.used_eq

/-- On a PC with 16 MiB of available memory and nothing else, 7680 of 4096 blocks are in use after
    booting. -/
theorem usedBlocks_exceeds_maxBlocks :
    ¬ Accounted (PMM.init (.zero { byte := fun _ => 0 })
      [⟨0, 0, 0x1000000, 0, MULTIBOOT_MEMORY_AVAILABLE⟩]) := by
  intro h
  have hle := h.used_le
  unfold PMM.init at hle
  rw [usedBlocks_initPMM, toNat_maxBlocks_initPMM] at hle
  exact absurd hle (by decide)

end Accounting

end Pros
