import Pros.MM.OutOfFrames
import Pros.MM.Proofs.VMMGrantProofs

/-!
# What happens when frames run out

`mapPage` always leaves the directory entry of its page present, so that it changes memory whenever it is refused a
table. `initVMM` makes 260 requests and uses the frames of all but the last, so that it keeps off frame 0 exactly
when the first 259 are granted; the loop over the heap is followed round by round.
-/

namespace Pros

open MemoryManager PageEntry

/-! ## `mapPage` -/

section MapPage

variable {m : MemoryManager} {d : ℕ} {phys virt : U32}

theorem present_flatEnsureTable (hdir : m.currentPageDirectory = PHYS_2_VIRT (ptr (d * 4096))) (hd : d < 2 ^ 20) :
    present (word (m.flatEnsureTable virt).ram (1024 * d + dirIndex virt)) = true := by
  have hi := dirIndex_lt virt
  have he : VIRT_2_PHYS (m.directoryEntry virt) = ptr (4 * (1024 * d + dirIndex virt)) := directoryEntry_eq hdir
  rw [flatEnsureTable, he]
  cases hp : present (m.ram.load32 (ptr (4 * (1024 * d + dirIndex virt)))) with
  | true => exact hp
  | false =>
    rw [if_pos (by rfl), flatNewTable, word_flatSetEntry he (by omega) (by omega), if_pos rfl]
    exact present_entryWord _ _

/-- Whatever happens, the directory entry of the page is present afterwards. -/
theorem present_flatMapPage (hdir : m.currentPageDirectory = PHYS_2_VIRT (ptr (d * 4096))) (hd : d < 2 ^ 20) :
    present ((m.flatMapPage phys virt).walkDirectory virt) = true := by
  have hi := dirIndex_lt virt
  have hdir' : (m.flatMapPage phys virt).currentPageDirectory = PHYS_2_VIRT (ptr (d * 4096)) :=
    (dir_flatEnsureTable m virt).trans hdir
  rw [walkDirectory_eq hdir', (storesPage_flatMapPage hdir' phys).word_eq (by omega)]
  split_ifs
  · exact present_entryWord _ _
  · exact present_flatEnsureTable hdir hd

/-- Being refused a page table, `mapPage` never leaves memory alone. -/
theorem flatKeepsMemory_iff (hdir : m.currentPageDirectory = PHYS_2_VIRT (ptr (d * 4096))) (hd : d < 2 ^ 20) :
    FlatKeepsMemory m phys virt ↔ ¬ TableRefused m virt := by
  refine ⟨fun hkeeps hrefused => ?_, fun hno hrefused => absurd hrefused hno⟩
  have hdir' : (m.flatMapPage phys virt).directory = m.directory :=
    congrArg VIRT_2_PHYS (dir_flatEnsureTable m virt)
  have hsame : (m.flatMapPage phys virt).walkDirectory virt = m.walkDirectory virt := by
    rw [walkDirectory, walkDirectory, hdir']
    exact Memory.load32_congr fun _ _ => by rw [hkeeps hrefused]
  have hp : present ((m.flatMapPage phys virt).walkDirectory virt) = true := present_flatMapPage hdir hd
  rw [hsame, hrefused.1] at hp
  cases hp

/-- So it is for every page directory that begins at a page. -/
theorem flatKeepsMemory_of_aligned (halign : m.currentPageDirectory.toNat % 4096 = 0) :
    FlatKeepsMemory m phys virt ↔ ¬ TableRefused m virt := by
  have hgb : GB 3 = 0xC0000000 := by decide
  have hphys : (VIRT_2_PHYS m.currentPageDirectory).toNat % 4096 = 0 := by
    rw [VIRT_2_PHYS, hgb]
    bv_omega
  have hlt := (VIRT_2_PHYS m.currentPageDirectory).isLt
  have hdir : m.currentPageDirectory =
      PHYS_2_VIRT (ptr ((VIRT_2_PHYS m.currentPageDirectory).toNat / 4096 * 4096)) := by
    rw [Nat.div_mul_cancel (Nat.dvd_of_mod_eq_zero hphys), ptr_toNat, PHYS_2_VIRT, VIRT_2_PHYS,
      BitVec.sub_add_cancel]
  exact flatKeepsMemory_iff hdir (by omega)

end MapPage

/-! ## Requests for single blocks -/

section Blocks

variable {s : PMM} {n f : ℕ}

/-- `n` requests for a block, one after the other, are granted. -/
def Grants : ℕ → PMM → Prop
  | 0, _ => True
  | n + 1, s => (s.getFreePhysicalPage 1).1 ≠ nullptr ∧ Grants n (s.getFreePhysicalPage 1).2

/-- A set bit makes one free block less. -/
theorem count_setBit {bound : ℕ} (hf : s.memoryMap.bit f = false) (hlt : f < bound) :
    Nat.count (fun b => s.memoryMap.bit b = false) bound =
      Nat.count (fun b => (PMM.setBits s.memoryMap f 1).bit b = false) bound + 1 := by
  refine Bitmap.count_add_run (f := f) (by omega) (fun b h1 h2 => ?_) fun b => ?_
  · rw [PMM.bit_setBits, if_pos ⟨h1, h2⟩]
    exact Bool.true_eq_false_eq_False
  · rw [PMM.bit_setBits]
    split_ifs with h
    · obtain rfl : b = f := by omega
      exact iff_of_true hf (Or.inr h)
    · exact (or_iff_left h).symm

/-- A free block where the allocator searches can be found. -/
theorem exists_free {bound : ℕ} (h : 0 < Nat.count (fun b => s.memoryMap.bit b = false) bound) :
    ∃ b < bound, PMM.FreeRun s.memoryMap b 1 := by
  by_contra hno
  have hnone : Nat.count (fun b => s.memoryMap.bit b = false) bound = 0 := by
    refine Nat.count_iff_forall_not.mpr fun b hb hbit => hno ⟨b, hb, fun x h1 h2 => ?_⟩
    obtain rfl : x = b := by omega
    exact hbit
  omega

/-- A request is granted when there is a block, and leaves one block less. -/
theorem alloc_one (hres : ∀ b < 512, s.memoryMap.bit b = true) :
    ((s.getFreePhysicalPage 1).1 = nullptr ∧ ¬ HasBlocks s 1) ∨
    ((s.getFreePhysicalPage 1).1 ≠ nullptr ∧ HasBlocks s 1 ∧
      ∀ n, HasBlocks (s.getFreePhysicalPage 1).2 n ↔ HasBlocks s (n + 1)) := by
  rcases getFreePhysicalPage_cases s 1 with ⟨hfail, heq⟩ | ⟨f, hok, -, hfirst, heq⟩
  · refine Or.inl ⟨by rw [heq], fun ⟨hcounted, hfree⟩ => ?_⟩
    rcases hfail with hzero | hnone
    · rw [hzero] at hcounted
      exact absurd hcounted (by decide)
    · obtain ⟨b, hb, hrun⟩ := exists_free hfree
      exact (PMM.firstFree_none (by decide)).mp hnone b hb hrun
  · have hone : (1 : U32).toNat = 1 := rfl
    rw [hone] at hfirst heq
    have hlt := hfirst.1
    have hbound := @searchBound_le s
    have hf := hfirst.le_of_used (by omega) hres
    have hcount := count_setBit (hfirst.2.1.bit (by omega)) hlt
    have hcounted : (s.maxBlocks - (s.usedBlocks + 1)).toNat + 1 = s.getFreeBlockCount.toNat := by
      have hne : s.getFreeBlockCount.toNat ≠ 0 := fun h0 => hok (Or.inl (BitVec.eq_of_toNat_eq h0))
      have hsub : s.maxBlocks - (s.usedBlocks + 1) = s.getFreeBlockCount - 1 := by
        rw [PMM.getFreeBlockCount]
        ring
      rw [hsub, BitVec.toNat_sub_of_le (BitVec.le_def.mpr (by omega)), hone]
      omega
    refine Or.inr ⟨?_, ⟨by omega, by omega⟩, fun n => ⟨fun h => ?_, fun h => ?_⟩⟩
    · rw [heq]
      exact ptr_frame_ne_nullptr (by omega) (by omega)
    · rw [heq] at h
      exact ⟨(Nat.succ_le_succ h.counted).trans_eq hcounted, (Nat.succ_le_succ h.free).trans_eq hcount.symm⟩
    · rw [heq]
      exact ⟨Nat.le_of_succ_le_succ (h.counted.trans_eq hcounted.symm),
        Nat.le_of_succ_le_succ (h.free.trans_eq hcount)⟩

theorem grants_iff (hres : ∀ b < 512, s.memoryMap.bit b = true) : Grants n s ↔ HasBlocks s n := by
  induction n generalizing s with
  | zero => exact iff_of_true trivial ⟨Nat.zero_le _, Nat.zero_le _⟩
  | succ n ih =>
    rw [Grants, ih fun b hb => bit_getFreePhysicalPage (hres b hb)]
    rcases alloc_one hres with ⟨hnull, hno⟩ | ⟨hne, -, hnext⟩
    · refine iff_of_false (fun h => h.1 hnull) fun h => hno ?_
      exact ⟨le_trans (Nat.le_add_left 1 n) h.counted, le_trans (Nat.le_add_left 1 n) h.free⟩
    · rw [hnext n]
      exact and_iff_right hne

end Blocks

/-! ## The loop over the kernel heap -/

section Heap

variable {m : MemoryManager} {d k p n fuel : ℕ} {phys virt : U32}

theorem pageOf_frame_ne_zero (h0 : p ≠ 0) (hp : p < 2 ^ 20) : pageOf (ptr (p * 4096)) ≠ 0 := by
  rw [pageOf_frame hp]
  intro h
  have h' := congrArg BitVec.toNat h
  rw [BitVec.toNat_ofNat, Nat.mod_eq_of_lt (by omega)] at h'
  exact h0 h'

theorem pageOf_nullptr : pageOf nullptr = 0 := by decide

theorem flatHeapRounds_succ {P : MemoryManager → U32 → U32 → Prop} (hk : k < 256) :
    FlatHeapRounds P m phys (heapPage k) (fuel + 1) ↔ P m phys (heapPage k) ∧
      FlatHeapRounds P ((m.flatMapPage phys (heapPage k)).getFreePhysicalPage 1).2
        ((m.flatMapPage phys (heapPage k)).getFreePhysicalPage 1).1 (heapPage (k + 1)) fuel := by
  rw [FlatHeapRounds, if_pos ((heapPage_lt_iff (by omega)).mpr hk), heapPage_succ]

/-- The loop does not keep off frame 0 if it begins with it. -/
theorem not_flatHeapRounds_nullptr (hk : k < 256) :
    ¬ FlatHeapRounds RoundAvoidsZero m nullptr (heapPage k) (fuel + 1) := by
  rw [flatHeapRounds_succ hk]
  exact fun h => h.1.1 pageOf_nullptr

theorem flatHeapRounds_end {P : MemoryManager → U32 → U32 → Prop} :
    FlatHeapRounds P m phys (heapPage 256) (fuel + 1) := by
  rw [FlatHeapRounds, if_neg ((heapPage_lt_iff le_rfl).not.mpr (by omega))]
  trivial

theorem grants_succ : Grants (n + 1) m.pmm ↔
    (m.getFreePhysicalPage 1).1 ≠ nullptr ∧ Grants n (m.getFreePhysicalPage 1).2.pmm := Iff.rfl

/-- The rest of the loop keeps off frame 0 exactly when the next `n` requests for a block are granted, and they are
    if it is refused nothing. -/
structure LoopUses (m : MemoryManager) (phys virt : U32) (fuel n : ℕ) : Prop where
  avoids : FlatHeapRounds RoundAvoidsZero m phys virt fuel ↔ Grants n m.pmm
  granted : AllGranted (MemoryManager.flatMapHeap m phys virt fuel) → Grants n m.pmm

/-- The request at the end of a round, for the page of the next one. -/
theorem HeapMapped.next_round {m' : MemoryManager} (h : HeapMapped m d k p) (hk : k < 255)
    (hm' : m.flatMapPage (ptr (p * 4096)) (heapPage k) = m') (hg : AllGranted m')
    (hrest : ∀ m' p', HeapMapped m' d (k + 1) p' → AllGranted m' →
      LoopUses m' (ptr (p' * 4096)) (heapPage (k + 1)) (fuel + 1) n) :
    (FlatHeapRounds RoundAvoidsZero (m'.getFreePhysicalPage 1).2 (m'.getFreePhysicalPage 1).1
      (heapPage (k + 1)) (fuel + 1) ↔ Grants (n + 1) m'.pmm) ∧
    (AllGranted (MemoryManager.flatMapHeap (m'.getFreePhysicalPage 1).2 (m'.getFreePhysicalPage 1).1
      (heapPage (k + 1)) (fuel + 1)) → Grants (n + 1) m'.pmm) := by
  by_cases hnull : (m'.getFreePhysicalPage 1).1 = nullptr
  · have hno : ¬ Grants (n + 1) m'.pmm := fun h => (grants_succ.mp h).1 hnull
    refine ⟨iff_of_false ?_ hno, fun hall => ?_⟩
    · rw [hnull]
      exact not_flatHeapRounds_nullptr (by omega)
    · refine absurd (granted_flatMapHeap ?_) hall
      rw [granted_getFreePhysicalPage, hnull]
      exact List.mem_cons_self
  · have hg' : AllGranted (m'.getFreePhysicalPage 1).2 := by
      rw [allGranted_getFreePhysicalPage]
      exact ⟨fun h => hnull h.symm, hg⟩
    obtain ⟨p', hp', hmap⟩ := h.step (by omega) (by rw [hm']; exact hg')
    rw [hm'] at hp' hmap
    have huses := hrest _ p' hmap hg'
    rw [← hp'] at huses
    rw [grants_succ, and_iff_right hnull]
    exact ⟨huses.avoids, huses.granted⟩

theorem HeapMapped.pending_ne_zero (h : HeapMapped m d k p) : pageOf (ptr (p * 4096)) ≠ 0 := by
  have hge := h.pending.ge
  have hlt := h.pending.lt
  exact pageOf_frame_ne_zero (by omega) (by omega)

/-- With a table for the heap, a round edits that table and takes no frame before the next page's. -/
theorem HeapMapped.round (h : HeapMapped m d k p) (hk0 : 0 < k) (hk : k < 256) :
    RoundAvoidsZero m (ptr (p * 4096)) (heapPage k) ∧ m.flatEnsureTable (heapPage k) = m := by
  have htable := h.table_present hk0 hk
  have hdir : m.walkDirectory (heapPage k) = dirEntry m d (dirIndex (heapPage k)) :=
    walkDirectory_eq h.paged.dir_eq
  refine ⟨⟨h.pending_ne_zero, ?_⟩, (flatEnsureTable_eq h.paged _).trans (if_pos htable)⟩
  rw [editedTable, hdir, if_pos htable, PAGE_GET_PHYSICAL_ADDRESS_eq]
  refine pageOf_frame_ne_zero (fun h0 => ?_) (toNat_frame_lt _)
  have hidx := h.zero _ (dirIndex_lt _) htable h0
  rw [dirIndex_heapPage hk] at hidx
  omega

/-- With a table for the heap, every round takes one frame, for the page of the next one. -/
theorem HeapMapped.loopUses (h : HeapMapped m d k p) (hg : AllGranted m) (hk0 : 0 < k) (hk : k + n = 255) :
    LoopUses m (ptr (p * 4096)) (heapPage k) (n + 2) n := by
  induction n generalizing m k p with
  | zero =>
    obtain rfl : k = 255 := hk
    refine ⟨?_, fun _ => trivial⟩
    rw [flatHeapRounds_succ (by omega)]
    exact iff_of_true ⟨(h.round hk0 (by omega)).1, flatHeapRounds_end⟩ trivial
  | succ n ih =>
    obtain ⟨hround, hsame⟩ := h.round hk0 (by omega)
    have hpmm : (m.flatMapPage (ptr (p * 4096)) (heapPage k)).pmm = m.pmm := by
      show (m.flatEnsureTable (heapPage k)).pmm = m.pmm
      rw [hsame]
    have hg' : AllGranted (m.flatMapPage (ptr (p * 4096)) (heapPage k)) := by
      show nullptr ∉ (m.flatEnsureTable (heapPage k)).granted
      rw [hsame]
      exact hg
    obtain ⟨havoids, hgranted⟩ := h.next_round (by omega) rfl hg' fun m' p' hmap hgm =>
      ih hmap hgm (by omega) (by omega)
    rw [hpmm] at havoids hgranted
    constructor
    · rw [flatHeapRounds_succ (by omega), and_iff_right hround, havoids]
    · rw [flatMapHeap_succ _ _ (by omega)]
      exact hgranted

/-- The first round takes a frame for the page table, and edits that one. -/
theorem HeapMapped.flatMapPage_start (h : HeapMapped m d 0 p) (habs : present (dirEntry m d 769) = false) :
    editedTable m (heapPage 0) = (m.getFreePhysicalPage 1).1 ∧
    (m.flatMapPage (ptr (p * 4096)) (heapPage 0)).pmm = (m.getFreePhysicalPage 1).2.pmm ∧
    (m.flatMapPage (ptr (p * 4096)) (heapPage 0)).granted = (m.getFreePhysicalPage 1).1 :: m.granted := by
  have hidx := dirIndex_heapPage (show 0 < 256 by omega)
  have hdir : m.walkDirectory (heapPage 0) = dirEntry m d (dirIndex (heapPage 0)) :=
    walkDirectory_eq h.paged.dir_eq
  have hnew : m.flatEnsureTable (heapPage 0) = m.flatNewTable (m.directoryEntry (heapPage 0)) := by
    rw [flatEnsureTable_eq h.paged, hidx, habs, if_neg Bool.false_ne_true]
  refine ⟨?_, ?_, ?_⟩
  · rw [editedTable, hdir, hidx, habs]
    rfl
  · show (m.flatEnsureTable (heapPage 0)).pmm = _
    rw [hnew]
    rfl
  · show (m.flatEnsureTable (heapPage 0)).granted = _
    rw [hnew]
    rfl

/-- So the loop takes one frame more than it has rounds behind the first. -/
theorem HeapMapped.loopUses_start (h : HeapMapped m d 0 p) (hg : AllGranted m)
    (habs : present (dirEntry m d 769) = false) :
    LoopUses m (ptr (p * 4096)) (heapPage 0) 257 256 := by
  obtain ⟨hedited, hpmm, hlist⟩ := h.flatMapPage_start habs
  have hgrants : Grants 256 m.pmm ↔ (m.getFreePhysicalPage 1).1 ≠ nullptr ∧
      Grants 255 (m.getFreePhysicalPage 1).2.pmm := grants_succ
  by_cases hnull : (m.getFreePhysicalPage 1).1 = nullptr
  · have hno : ¬ Grants 256 m.pmm := fun h => (hgrants.mp h).1 hnull
    refine ⟨iff_of_false ?_ hno, fun hall => ?_⟩
    · rw [flatHeapRounds_succ (by omega), RoundAvoidsZero, hedited, hnull]
      exact fun h => h.1.2 pageOf_nullptr
    · refine absurd ?_ hall
      rw [flatMapHeap_succ _ _ (by omega)]
      refine granted_flatMapHeap (List.mem_cons_of_mem _ ?_)
      rw [hlist, hnull]
      exact List.mem_cons_self
  · have hg' : AllGranted (m.flatMapPage (ptr (p * 4096)) (heapPage 0)) := by
      rw [AllGranted, hlist, List.mem_cons, not_or]
      exact ⟨fun h => hnull h.symm, hg⟩
    have hround : RoundAvoidsZero m (ptr (p * 4096)) (heapPage 0) := by
      refine ⟨h.pending_ne_zero, ?_⟩
      obtain ⟨t, ht, hframe⟩ := exists_newFrame h.paged
      have hlt := hframe.lt
      rw [hedited, ht]
      refine pageOf_frame_ne_zero ?_ (by omega)
      rintro rfl
      exact hnull ht
    obtain ⟨havoids, hgranted⟩ := h.next_round (by omega) rfl hg' fun m' p' hmap hgm =>
      hmap.loopUses hgm (by omega) (show 0 + 1 + 254 = 255 from rfl)
    rw [hpmm] at havoids hgranted
    constructor
    · rw [hgrants, and_iff_right hnull, flatHeapRounds_succ (by omega), and_iff_right hround]
      exact havoids
    · rw [hgrants, and_iff_right hnull, flatMapHeap_succ _ _ (by omega)]
      exact hgranted

/-! ## `initVMM` -/

theorem pageOf_granted (hres : ∀ b < 512, m.pmm.memoryMap.bit b = true)
    (hne : (m.getFreePhysicalPage 1).1 ≠ nullptr) : pageOf (m.getFreePhysicalPage 1).1 ≠ 0 := by
  rcases getFreePhysicalPage_one hres with heq | ⟨t, ht, hge, hlt, -⟩
  · exact absurd (congrArg Prod.fst heq) hne
  · rw [show (m.getFreePhysicalPage 1).1 = ptr (t * 4096) from ht]
    exact pageOf_frame_ne_zero (by omega) (by omega)

/-- The requests of `initVMM` before its loop. -/
theorem grants_flatInitVMM (m : MemoryManager) : Grants 259 m.pmm ↔ (m.getFreePhysicalPage 1).1 ≠ nullptr ∧
    ((m.getFreePhysicalPage 1).2.getFreePhysicalPage 1).1 ≠ nullptr ∧
    (m.flatInitTables.getFreePhysicalPage 1).1 ≠ nullptr ∧
    Grants 256 (m.flatInitTables.getFreePhysicalPage 1).2.pmm := by
  have hpmm : m.flatInitTables.pmm = ((m.getFreePhysicalPage 1).2.getFreePhysicalPage 1).2.pmm := rfl
  rw [← grants_succ (n := 256), hpmm, ← grants_succ (n := 257), ← grants_succ (n := 258)]

theorem directory_flatInitTables (m : MemoryManager) :
    m.flatInitTables.directory = ((m.getFreePhysicalPage 1).2.getFreePhysicalPage 1).1 := VIRT_2_PHYS_PHYS_2_VIRT _

/-- A request for a block changes no entry. -/
theorem dirEntry_getFreePhysicalPage (m : MemoryManager) (d k : ℕ) :
    dirEntry (m.getFreePhysicalPage 1).2 d k = dirEntry m d k := rfl

/-- If one of the requests before the loop is refused, frame 0 is put to use. -/
theorem flatInitVMM_refused (hnull : (m.getFreePhysicalPage 1).1 = nullptr ∨
    ((m.getFreePhysicalPage 1).2.getFreePhysicalPage 1).1 = nullptr ∨
    (m.flatInitTables.getFreePhysicalPage 1).1 = nullptr) :
    ¬ FlatAvoidsFrameZero m ∧ ¬ Grants 259 m.pmm ∧ ¬ AllGranted m.flatInitVMM := by
  refine ⟨?_, fun hgrants => ?_, fun hall => hall ?_⟩
  · rintro ⟨htable, hdir, hheap⟩
    rw [directory_flatInitTables] at hdir
    rw [heapPage_zero] at hheap
    rcases hnull with h1 | h2 | h3
    · exact htable (by rw [h1]; exact pageOf_nullptr)
    · exact hdir (by rw [h2]; exact pageOf_nullptr)
    · rw [h3] at hheap
      exact not_flatHeapRounds_nullptr (by omega) hheap
  · obtain ⟨h1, h2, h3, -⟩ := (grants_flatInitVMM m).mp hgrants
    rcases hnull with hnull | hnull | hnull
    · exact h1 hnull
    · exact h2 hnull
    · exact h3 hnull
  · rw [flatInitVMM_eq]
    refine granted_flatMapHeap ?_
    rw [granted_getFreePhysicalPage, granted_flatInitTables, List.mem_cons, List.mem_cons, List.mem_cons]
    rcases hnull with h1 | h2 | h3
    · exact Or.inr (Or.inr (Or.inl h1.symm))
    · exact Or.inr (Or.inl h2.symm)
    · exact Or.inl h3.symm

/-- `initVMM` keeps off frame 0 exactly when its first 259 requests are granted, and they are when none is
    refused. -/
theorem flatAvoidsFrameZero_iff (hres : ∀ b < 512, m.pmm.memoryMap.bit b = true) (hmapped : m.mapped = [])
    (hgranted : m.granted = []) :
    (FlatAvoidsFrameZero m ↔ Grants 259 m.pmm) ∧ (AllGranted m.flatInitVMM → Grants 259 m.pmm) := by
  by_cases hnull : (m.getFreePhysicalPage 1).1 = nullptr ∨
      ((m.getFreePhysicalPage 1).2.getFreePhysicalPage 1).1 = nullptr ∨
      (m.flatInitTables.getFreePhysicalPage 1).1 = nullptr
  · obtain ⟨havoids, hgrants, hall⟩ := flatInitVMM_refused hnull
    exact ⟨iff_of_false havoids hgrants, fun h => absurd h hall⟩
  · obtain ⟨h1, h2, h3⟩ : (m.getFreePhysicalPage 1).1 ≠ nullptr ∧
        ((m.getFreePhysicalPage 1).2.getFreePhysicalPage 1).1 ≠ nullptr ∧
        (m.flatInitTables.getFreePhysicalPage 1).1 ≠ nullptr := by
      rw [not_or, not_or] at hnull
      exact hnull
    have hall : AllGranted m.flatInitTables := by
      rw [AllGranted, granted_flatInitTables, hgranted, List.mem_cons, List.mem_cons, not_or, not_or]
      exact ⟨h2.symm, h1.symm, List.not_mem_nil⟩
    obtain ⟨d, hpaged, hzero, hwindow, habsent⟩ := paged_flatInitTables hres hmapped hall
    obtain ⟨p, hp, hstart⟩ := heapMapped_start hpaged hzero hwindow habsent hmapped h3
    have hall' : AllGranted (m.flatInitTables.getFreePhysicalPage 1).2 := by
      rw [allGranted_getFreePhysicalPage]
      exact ⟨h3.symm, hall⟩
    have habs : present (dirEntry (m.flatInitTables.getFreePhysicalPage 1).2 d 769) = false := by
      rw [dirEntry_getFreePhysicalPage]
      exact habsent 769 (by omega) (by omega) (by omega)
    obtain ⟨hloop, hloop'⟩ := hstart.loopUses_start hall' habs
    rw [grants_flatInitVMM, and_iff_right h1, and_iff_right h2, and_iff_right h3, flatInitVMM_eq, hp]
    refine ⟨⟨fun h => hloop.mp ?_, fun h => ⟨pageOf_granted hres h1, ?_, ?_⟩⟩, hloop'⟩
    · have hheap := h.heap
      rw [heapPage_zero, hp] at hheap
      exact hheap
    · rw [directory_flatInitTables]
      exact pageOf_granted (fun b hb => bit_getFreePhysicalPage (hres b hb)) h2
    · rw [heapPage_zero, hp]
      exact hloop.mpr h

/-- When a request is refused, `initVMM` keeps off frame 0 exactly if it is only the last one. -/
theorem flatKeepsOffZero_iff (s : PMM) (entries : List MmapEntry) (ram : Ram) (dir : U32) :
    FlatKeepsOffZero (bootState s entries ram dir) ↔ HasBlocks (s.initPMM entries) 259 := by
  have hres : ∀ b < 512, (s.initPMM entries).memoryMap.bit b = true := fun b => initPMM_reserved
  obtain ⟨havoids, hall⟩ := flatAvoidsFrameZero_iff (m := bootState s entries ram dir) hres rfl rfl
  have hblocks : Grants 259 (s.initPMM entries) ↔ HasBlocks (s.initPMM entries) 259 := grants_iff hres
  rw [← hblocks]
  refine ⟨fun h => ?_, fun h _ => havoids.mpr h⟩
  by_cases hnull : nullptr ∈ (bootState s entries ram dir).flatInitVMM.granted
  · exact havoids.mp (h hnull)
  · exact hall hnull

end Heap

end Pros
