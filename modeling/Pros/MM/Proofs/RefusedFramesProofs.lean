import Pros.MM.Proofs.OutOfFramesProofs
import Pros.MM.Proofs.AddressSpaceProofs

/-!
# What happens when frames run out, through the page tables

A call of `mapPage` that is refused a page table finds frame 0 in the window, and stores there what it stores on flat
memory. `initVMM` follows flat memory up to its first table outside the window, where it faults; so frame 0 is put to
use when the blocks run out, unless a table has come before that lies too high.
-/

namespace Pros

open MemoryManager PageEntry

/-! ## The blocks of the first requests -/

section Blocks

variable {m : MemoryManager} {k t bound : ℕ}

theorem count_of_used {map : Memory ℕ} (h : ∀ b < t, map.bit b = true) (hbound : bound ≤ t) :
    Nat.count (fun b => map.bit b = false) bound = 0 := by
  refine Nat.count_iff_forall_not.mpr fun b hb hbit => ?_
  rw [h b (by omega)] at hbit
  cases hbit

/-- A request that is granted takes the first free block, so that there is one less below each bound behind it. -/
theorem request_granted (hres : ∀ b < 512, m.pmm.memoryMap.bit b = true)
    (h : ¬ m.pmm.getFreePhysicalPage 1 = (nullptr, m.pmm)) : ∃ t, m.request 0 = ptr (t * 4096) ∧ 512 ≤ t ∧
      t < 2 ^ 20 - 1 ∧ ∀ bound,
        (t < bound ∧ Nat.count (fun b => m.pmm.memoryMap.bit b = false) bound =
          Nat.count (fun b => (m.getFreePhysicalPage 1).2.pmm.memoryMap.bit b = false) bound + 1) ∨
        (bound ≤ t ∧ Nat.count (fun b => m.pmm.memoryMap.bit b = false) bound = 0 ∧
          Nat.count (fun b => (m.getFreePhysicalPage 1).2.pmm.memoryMap.bit b = false) bound = 0) := by
  obtain ⟨t, ht, hge, hlt, hfree, hused, hbit⟩ := (getFreePhysicalPage_one hres).resolve_left h
  have hbit' : ∀ b, (m.getFreePhysicalPage 1).2.pmm.memoryMap.bit b = if b = t then true else m.pmm.memoryMap.bit b :=
    hbit
  refine ⟨t, ht, hge, hlt, fun bound => ?_⟩
  rcases Nat.lt_or_ge t bound with hb | hb
  · refine Or.inl ⟨hb, Bitmap.count_add_run (f := t) (by omega) (fun b h1 h2 => ?_) fun b => ?_⟩
    · obtain rfl : b = t := by omega
      rw [hbit', if_pos rfl]
      exact Bool.noConfusion
    · rw [hbit']
      split_ifs with hbt
      · obtain rfl := hbt
        exact iff_of_true hfree (Or.inr (by omega))
      · exact (or_iff_left (by omega)).symm
  · refine Or.inr ⟨hb, count_of_used hused hb, count_of_used (t := t) (fun b hbt => ?_) hb⟩
    rw [hbit', if_neg (by omega), hused b hbt]

/-- Null is below everything, and where it is returned there is no block. -/
theorem request_lt_of_refused (hres : ∀ b < 512, m.pmm.memoryMap.bit b = true) (h0 : 0 < bound)
    (hnull : (m.pmm.getFreePhysicalPage 1).1 = nullptr) (hno : ¬ HasBlocks m.pmm 1) :
    (m.request k).toNat < bound * 4096 ↔ BlocksBelow m.pmm bound (k + 1) := by
  rw [request_of_refused (refused_of_null hres hnull), show nullptr.toNat = 0 from rfl]
  refine iff_of_true (by omega) fun hblocks => absurd ?_ hno
  exact ⟨le_trans (by omega) hblocks.counted, le_trans (by omega) hblocks.free⟩

/-- The frame that a request is granted lies below `bound` if that many blocks are free there. -/
theorem request_lt_iff (hres : ∀ b < 512, m.pmm.memoryMap.bit b = true) (h0 : 0 < bound) :
    (m.request k).toNat < bound * 4096 ↔ BlocksBelow m.pmm bound (k + 1) := by
  induction k generalizing m with
  | zero =>
    rcases alloc_one hres with ⟨hnull, hno⟩ | ⟨hne, hone, -⟩
    · exact request_lt_of_refused hres h0 hnull hno
    · obtain ⟨t, ht, -, hlt, hcount⟩ := request_granted hres fun h => hne (congrArg Prod.fst h)
      rw [ht, toNat_ptr_of_lt (by omega), BlocksBelow, imp_iff_right hone]
      rcases hcount bound with ⟨hb, hc⟩ | ⟨hb, hc, -⟩ <;> rw [hc] <;> omega
  | succ k ih =>
    rcases alloc_one hres with ⟨hnull, hno⟩ | ⟨hne, -, hnext⟩
    · exact request_lt_of_refused hres h0 hnull hno
    · obtain ⟨t, -, -, -, hcount⟩ := request_granted hres fun h => hne (congrArg Prod.fst h)
      have hblocks : HasBlocks (m.getFreePhysicalPage 1).2.pmm (k + 1) ↔ HasBlocks m.pmm (k + 1 + 1) := hnext (k + 1)
      have hsucc : m.request (k + 1) = (m.getFreePhysicalPage 1).2.request k := rfl
      have hres' : ∀ b < 512, (m.getFreePhysicalPage 1).2.pmm.memoryMap.bit b = true := fun b hb =>
        bit_getFreePhysicalPage (hres b hb)
      rw [hsucc, ih hres', BlocksBelow, BlocksBelow, hblocks]
      refine imp_congr_right fun _ => ?_
      rcases hcount bound with ⟨-, hc⟩ | ⟨-, hc, hc'⟩
      · rw [hc]
        omega
      · rw [hc, hc']
        omega

theorem tablesLow_iff (hres : ∀ b < 512, m.pmm.memoryMap.bit b = true) : TablesLow m ↔ TableBlocksLow m.pmm := by
  have hlow : ∀ k, m.request k < 0x3FF000 ↔ BlocksBelow m.pmm 0x3FF (k + 1) := by
    intro k
    rw [← request_lt_iff hres (show 0 < 0x3FF by decide), BitVec.lt_def]
    rfl
  rw [TablesLow, TableBlocksLow, hlow, hlow, hlow]

end Blocks

/-! ## Calls that are refused a table -/

section MapPage

variable {m : MemoryManager} {phys virt : U32}

/-- A call that is refused a page table finds frame 0 in the window, and changes memory. -/
theorem WindowKept.keepsMemory_iff {d : ℕ} (h : WindowKept m d) (hd : d < 1024) :
    KeepsMemory m phys virt ↔ ¬ TableRefused m virt := by
  refine ⟨fun hkeeps hrefused => ?_, fun hno hrefused => absurd hrefused hno⟩
  have hedited : editedTable m virt = nullptr := by
    rw [editedTable, hrefused.1, if_neg Bool.false_ne_true, hrefused.2]
  have hlow : editedTable m virt < 0x3FF000 := by rw [hedited]; decide
  have hmap := h.exec_inPlace hd (tableInWindow_of_low phys hlow)
  have hflat : FlatKeepsMemory m phys virt := fun _ => hkeeps hrefused _ hmap
  exact (flatKeepsMemory_iff h.paged.dir_eq (by omega)).mp hflat hrefused

variable {s : PMM} {entries : List MmapEntry} {ram : Ram} {dir : U32} {ops : List VmmOp} {m₀ : MemoryManager}

/-- So it is in every state that is reached through the window. -/
theorem Booted.keepsMemory_iff (hboot : Booted s entries ram dir m₀)
    (hrun : Run (fun m op m' => m.exec op = some m' ∧ OutsideKernel op ∧ TableInWindow m op) m₀ ops m) :
    KeepsMemory m phys virt ↔ ¬ TableRefused m virt := by
  obtain ⟨d, p, h0, hd⟩ := hboot.heapMapped
  exact (h0.windowKept.run hd hrun).keepsMemory_iff hd

end MapPage

/-! ## The rounds -/

section Rounds

variable {m : MemoryManager} {d k p fuel : ℕ} {phys virt : U32}

theorem heapRounds_succ {P : MemoryManager → U32 → U32 → Prop} (hk : k < 256) :
    HeapRounds P m phys (heapPage k) (fuel + 1) ↔ P m phys (heapPage k) ∧
      ∀ s', m.mapPage phys (heapPage k) = some s' →
        HeapRounds P (s'.getFreePhysicalPage 1).2 (s'.getFreePhysicalPage 1).1 (heapPage (k + 1)) fuel := by
  rw [HeapRounds, if_pos ((heapPage_lt_iff (by omega)).mpr hk), heapPage_succ]

theorem heapRounds_end {P : MemoryManager → U32 → U32 → Prop} : HeapRounds P m phys (heapPage 256) (fuel + 1) := by
  rw [HeapRounds, if_neg ((heapPage_lt_iff le_rfl).not.mpr (by omega))]
  trivial

theorem not_heapRounds_nullptr (hk : k < 256) :
    ¬ HeapRounds RoundAvoidsZero m nullptr (heapPage k) (fuel + 1) := by
  rw [heapRounds_succ hk]
  exact fun h => h.1.1 pageOf_nullptr

/-- A round that keeps off frame 0 is refused no table. -/
theorem RoundAvoidsZero.allGranted (h : RoundAvoidsZero m phys virt) (hpaged : Paged m d) (hg : AllGranted m) :
    AllGranted (m.flatMapPage phys virt) := by
  show nullptr ∉ (m.flatEnsureTable virt).granted
  rw [flatEnsureTable_eq hpaged]
  split_ifs with hp
  · exact hg
  · have hedited := editedTable_of_absent hpaged (Bool.eq_false_of_not_eq_true hp)
    have hne : nullptr ≠ (m.getFreePhysicalPage 1).1 := by
      intro hnull
      rw [← hnull] at hedited
      exact h.2 (by rw [hedited]; exact pageOf_nullptr)
    exact fun hmem => (List.mem_cons.mp hmem).elim hne hg

/-- With the heap's table in the window, the rounds are those on flat memory, up to the first refusal. -/
theorem HeapMapped.heapRounds_iff (h : HeapMapped m d k p) (hd : d < 1024) (hg : AllGranted m)
    (hlow : k < 256 → editedTable m (heapPage k) < 0x3FF000) (hk : k + fuel = 257) (hle : k ≤ 256) :
    HeapRounds RoundAvoidsZero m (ptr (p * 4096)) (heapPage k) fuel ↔
      FlatHeapRounds RoundAvoidsZero m (ptr (p * 4096)) (heapPage k) fuel := by
  induction fuel generalizing m k p with
  | zero => omega
  | succ fuel ih =>
    rcases Nat.lt_or_eq_of_le hle with hlt | rfl
    · have hmap := h.windowKept.exec_inPlace hd (tableInWindow_of_low (ptr (p * 4096)) (hlow hlt))
      have hmap' : m.mapPage (ptr (p * 4096)) (heapPage k) = some (m.flatMapPage (ptr (p * 4096)) (heapPage k)) := hmap
      rw [heapRounds_succ hlt, flatHeapRounds_succ hlt, hmap']
      simp only [Option.some.injEq, forall_eq']
      refine and_congr_right fun hround => ?_
      have hgranted := hround.allGranted h.paged hg
      by_cases hnull : nullptr = ((m.flatMapPage (ptr (p * 4096)) (heapPage k)).getFreePhysicalPage 1).1
      · rw [← hnull]
        rcases Nat.lt_or_eq_of_le hlt with hlt' | hlast
        · obtain ⟨fuel, rfl⟩ : ∃ n, fuel = n + 1 := ⟨fuel - 1, by omega⟩
          exact iff_of_false (not_heapRounds_nullptr hlt') (not_flatHeapRounds_nullptr hlt')
        · obtain rfl : fuel = 0 + 1 := by omega
          rw [show k + 1 = 256 from hlast]
          exact iff_of_true heapRounds_end flatHeapRounds_end
      · have hg' := allGranted_getFreePhysicalPage.mpr ⟨hnull, hgranted⟩
        obtain ⟨p', hp', h'⟩ := h.step hlt hg'
        rw [hp']
        refine ih h' hg' (fun hlt' => ?_) (by omega) (by omega)
        rw [editedTable_flatMapPage h.paged (by rw [dirIndex_heapPage hlt', dirIndex_heapPage hlt])]
        exact hlow hlt
    · exact iff_of_true heapRounds_end flatHeapRounds_end

end Rounds

/-! ## `initVMM` -/

section Init

variable {m : MemoryManager} {k : ℕ}

theorem pageOf_request (hres : ∀ b < 512, m.pmm.memoryMap.bit b = true) (h : m.request k ≠ nullptr) :
    pageOf (m.request k) ≠ 0 := by
  induction k generalizing m with
  | zero => exact pageOf_granted hres h
  | succ k ih => exact ih (m := (m.getFreePhysicalPage 1).2) (fun b hb => bit_getFreePhysicalPage (hres b hb)) h

/-- With its tables in the window, `initVMM` uses frame 0 where it uses it on flat memory. -/
theorem avoidsFrameZero_iff_flat (hres : ∀ b < 512, m.pmm.memoryMap.bit b = true) (hmapped : m.mapped = [])
    (hgranted : m.granted = []) (hlow : TablesLow m) : AvoidsFrameZero m ↔ FlatAvoidsFrameZero m := by
  obtain ⟨hlow₀, hlow₁, hlow₃⟩ := hlow
  obtain ⟨s, hs, hpmm⟩ := memset_first hlow₀
  have hinit := initTables_inPlace hlow₀ hlow₁
  have hheap : pageOf (m.request 0) ≠ 0 → pageOf (m.request 1) ≠ 0 →
      (HeapRounds RoundAvoidsZero (m.flatInitTables.getFreePhysicalPage 1).2
        (m.flatInitTables.getFreePhysicalPage 1).1 KERNEL_HEAP_START 257 ↔
      FlatHeapRounds RoundAvoidsZero (m.flatInitTables.getFreePhysicalPage 1).2
        (m.flatInitTables.getFreePhysicalPage 1).1 KERNEL_HEAP_START 257) := by
    intro h₀ h₁
    rw [heapPage_zero]
    by_cases h₂ : (m.flatInitTables.getFreePhysicalPage 1).1 = nullptr
    · rw [h₂]
      exact iff_of_false (not_heapRounds_nullptr (by omega)) (not_flatHeapRounds_nullptr (by omega))
    · obtain ⟨d, p, hp, hstart, hd, hg, habs⟩ := start_of_granted hres hmapped hgranted
        (fun h => h₀ (by rw [h]; exact pageOf_nullptr)) (fun h => h₁ (by rw [h]; exact pageOf_nullptr)) hlow₁ h₂
      rw [hp]
      refine hstart.heapRounds_iff hd hg (fun _ => ?_) rfl (by omega)
      rw [editedTable_of_absent hstart.paged (by rw [dirIndex_heapPage (by omega)]; exact habs), ← request_three]
      exact hlow₃
  constructor
  · intro h
    have hdir := h.directory s hs
    rw [second_request hpmm] at hdir
    refine ⟨h.windowTable, ?_, (hheap h.windowTable hdir).mp (h.heap _ hinit)⟩
    rw [directory_flatInitTables]
    exact hdir
  · intro h
    have hdir := h.directory
    rw [directory_flatInitTables] at hdir
    refine ⟨h.windowTable, fun s' hs' => ?_, fun s' hs' => ?_⟩
    · obtain rfl := Option.some.inj (hs.symm.trans hs')
      rw [second_request hpmm]
      exact hdir
    · obtain rfl := Option.some.inj (hinit.symm.trans hs')
      exact (hheap h.windowTable hdir).mpr h.heap

/-- The page directory is used when the window's table has been cleared. -/
theorem directory_ne_zero (hres : ∀ b < 512, m.pmm.memoryMap.bit b = true) (h₁ : m.request 1 ≠ nullptr)
    {s : MemoryManager} (hs : (m.getFreePhysicalPage 1).2.memset loaderTranslation (PHYS_2_VIRT (m.request 0)) 0
      sizeofPageTable = some s) : pageOf (s.getFreePhysicalPage 1).1 ≠ 0 := by
  by_cases h₀ : m.request 0 < 0x3FF000
  · obtain ⟨s', hs', hpmm⟩ := memset_first h₀
    obtain rfl := Option.some.inj (hs'.symm.trans hs)
    rw [second_request hpmm]
    exact pageOf_request hres h₁
  · rw [memset_loader_fault (granted_of_high h₀).2 (request_lt hres 0)] at hs
    cases hs

/-- A table of the window, or a page directory, that lies too high. -/
theorem avoidsFrameZero_of_window (hres : ∀ b < 512, m.pmm.memoryMap.bit b = true)
    (h : ¬ (m.request 0 < 0x3FF000 ∧ m.request 1 < 0x3FF000)) : AvoidsFrameZero m := by
  have hnone := initTables_fault (request_lt hres) h
  have hheap : ∀ s', m.initTables = some s' → HeapRounds RoundAvoidsZero (s'.getFreePhysicalPage 1).2
      (s'.getFreePhysicalPage 1).1 KERNEL_HEAP_START 257 := by
    intro s' hs'
    rw [hnone] at hs'
    cases hs'
  by_cases h₁ : m.request 1 < 0x3FF000
  · have h₀ := granted_of_high fun h₀ => h ⟨h₀, h₁⟩
    refine ⟨pageOf_granted hres h₀.1, fun s' hs' => ?_, hheap⟩
    have hfault := @memset_loader_fault (m.getFreePhysicalPage 1).2 _ h₀.2 (request_lt hres 0)
    rw [show m.request 0 = (m.getFreePhysicalPage 1).1 from rfl, hs'] at hfault
    cases hfault
  · have h₁' := (granted_of_high h₁).1
    have h₀ : m.request 0 ≠ nullptr := request_ne_nullptr hres (Nat.zero_le 1) h₁'
    exact ⟨pageOf_granted hres h₀, fun s' hs' => directory_ne_zero hres h₁' hs', hheap⟩

/-- Both tables of the window are low, and the heap's is not. -/
theorem avoidsFrameZero_of_heap (hres : ∀ b < 512, m.pmm.memoryMap.bit b = true) (hmapped : m.mapped = [])
    (hgranted : m.granted = []) (h₀ : m.request 0 < 0x3FF000) (h₁ : m.request 1 < 0x3FF000)
    (h₃ : ¬ m.request 3 < 0x3FF000) (hfourth : (m.request 3).toNat < 0x3FFFF000) : AvoidsFrameZero m := by
  obtain ⟨hne, hthird⟩ := granted_of_high h₃
  have hgrant : ∀ l ≤ 3, m.request l ≠ nullptr := fun l hl => request_ne_nullptr hres hl hne
  have hne₀ := hgrant 0 (by omega)
  have hne₁ := hgrant 1 (by omega)
  refine ⟨pageOf_granted hres hne₀, fun s' hs' => directory_ne_zero hres hne₁ hs', fun s' hs' => ?_⟩
  obtain rfl := Option.some.inj ((initTables_inPlace h₀ h₁).symm.trans hs')
  obtain ⟨d, p, hp, hstart, hd, -, habs⟩ := start_of_granted hres hmapped hgranted hne₀ hne₁ h₁
    (hgrant 2 (by omega))
  have hpage := pageOf_request hres hne
  rw [request_three] at hthird hfourth hpage
  rw [heapPage_zero, hp, heapRounds_succ (by omega)]
  refine ⟨⟨hstart.pending_ne_zero, ?_⟩, fun s' hs' => ?_⟩
  · rw [editedTable_of_absent hstart.paged (by rw [dirIndex_heapPage (by omega)]; exact habs)]
    exact hpage
  · rw [hstart.mapPage_fault hd habs hthird hfourth] at hs'
    cases hs'

/-- `initVMM` keeps off frame 0 exactly when its first 259 requests are granted, or it faults before. -/
theorem avoidsFrameZero_iff (hres : ∀ b < 512, m.pmm.memoryMap.bit b = true) (hmapped : m.mapped = [])
    (hgranted : m.granted = []) (hfourth : BlocksBelow m.pmm 0x3FFFF 4) :
    AvoidsFrameZero m ↔ HasBlocks m.pmm 259 ∨ ¬ TableBlocksLow m.pmm := by
  rw [← tablesLow_iff hres]
  by_cases hlow : TablesLow m
  · rw [avoidsFrameZero_iff_flat hres hmapped hgranted hlow, (flatAvoidsFrameZero_iff hres hmapped hgranted).1,
      grants_iff hres]
    exact (or_iff_left (not_not.mpr hlow)).symm
  · refine iff_of_true ?_ (Or.inr hlow)
    by_cases hwindow : m.request 0 < 0x3FF000 ∧ m.request 1 < 0x3FF000
    · have hfourth' := (request_lt_iff (k := 3) hres (by omega)).mpr hfourth
      exact avoidsFrameZero_of_heap hres hmapped hgranted hwindow.1 hwindow.2
        (fun h => hlow ⟨hwindow.1, hwindow.2, h⟩) hfourth'
    · exact avoidsFrameZero_of_window hres hwindow

end Init

/-- Out of frames, `mapPage` never leaves the address space as it was, and `initVMM` keeps off frame 0 exactly when
    there are the 259 blocks whose frames it uses. That is so on flat memory; and it is so through the page tables, in
    every state that is reached through the window, and where `initVMM` does not fault before. The heap's table is
    taken to lie below 1 GiB, from where on its place in the window is behind an entry of the page directory that
    `memset` does not clear as a whole. -/
theorem out_of_frames_iff (s : MemoryManager) (phys virt : U32) (halign : s.currentPageDirectory.toNat % 4096 = 0)
    (pmm : PMM) (grubMemoryMap : List MmapEntry) (ram : Ram) (dir : U32) :
    (FlatKeepsMemory s phys virt ↔ ¬ TableRefused s virt) ∧
      (∀ m₀ ops m, Booted pmm grubMemoryMap ram dir m₀ →
        Run (fun m op m' => m.exec op = some m' ∧ OutsideKernel op ∧ TableInWindow m op) m₀ ops m →
          (KeepsMemory m phys virt ↔ ¬ TableRefused m virt)) ∧
      (FlatKeepsOffZero (bootState pmm grubMemoryMap ram dir) ↔ HasBlocks (pmm.initPMM grubMemoryMap) 259) ∧
      (BlocksBelow (pmm.initPMM grubMemoryMap) 0x3FFFF 4 →
        (AvoidsFrameZero (bootState pmm grubMemoryMap ram dir) ↔
          HasBlocks (pmm.initPMM grubMemoryMap) 259 ∨ ¬ TableBlocksLow (pmm.initPMM grubMemoryMap))) := by
  refine ⟨?_, fun m₀ ops m hboot hrun => hboot.keepsMemory_iff hrun,
    flatKeepsOffZero_iff pmm grubMemoryMap ram dir, fun hfourth => ?_⟩
  · exact flatKeepsMemory_of_aligned halign
  · exact avoidsFrameZero_iff (m := bootState pmm grubMemoryMap ram dir) (fun _ => initPMM_reserved) rfl rfl hfourth

/-- A state with no block left, whose page directory in frame 512 is empty. -/
def exhausted : MemoryManager where
  pmm := ⟨0, 0, 0, { byte := fun _ => 0 }⟩
  ram := { byte := fun _ => 0 }
  currentPageDirectory := 0xC0200000

theorem exhausted_refused (virt : U32) : TableRefused exhausted virt := by
  have hdir : exhausted.currentPageDirectory = PHYS_2_VIRT (ptr (512 * 4096)) := by decide
  refine ⟨?_, rfl⟩
  rw [walkDirectory_eq hdir, word, present, Memory.getLsbD_load32 _ _ (by omega)]
  exact BitVec.getLsbD_zero

/-- Requests can be made until one is refused. -/
theorem exists_refused {m : MemoryManager} {n : ℕ} (hres : ∀ b < 512, m.pmm.memoryMap.bit b = true)
    (hno : ¬ HasBlocks m.pmm n) : ∃ ops m',
      Run (fun m op m' => m.exec op = some m' ∧ OutsideKernel op ∧ TableInWindow m op) m ops m' ∧
      (m'.getFreePhysicalPage 1).1 = nullptr ∧ m'.ram = m.ram ∧
      m'.currentPageDirectory = m.currentPageDirectory := by
  induction n generalizing m with
  | zero => exact absurd ⟨Nat.zero_le _, Nat.zero_le _⟩ hno
  | succ n ih =>
    rcases alloc_one hres with ⟨hnull, -⟩ | ⟨-, -, hnext⟩
    · exact ⟨[], m, .nil, hnull, rfl, rfl⟩
    · obtain ⟨ops, m', hrun, h⟩ := ih (m := (m.getFreePhysicalPage 1).2)
        (fun b hb => bit_getFreePhysicalPage (hres b hb)) ((hnext n).not.mpr hno)
      exact ⟨.getFreePhysicalPage 1 :: ops, m', hrun.cons ⟨rfl, trivial, trivial⟩, h⟩

/-- On the PC with 16 MiB, a program takes frames until there is none. Then there is no page table for 4 MiB. -/
theorem smallPc_refused : ∃ m₀ ops m,
    Booted ⟨MB 16, 0, 0, { byte := fun _ => 0 }⟩ smallPc { byte := fun _ => 0 } 0 m₀ ∧
      Run (fun m op m' => m.exec op = some m' ∧ OutsideKernel op ∧ TableInWindow m op) m₀ ops m ∧
      TableRefused m 0x400000 := by
  obtain ⟨m₀, hboot, q, hq, hq', hfree⟩ := booted_smallPc { byte := fun _ => 0 } { byte := fun _ => 0 } 0
  obtain ⟨d, p, h, -⟩ := hboot.heapMapped
  have hno : ¬ HasBlocks m₀.pmm (2 ^ 32) := fun hblocks =>
    absurd hblocks.counted (Nat.not_le.mpr m₀.pmm.getFreeBlockCount.isLt)
  obtain ⟨ops, m, hrun, hnull, hram, hdir⟩ := exists_refused (fun b hb => hfree.used b (by omega)) hno
  refine ⟨m₀, ops, m, hboot, hrun, ?_, hnull⟩
  have habs := h.absent (dirIndex 0x400000) (by decide) (by decide) (by decide) (by decide)
  rw [walkDirectory_eq (hdir.trans h.paged.dir_eq), hram]
  exact habs

/-- The PC with 16 MiB has enough blocks. When they are used up, `mapPage` changes memory, as in a state that has none
    to begin with. -/
theorem out_of_frames_smallPc : ¬ FlatKeepsMemory exhausted 0x1000 0x400000 ∧
    (∃ m, TableRefused m 0x400000 ∧ ¬ KeepsMemory m 0x1000 0x400000) ∧
    FlatKeepsOffZero (bootState ⟨MB 16, 0, 0, { byte := fun _ => 0 }⟩ smallPc { byte := fun _ => 0 } 0) ∧
    AvoidsFrameZero (bootState ⟨MB 16, 0, 0, { byte := fun _ => 0 }⟩ smallPc { byte := fun _ => 0 } 0) := by
  have hres : ∀ b < 512, (bootState ⟨MB 16, 0, 0, { byte := fun _ => 0 }⟩ smallPc
      { byte := fun _ => 0 } 0).pmm.memoryMap.bit b = true := fun b => initPMM_reserved
  have hblocks : HasBlocks (PMM.initPMM ⟨MB 16, 0, 0, { byte := fun _ => 0 }⟩ smallPc) 259 :=
    (grants_iff hres).mp ((flatAvoidsFrameZero_iff hres rfl rfl).2
      (flatInitVMM_smallPc { byte := fun _ => 0 } { byte := fun _ => 0 } 0).1)
  obtain ⟨m₀, ops, m, hboot, hrun, hrefused⟩ := smallPc_refused
  obtain ⟨hflat, hkeeps, hinit, hreal⟩ := out_of_frames_iff exhausted 0x1000 0x400000 (by decide)
    ⟨MB 16, 0, 0, { byte := fun _ => 0 }⟩ smallPc { byte := fun _ => 0 } 0
  have hfourth := (request_lt_iff (k := 3) hres (show 0 < 0x3FFFF by decide)).mp
    (lt_trans (BitVec.lt_def.mp hboot.tables.2.2) (by decide))
  exact ⟨hflat.not.mpr (not_not.mpr (exhausted_refused _)),
    ⟨m, hrefused, (hkeeps m₀ ops m hboot hrun).not.mpr (not_not.mpr hrefused)⟩, hinit.mpr hblocks,
    (hreal hfourth).mpr (Or.inl hblocks)⟩

/-- A first request that is refused puts frame 0 to use. -/
theorem not_flatKeepsOffZero {m : MemoryManager} (hnull : (m.pmm.getFreePhysicalPage 1).1 = nullptr) :
    ¬ FlatKeepsOffZero m := by
  obtain ⟨havoids, -, hall⟩ := flatInitVMM_refused (m := m) (Or.inl hnull)
  exact fun h => havoids (h (not_not.mp hall))

theorem not_avoidsFrameZero {m : MemoryManager} (hnull : (m.pmm.getFreePhysicalPage 1).1 = nullptr) :
    ¬ AvoidsFrameZero m := by
  intro h
  have hwindow : pageOf (m.pmm.getFreePhysicalPage 1).1 ≠ 0 := h.windowTable
  rw [hnull] at hwindow
  exact hwindow pageOf_nullptr

/-- A machine with no memory above the first 2 MiB has no block for it. -/
theorem first_refused : ((PMM.initPMM ⟨MB 2, 0, 0, { byte := fun _ => 0 }⟩
    [⟨0, 0, 0x200000, 0, MULTIBOOT_MEMORY_AVAILABLE⟩]).getFreePhysicalPage 1).1 = nullptr := by
  rcases getFreePhysicalPage_cases (PMM.initPMM ⟨MB 2, 0, 0, { byte := fun _ => 0 }⟩
    [⟨0, 0, 0x200000, 0, MULTIBOOT_MEMORY_AVAILABLE⟩]) 1 with ⟨-, heq⟩ | ⟨f, -, -, hfirst, -⟩
  · exact congrArg Prod.fst heq
  · -- all blocks that the search looks at are in use
    have hused := hfirst.le_of_used (by decide) fun b => initPMM_reserved
    have hlt := hfirst.1
    rw [PMM.searchBound, memorySize_initPMM] at hlt
    exact absurd hlt (not_lt.mpr hused)

/-- On the PC with 16 MiB and no frame left, `mapPage` changes memory. A machine with no memory above the first 2 MiB
    puts frame 0 to use when it boots. -/
theorem frame_zero_used : (∃ m₀ ops m,
      Booted ⟨MB 16, 0, 0, { byte := fun _ => 0 }⟩ smallPc { byte := fun _ => 0 } 0 m₀ ∧
      Run (fun m op m' => m.exec op = some m' ∧ OutsideKernel op ∧ TableInWindow m op) m₀ ops m ∧
      TableRefused m 0x400000 ∧ ¬ KeepsMemory m 0x1000 0x400000) ∧
    ¬ FlatKeepsMemory exhausted 0x1000 0x400000 ∧
    ¬ AvoidsFrameZero (bootState ⟨MB 2, 0, 0, { byte := fun _ => 0 }⟩
      [⟨0, 0, 0x200000, 0, MULTIBOOT_MEMORY_AVAILABLE⟩] { byte := fun _ => 0 } 0) ∧
    ¬ FlatKeepsOffZero (bootState ⟨MB 2, 0, 0, { byte := fun _ => 0 }⟩
      [⟨0, 0, 0x200000, 0, MULTIBOOT_MEMORY_AVAILABLE⟩] { byte := fun _ => 0 } 0) := by
  obtain ⟨m₀, ops, m, hboot, hrun, hrefused⟩ := smallPc_refused
  refine ⟨⟨m₀, ops, m, hboot, hrun, hrefused, (hboot.keepsMemory_iff hrun).not.mpr (not_not.mpr hrefused)⟩, ?_,
    not_avoidsFrameZero first_refused, not_flatKeepsOffZero first_refused⟩
  have hdir : exhausted.currentPageDirectory = PHYS_2_VIRT (ptr (512 * 4096)) := by decide
  exact (flatKeepsMemory_iff hdir (by decide)).not.mpr (not_not.mpr (exhausted_refused _))

end Pros
