import Pros.MM.Proofs.WindowProofs
import Pros.MM.Proofs.VMMGrantProofs

/-!
# Proofs: booting through the page tables

The tables of `initVMM` lie in the window when it is cleared, so that it comes back with what it makes on flat memory
(`initVMM_inPlace`). A table that lies higher is cleared with a store to a page that is not mapped, so that it does
not come back (`tablesLow_of_init`).
-/

namespace Pros

open MemoryManager PageEntry

/-! ## The tables of the window -/

section Loader

variable {s m : MemoryManager} {a table dir phys virt : U32} {left k : ℕ}

theorem loaderTranslation_eq {ram : Ram} (h : 0xC0000000 ≤ a.toNat) (h' : a.toNat < 0xC0400000) :
    loaderTranslation ram a = some (VIRT_2_PHYS a) := if_pos ⟨BitVec.le_def.mpr h, BitVec.lt_def.mpr h'⟩

theorem wordInPlace_loader {ram : Ram} (h : 0xC0000000 ≤ a.toNat) (h' : a.toNat + 3 < 0xC0400000) :
    WordInPlace loaderTranslation ram a := by
  intro i hi
  have hnat := BitVec.toNat_add_cast (a := a) (n := i) (by omega)
  exact loaderTranslation_eq (by omega) (by omega)

/-- A frame in the window, behind the loader's directory. -/
theorem memset_loader {p : U32} (hp : p < 0x3FF000) : s.memset loaderTranslation (PHYS_2_VIRT p) 0 sizeofPageTable =
    some { s with
      ram := memset s.ram (VIRT_2_PHYS (PHYS_2_VIRT p)) 0 sizeofPageTable
      stored := inPlace (memsetAddresses (PHYS_2_VIRT p) sizeofPageTable) ++ s.stored } := by
  refine memset_inPlace fun ram _ i hi => ?_
  have hi' : i < 4096 := hi
  have hp' : p.toNat < 0x3FF000 := BitVec.lt_def.mp hp
  have hvirt := toNat_PHYS_2_VIRT p
  have hnat := BitVec.toNat_add_cast (a := PHYS_2_VIRT p) (n := i + 1) (by omega)
  exact loaderTranslation_eq (by omega) (by omega)

theorem toNat_entry {p : U32} (hp : p < 0x3FF000) {index : U32} (hindex : index.toNat < 1024) :
    (PHYS_2_VIRT p + 4 * index).toNat = p.toNat + 0xC0000000 + 4 * index.toNat := by
  have hp' : p.toNat < 0x3FF000 := BitVec.lt_def.mp hp
  rw [BitVec.toNat_add, toNat_PHYS_2_VIRT, four_mul, toNat_ptr_of_lt (by omega)]
  omega

theorem fillWindow_loader {p : U32} (hp : p < 0x3FF000) :
    s.fillWindow (PHYS_2_VIRT p) phys virt left = some { s with
      ram := flatFillWindow s.ram (PHYS_2_VIRT p) phys virt left
      stored := inPlace (windowAddresses (PHYS_2_VIRT p) virt left) ++ s.stored } := by
  induction left generalizing s phys virt with
  | zero => rfl
  | succ left ih =>
    have hidx := toNat_PAGE_TABLE_INDEX virt
    have hlt := tableIndex_lt virt
    have hp' : p.toNat < 0x3FF000 := BitVec.lt_def.mp hp
    have hnat : (PHYS_2_VIRT p + 4 * PAGE_TABLE_INDEX virt).toNat = _ := toNat_entry hp (by omega)
    have hword := @wordInPlace_loader (PHYS_2_VIRT p + 4 * PAGE_TABLE_INDEX virt) s.ram (by omega) (by omega)
    rw [MemoryManager.fillWindow, store32_inPlace hword, Option.bind_eq_bind, Option.bind_some, ih]
    simp only [windowAddresses, inPlace, List.map_append, List.append_assoc, flatFillWindow]

/-- `initVMM` up to its second loop, call by call. -/
theorem initTables_eq (m : MemoryManager) : m.initTables =
    ((m.getFreePhysicalPage 1).2.memset loaderTranslation (PHYS_2_VIRT (m.request 0)) 0 sizeofPageTable).bind fun s =>
      ((s.getFreePhysicalPage 1).2.memset loaderTranslation (PHYS_2_VIRT (s.getFreePhysicalPage 1).1) 0
        sizeofPageTable).bind fun s' =>
        (s'.fillWindow (PHYS_2_VIRT (m.request 0)) 0 0xC0000000 PAGES_PER_TABLE).bind fun s'' =>
          (s''.setEntry loaderTranslation
            (PHYS_2_VIRT (s.getFreePhysicalPage 1).1 + 4 * PAGE_DIRECTORY_INDEX 0xC0000000)
            (GET_FRAME_ADDRESS (VIRT_2_PHYS (PHYS_2_VIRT (m.request 0))))).bind fun t =>
              some (t.setPageDirectory (PHYS_2_VIRT (s.getFreePhysicalPage 1).1)) := rfl

/-- Clearing the first table leaves the allocator alone. -/
theorem second_request (hs : s.pmm = (m.getFreePhysicalPage 1).2.pmm) :
    (s.getFreePhysicalPage 1).1 = m.request 1 := by
  show (s.pmm.getFreePhysicalPage 1).1 = _
  rw [hs]
  rfl

/-- With its tables in the window, that is as on flat memory. -/
theorem initTables_inPlace (h₀ : m.request 0 < 0x3FF000) (h₁ : m.request 1 < 0x3FF000) :
    m.initTables = some m.flatInitTables := by
  have hindex := toNat_PAGE_DIRECTORY_INDEX 0xC0000000
  have hlt := dirIndex_lt 0xC0000000
  have h₁' : (m.request 1).toNat < 0x3FF000 := BitVec.lt_def.mp h₁
  have hentry : ∀ ram, WordInPlace loaderTranslation ram
      (PHYS_2_VIRT (m.request 1) + 4 * PAGE_DIRECTORY_INDEX 0xC0000000) := by
    intro ram
    have hnat : (PHYS_2_VIRT (m.request 1) + 4 * PAGE_DIRECTORY_INDEX 0xC0000000).toNat = _ :=
      toNat_entry h₁ (by omega)
    exact wordInPlace_loader (by omega) (by omega)
  rw [initTables_eq, memset_loader h₀, Option.bind_some]
  -- The state between the two requests.
  generalize hs : ({ (m.getFreePhysicalPage 1).2 with
    ram := memset (m.getFreePhysicalPage 1).2.ram (VIRT_2_PHYS (PHYS_2_VIRT (m.request 0))) 0 sizeofPageTable
    stored := inPlace (memsetAddresses (PHYS_2_VIRT (m.request 0)) sizeofPageTable) ++
      (m.getFreePhysicalPage 1).2.stored } : MemoryManager) = s
  rw [second_request (s := s) (m := m) (by rw [← hs]), memset_loader h₁, Option.bind_some, fillWindow_loader h₀,
    Option.bind_some, setEntry_inPlace (hentry _) (hentry _) (hentry _), Option.bind_some, ← hs]
  simp only [flatInitTables, MemoryManager.request, MemoryManager.getFreePhysicalPage, inPlace, List.map_append,
    List.append_assoc]

theorem request_lt (hres : ∀ b < 512, m.pmm.memoryMap.bit b = true) (k : ℕ) : (m.request k).toNat < 0xFFFFF000 := by
  induction k generalizing m with
  | zero =>
    rcases getFreePhysicalPage_one hres with heq | ⟨t, ht, -, hlt, -⟩
    · rw [show m.request 0 = nullptr from congrArg Prod.fst heq]
      decide
    · rw [show m.request 0 = ptr (t * 4096) from ht, toNat_ptr_of_lt (by omega)]
      omega
  | succ k ih => exact ih (m := (m.getFreePhysicalPage 1).2) fun b hb => bit_getFreePhysicalPage (hres b hb)

theorem refused_of_null (hres : ∀ b < 512, m.pmm.memoryMap.bit b = true)
    (hnull : (m.pmm.getFreePhysicalPage 1).1 = nullptr) : m.pmm.getFreePhysicalPage 1 = (nullptr, m.pmm) :=
  (getFreePhysicalPage_one hres).resolve_right fun ⟨_, ht, hge, hlt, _⟩ =>
    ptr_frame_ne_nullptr (by omega) (by omega) (ht.symm.trans hnull)

/-- A refusal stays. -/
theorem request_of_refused (h : m.pmm.getFreePhysicalPage 1 = (nullptr, m.pmm)) (k : ℕ) : m.request k = nullptr := by
  induction k generalizing m with
  | zero => exact congrArg Prod.fst h
  | succ k ih =>
    have hpmm : (m.getFreePhysicalPage 1).2.pmm = m.pmm := congrArg Prod.snd h
    exact ih (by rw [hpmm, h])

/-- The requests before one that is granted are granted. -/
theorem request_ne_nullptr (hres : ∀ b < 512, m.pmm.memoryMap.bit b = true) {l : ℕ} (hk : l ≤ k)
    (h : m.request k ≠ nullptr) : m.request l ≠ nullptr := by
  induction l generalizing m k with
  | zero => exact fun hnull => h (request_of_refused (refused_of_null hres hnull) k)
  | succ l ih =>
    obtain ⟨k, rfl⟩ : ∃ n, k = n + 1 := ⟨k - 1, by omega⟩
    exact ih (m := (m.getFreePhysicalPage 1).2) (fun b hb => bit_getFreePhysicalPage (hres b hb))
      (Nat.le_of_succ_le_succ hk) h

theorem granted_of_high (h : ¬ m.request k < 0x3FF000) :
    m.request k ≠ nullptr ∧ 0x3FF000 ≤ (m.request k).toNat := by
  refine ⟨fun hnull => ?_, Nat.le_of_not_lt (BitVec.lt_def.not.mp h)⟩
  rw [hnull] at h
  exact h (by decide)

/-- `memset` begins with the byte behind what it is given. -/
theorem memset_fault {τ : Ram → U32 → Option U32} {dest : U32} {val : U8} {n : ℕ}
    (h : τ s.ram (dest + ((n + 1 : ℕ) : U32)) = none) : s.memset τ dest val (n + 1) = none := by
  rw [MemoryManager.memset, MemoryManager.store8, MemoryManager.access, List.mapM_cons, h]
  rfl

theorem memset_loader_fault {p : U32} (hp : 0x3FF000 ≤ p.toNat) (hlt : p.toNat < 0xFFFFF000) :
    s.memset loaderTranslation (PHYS_2_VIRT p) 0 sizeofPageTable = none := by
  refine memset_fault (n := 4095) (if_neg ?_)
  have hvirt := toNat_PHYS_2_VIRT p
  have hnat : (PHYS_2_VIRT p + ((4095 + 1 : ℕ) : U32)).toNat = (p.toNat + 0xC0001000) % 2 ^ 32 := by
    rw [BitVec.toNat_add, hvirt, show (((4095 + 1 : ℕ) : U32)).toNat = 4096 from rfl]
    omega
  rw [BitVec.le_def, BitVec.lt_def, hnat, show (0xC0000000 : U32).toNat = 0xC0000000 from rfl,
    show (0xC0400000 : U32).toNat = 0xC0400000 from rfl]
  omega

theorem memset_first (h₀ : m.request 0 < 0x3FF000) : ∃ s, (m.getFreePhysicalPage 1).2.memset loaderTranslation
    (PHYS_2_VIRT (m.request 0)) 0 sizeofPageTable = some s ∧ s.pmm = (m.getFreePhysicalPage 1).2.pmm :=
  ⟨_, memset_loader h₀, rfl⟩

/-- `initVMM` does not get past a table of the window, or a page directory, that lies too high. -/
theorem initTables_fault (hlt : ∀ k, (m.request k).toNat < 0xFFFFF000)
    (h : ¬ (m.request 0 < 0x3FF000 ∧ m.request 1 < 0x3FF000)) : m.initTables = none := by
  have hhigh : ∀ k, ¬ m.request k < 0x3FF000 → 0x3FF000 ≤ (m.request k).toNat := fun k hk =>
    Nat.le_of_not_lt (BitVec.lt_def.not.mp hk)
  by_cases h₀ : m.request 0 < 0x3FF000
  · have h₁ : ¬ m.request 1 < 0x3FF000 := fun h₁ => h ⟨h₀, h₁⟩
    obtain ⟨s, hs, hpmm⟩ := memset_first h₀
    rw [initTables_eq, hs, Option.bind_some, second_request hpmm, memset_loader_fault (hhigh 1 h₁) (hlt 1)]
    rfl
  · rw [initTables_eq, memset_loader_fault (hhigh 0 h₀) (hlt 0)]
    rfl

/-- So it is on flat memory, or faults. -/
theorem initTables_eq_flat {m' : MemoryManager} (hres : ∀ b < 512, m.pmm.memoryMap.bit b = true)
    (h : m.initTables = some m') : m' = m.flatInitTables := by
  by_cases hlow : m.request 0 < 0x3FF000 ∧ m.request 1 < 0x3FF000
  · exact Option.some.inj (h.symm.trans (initTables_inPlace hlow.1 hlow.2))
  · rw [initTables_fault (request_lt hres) hlow] at h
    cases h

end Loader

section Boot

variable {m : MemoryManager} {d k p : ℕ} {phys virt v : U32}

/-- A table that is there is the one that the next call edits, too. -/
theorem editedTable_flatMapPage (h : Paged m d) (hv : dirIndex v = dirIndex virt) :
    editedTable ((m.flatMapPage phys virt).getFreePhysicalPage 1).2 v = editedTable m virt := by
  obtain ⟨h', hwords⟩ := h.flatMapPage_words phys virt
  obtain ⟨-, hp⟩ := h.flatEnsureTable virt
  have hentry : ((m.flatMapPage phys virt).getFreePhysicalPage 1).2.walkDirectory v =
      dirEntry (m.flatEnsureTable virt) d (dirIndex virt) := by
    rw [← hwords _ (dirIndex_lt virt), ← hv]
    exact walkDirectory_eq (m := ((m.flatMapPage phys virt).getFreePhysicalPage 1).2) h'.dir_eq
  rw [editedTable_of_paged h, editedTable, hentry, if_pos hp, PAGE_GET_PHYSICAL_ADDRESS_eq]
  rfl

theorem tableInWindow_of_low (phys : U32) (h : editedTable m virt < 0x3FF000) :
    TableInWindow m (.mapPage phys virt) := by
  have hlt : (editedTable m virt).toNat < 0x3FF000 := BitVec.lt_def.mp h
  refine ⟨Or.inl ?_, fun _ => Or.inl ?_⟩
  · rw [BitVec.lt_def, show (0x400000 : U32).toNat = 0x400000 from rfl]
    omega
  · rw [BitVec.lt_def, BitVec.toNat_add, show (0x400000 : U32).toNat = 0x400000 from rfl,
      show PAGE_SIZE.toNat = 4096 from rfl]
    omega

theorem mapHeap_succ (m : MemoryManager) (phys : U32) {fuel : ℕ} (hk : k < 256) :
    m.mapHeap phys (heapPage k) (fuel + 1) = (m.mapPage phys (heapPage k)).bind fun s =>
      (s.getFreePhysicalPage 1).2.mapHeap (s.getFreePhysicalPage 1).1 (heapPage (k + 1)) fuel := by
  rw [MemoryManager.mapHeap, if_pos ((heapPage_lt_iff (by omega)).mpr hk), heapPage_succ]
  rfl

/-- The loop over the heap edits its table in place. -/
theorem HeapMapped.mapHeap_inPlace {fuel : ℕ} (h : HeapMapped m d k p) (hd : d < 1024)
    (hlow : k < 256 → editedTable m (heapPage k) < 0x3FF000) (hk : k + fuel = 257) (hle : k ≤ 256) :
    (AllGranted (m.flatMapHeap (ptr (p * 4096)) (heapPage k) fuel) →
      m.mapHeap (ptr (p * 4096)) (heapPage k) fuel = some (m.flatMapHeap (ptr (p * 4096)) (heapPage k) fuel)) ∧
    ∀ m', m.mapHeap (ptr (p * 4096)) (heapPage k) fuel = some m' → AllGranted m' →
      AllGranted (m.flatMapHeap (ptr (p * 4096)) (heapPage k) fuel) := by
  induction fuel generalizing m k p with
  | zero => omega
  | succ fuel ih =>
    by_cases hlt : k < 256
    · obtain ⟨hin, hapart⟩ := h.windowKept.tablesInPlace hd
        (tableInWindow_of_low (ptr (p * 4096)) (hlow hlt))
      rw [mapHeap_succ m _ hlt, flatMapHeap_succ m _ hlt, h.paged.mapPage_inPlace hin hapart, Option.bind_some]
      by_cases hg : AllGranted ((m.flatMapPage (ptr (p * 4096)) (heapPage k)).getFreePhysicalPage 1).2
      · obtain ⟨p', hp', h'⟩ := h.step hlt hg
        rw [hp']
        refine ih h' (fun hlt' => ?_) (by omega) (by omega)
        rw [editedTable_flatMapPage h.paged (by rw [dirIndex_heapPage hlt', dirIndex_heapPage hlt])]
        exact hlow hlt
      · -- The refusal stays on record in both.
        rw [AllGranted, not_not] at hg
        exact ⟨fun hall => absurd (granted_flatMapHeap hg) hall,
          fun m' hm' hall => absurd (mem_granted_mapHeap hm' hg) hall⟩
    · obtain rfl : k = 256 := by omega
      have hend : m.mapHeap (ptr (p * 4096)) (heapPage 256) (fuel + 1) = some m := by
        rw [MemoryManager.mapHeap, if_neg ((heapPage_lt_iff le_rfl).not.mpr (by omega))]
      rw [hend, flatMapHeap_end]
      exact ⟨fun _ => rfl, fun m' hm' hall => Option.some.inj hm' ▸ hall⟩

theorem request_three (m : MemoryManager) :
    m.request 3 = ((m.flatInitTables.getFreePhysicalPage 1).2.getFreePhysicalPage 1).1 := by
  have hpmm : m.flatInitTables.pmm = ((m.getFreePhysicalPage 1).2.getFreePhysicalPage 1).2.pmm := rfl
  have hfst : ∀ s : MemoryManager, ((s.getFreePhysicalPage 1).2.getFreePhysicalPage 1).1 =
      ((s.pmm.getFreePhysicalPage 1).2.getFreePhysicalPage 1).1 := fun _ => rfl
  rw [hfst, hpmm, ← hfst]
  rfl

theorem directory_lt_of_low (h : m.request 1 < 0x3FF000)
    (hdir : PHYS_2_VIRT (m.request 1) = PHYS_2_VIRT (ptr (d * 4096))) (hd : d < 2 ^ 20 - 1) : d < 1024 := by
  have hlt : (m.request 1).toNat < 0x3FF000 := BitVec.lt_def.mp h
  rw [← VIRT_2_PHYS_PHYS_2_VIRT (m.request 1), hdir, VIRT_2_PHYS_PHYS_2_VIRT, toNat_ptr_of_lt (by omega)] at hlt
  omega

/-- Behind the two tables of the window, with the frames granted, the heap's first page has its frame or is refused
    one. -/
theorem start_of_granted (hres : ∀ b < 512, m.pmm.memoryMap.bit b = true) (hmapped : m.mapped = [])
    (hgranted : m.granted = []) (h₀ : m.request 0 ≠ nullptr) (h₁ : m.request 1 ≠ nullptr)
    (hlow : m.request 1 < 0x3FF000) (h₂ : (m.flatInitTables.getFreePhysicalPage 1).1 ≠ nullptr) :
    ∃ d p, (m.flatInitTables.getFreePhysicalPage 1).1 = ptr (p * 4096) ∧
      HeapMapped (m.flatInitTables.getFreePhysicalPage 1).2 d 0 p ∧ d < 1024 ∧
      AllGranted (m.flatInitTables.getFreePhysicalPage 1).2 ∧
      present (dirEntry (m.flatInitTables.getFreePhysicalPage 1).2 d 769) = false := by
  have hall : AllGranted m.flatInitTables := by
    rw [AllGranted, granted_flatInitTables, hgranted, List.mem_cons, List.mem_cons, not_or, not_or]
    exact ⟨h₁.symm, h₀.symm, List.not_mem_nil⟩
  obtain ⟨d, hpaged, hzero, hwindow, habsent⟩ := paged_flatInitTables hres hmapped hall
  obtain ⟨p, hp, hstart⟩ := heapMapped_start hpaged hzero hwindow habsent hmapped h₂
  have hdir : PHYS_2_VIRT (m.request 1) = PHYS_2_VIRT (ptr (d * 4096)) := hpaged.dir_eq
  exact ⟨d, p, hp, hstart, directory_lt_of_low hlow hdir hpaged.dir_settled.lt,
    allGranted_getFreePhysicalPage.mpr ⟨h₂.symm, hall⟩, habsent 769 (by omega) (by omega) (by omega)⟩

/-- `initVMM` does not get past a table for the heap that lies too high. -/
theorem HeapMapped.mapPage_fault (h : HeapMapped m d 0 p) (hd : d < 1024)
    (habs : present (dirEntry m d 769) = false) (hhigh : 0x3FF000 ≤ (m.getFreePhysicalPage 1).1.toNat)
    (hlt : (m.getFreePhysicalPage 1).1.toNat < 0x3FFFF000) : m.mapPage phys (heapPage 0) = none := by
  have hdir := (h.windowKept.pageInPlace (by omega) (frameInWindow_of_lt hd)).1
  rw [← h.paged.dir_eq] at hdir
  have hvirt := toNat_PHYS_2_VIRT (m.getFreePhysicalPage 1).1
  have hnat : (PHYS_2_VIRT (m.getFreePhysicalPage 1).1 + ((4095 + 1 : ℕ) : U32)).toNat =
      (m.getFreePhysicalPage 1).1.toNat + 0xC0001000 := by
    rw [BitVec.toNat_add, hvirt, show (((4095 + 1 : ℕ) : U32)).toNat = 4096 from rfl]
    omega
  -- Behind the window, nothing is mapped yet.
  have habsent : present (dirEntry m d (dirIndex (PHYS_2_VIRT (m.getFreePhysicalPage 1).1 + ((4095 + 1 : ℕ) : U32)))) =
      false := by
    generalize hi : dirIndex _ = i
    rw [dirIndex, hnat] at hi
    by_cases h769 : i = 769
    · rw [h769, habs]
    · exact h.absent i (by omega) (by omega) (by omega) h769
  have hnew : m.newTable (m.directoryEntry (heapPage 0)) = none := by
    have hfault : (m.getFreePhysicalPage 1).2.memset m.translation (PHYS_2_VIRT (m.getFreePhysicalPage 1).1) 0
        sizeofPageTable = none := by
      refine memset_fault (n := 4095) (show m.translate _ = none from ?_)
      rw [MemoryManager.translate, walk_eq_entries h.paged.dir_eq, habsent]
      rfl
    rw [newTable_eq, hfault]
    rfl
  rw [mapPage_eq, h.paged.ensureTable_eq hdir, dirIndex_heapPage (by omega), habs, if_neg Bool.false_ne_true, hnew]
  rfl

theorem initVMM_eq (h₀ : m.request 0 < 0x3FF000) (h₁ : m.request 1 < 0x3FF000) : m.initVMM =
    (m.flatInitTables.getFreePhysicalPage 1).2.mapHeap (m.flatInitTables.getFreePhysicalPage 1).1 (heapPage 0) 257 := by
  rw [MemoryManager.initVMM, initTables_inPlace h₀ h₁, ← heapPage_zero, Option.bind_eq_bind, Option.bind_some]

/-- If `initVMM` comes back, its tables lie in the window, or the heap's is so high that its place in the window is
    behind the directory's first entry. -/
theorem tablesLow_of_init (hres : ∀ b < 512, m.pmm.memoryMap.bit b = true) (hmapped : m.mapped = [])
    (hgranted : m.granted = []) (hfourth : (m.request 3).toNat < 0x3FFFF000) {m' : MemoryManager}
    (h : m.initVMM = some m') : TablesLow m := by
  by_cases hwindow : m.request 0 < 0x3FF000 ∧ m.request 1 < 0x3FF000
  · obtain ⟨h₀, h₁⟩ := hwindow
    refine ⟨h₀, h₁, by_contra fun h₃ => ?_⟩
    obtain ⟨hne, hthird⟩ := granted_of_high h₃
    have hgrant : ∀ l ≤ 3, m.request l ≠ nullptr := fun l hl => request_ne_nullptr hres hl hne
    obtain ⟨d, p, -, hstart, hd, -, habs⟩ := start_of_granted hres hmapped hgranted (hgrant 0 (by omega))
      (hgrant 1 (by omega)) h₁ (hgrant 2 (by omega))
    rw [request_three] at hthird hfourth
    rw [initVMM_eq h₀ h₁, mapHeap_succ _ _ (by omega), hstart.mapPage_fault hd habs hthird hfourth] at h
    cases h
  · rw [MemoryManager.initVMM, initTables_fault (request_lt hres) hwindow] at h
    cases h

/-- `initVMM` with its tables in the window. -/
theorem initVMM_inPlace (hres : ∀ b < 512, m.pmm.memoryMap.bit b = true) (hmapped : m.mapped = [])
    (hlow : TablesLow m) : (AllGranted m.flatInitVMM → m.initVMM = some m.flatInitVMM) ∧
      ∀ m', m.initVMM = some m' → AllGranted m' → AllGranted m.flatInitVMM := by
  rw [initVMM_eq hlow.1 hlow.2.1, flatInitVMM_eq]
  by_cases hnull : AllGranted (m.flatInitTables.getFreePhysicalPage 1).2
  · have hg := allGranted_getFreePhysicalPage.mp hnull
    obtain ⟨d, hpaged, hzero, hwindow, habsent⟩ := paged_flatInitTables hres hmapped hg.2
    have hdir : PHYS_2_VIRT (m.request 1) = PHYS_2_VIRT (ptr (d * 4096)) := hpaged.dir_eq
    have hd := directory_lt_of_low hlow.2.1 hdir hpaged.dir_settled.lt
    have hmapped' : m.flatInitTables.mapped = [] := hmapped
    have hfourth := hlow.2.2
    rw [request_three] at hfourth
    generalize m.flatInitTables = s at *
    obtain ⟨p, hp, hstart⟩ := heapMapped_start hpaged hzero hwindow habsent hmapped' hg.1.symm
    rw [hp]
    refine hstart.mapHeap_inPlace hd (fun _ => ?_) rfl (by omega)
    have habs : present (dirEntry (s.getFreePhysicalPage 1).2 d (dirIndex (heapPage 0))) = false := by
      rw [dirIndex_heapPage (by omega)]
      exact habsent 769 (by omega) (by omega) (by omega)
    rw [editedTable_of_absent hstart.paged habs]
    exact hfourth
  · rw [AllGranted, not_not] at hnull
    exact ⟨fun hall => absurd (granted_flatMapHeap hnull) hall,
      fun m' hm' hall => absurd (mem_granted_mapHeap hm' hnull) hall⟩

theorem dir_getFreePhysicalPage (m : MemoryManager) (size : U32) :
    (m.getFreePhysicalPage size).2.currentPageDirectory = m.currentPageDirectory := rfl

theorem dir_flatInitTables (m : MemoryManager) :
    m.flatInitTables.currentPageDirectory = PHYS_2_VIRT (m.request 1) := rfl

theorem dir_flatMapHeap {fuel : ℕ} :
    (m.flatMapHeap phys virt fuel).currentPageDirectory = m.currentPageDirectory := by
  induction fuel generalizing m phys virt with
  | zero => rfl
  | succ fuel ih =>
    rw [flatMapHeap]
    split_ifs
    · exact ih.trans (dir_flatEnsureTable m virt)
    · rfl

variable {s : PMM} {entries : List MmapEntry} {ram : Ram} {dir : U32}

theorem heapMapped_boot (hinit : AllGranted (bootState s entries ram dir).flatInitVMM) :
    ∃ d p, HeapMapped (bootState s entries ram dir).flatInitVMM d 256 p :=
  heapMapped_flatInitVMM (fun _ => initPMM_reserved) rfl hinit

theorem Booted.tables (h : Booted s entries ram dir m) : TablesLow (bootState s entries ram dir) :=
  tablesLow_of_init (m := bootState s entries ram dir) (fun _ => initPMM_reserved) rfl rfl
    (BitVec.lt_def.mp h.heapTable) h.init

/-- The state that is reached is the one on flat memory. -/
theorem Booted.eq_flat (h : Booted s entries ram dir m) : m = (bootState s entries ram dir).flatInitVMM ∧
    AllGranted (bootState s entries ram dir).flatInitVMM := by
  obtain ⟨hsome, hgranted⟩ := initVMM_inPlace (m := bootState s entries ram dir) (fun _ => initPMM_reserved) rfl
    h.tables
  have hall := hgranted m h.init h.granted
  exact ⟨Option.some.inj (h.init.symm.trans (hsome hall)), hall⟩

theorem booted_of_granted (hg : AllGranted (bootState s entries ram dir).flatInitVMM)
    (hlow : TablesLow (bootState s entries ram dir)) :
    Booted s entries ram dir (bootState s entries ram dir).flatInitVMM := by
  have hres : ∀ b < 512, (bootState s entries ram dir).pmm.memoryMap.bit b = true := fun _ => initPMM_reserved
  have hmapped : (bootState s entries ram dir).mapped = [] := rfl
  have hinit := (initVMM_inPlace hres hmapped hlow).1 hg
  exact ⟨hinit, hg, BitVec.lt_trans hlow.2.2 (by decide)⟩

/-- The heap is mapped, and the page directory lies in the window. -/
theorem Booted.heapMapped (h : Booted s entries ram dir m) : ∃ d p, HeapMapped m d 256 p ∧ d < 1024 := by
  obtain ⟨heq, hg⟩ := h.eq_flat
  obtain ⟨d, p, hmapped⟩ := heapMapped_boot hg
  have hdir : PHYS_2_VIRT ((bootState s entries ram dir).request 1) = PHYS_2_VIRT (ptr (d * 4096)) := by
    rw [← hmapped.paged.dir_eq, flatInitVMM_eq, dir_flatMapHeap, ← dir_flatInitTables,
      dir_getFreePhysicalPage]
  rw [heq]
  exact ⟨d, p, hmapped, directory_lt_of_low h.tables.2.1 hdir hmapped.paged.dir_settled.lt⟩

/-- The next page table goes to the first free block. -/
theorem FreeFrom.newTable {q top : ℕ} (hfree : FreeFrom m.pmm q top) (h : Paged m d) (hg : AllGranted m)
    (hq : q < top) (habs : present (dirEntry m d (dirIndex virt)) = false) (phys : U32) :
    editedTable m virt = ptr (q * 4096) ∧ TableGranted m (.mapPage phys virt) := by
  have hp := (hfree.getFreePhysicalPage hq hg).1
  have hge := hfree.ge
  have hlt := hfree.lt hq
  refine ⟨(editedTable_of_absent h habs).trans hp, ?_⟩
  rw [tableGranted_iff h, hp]
  exact fun _ => ptr_frame_ne_nullptr (by omega) hlt

theorem FreeFrom.tableInWindow {q top : ℕ} (hfree : FreeFrom m.pmm q top) (h : Paged m d) (hg : AllGranted m)
    (hq : q < top) (hlt : q + 1 < 1024) (habs : present (dirEntry m d (dirIndex virt)) = false) (phys : U32) :
    TableInWindow m (.mapPage phys virt) := by
  have hedited := (hfree.newTable h hg hq habs phys).1
  rw [TableInWindow]
  simp only [hedited, ptr_add_PAGE_SIZE]
  exact ⟨frameInWindow_of_lt (by omega), fun _ => frameInWindow_of_lt hlt⟩

/-- From the first free block on, requests are granted in order. -/
theorem FreeFrom.request {q top : ℕ} (h : FreeFrom m.pmm q top) (hg : AllGranted m) (hk : q + k < top) :
    m.request k = ptr ((q + k) * 4096) := by
  induction k generalizing m q with
  | zero => exact (h.getFreePhysicalPage (by omega) hg).1
  | succ k ih =>
    obtain ⟨-, hg', h'⟩ := h.getFreePhysicalPage (by omega) hg
    rw [MemoryManager.request, ih h' hg' (by omega), Nat.add_assoc, Nat.add_comm 1 k]

/-- The PC with 16 MiB comes up. -/
theorem booted_smallPc (map : Memory ℕ) (ram : Ram) (dir : U32) :
    ∃ m, Booted ⟨MB 16, 0, 0, map⟩ smallPc ram dir m ∧ ∃ q ≤ 772, 771 ≤ q ∧ FreeFrom m.pmm q 4096 := by
  obtain ⟨hinit, hfree⟩ := flatInitVMM_smallPc map ram dir
  refine ⟨_, booted_of_granted hinit ?_, hfree⟩
  have hstart : FreeFrom (bootState ⟨MB 16, 0, 0, map⟩ smallPc ram dir).pmm 512 4096 := freeFrom_smallPc map
  have hnone : AllGranted (bootState ⟨MB 16, 0, 0, map⟩ smallPc ram dir) := List.not_mem_nil
  have hrequest : ∀ k < 4, (bootState ⟨MB 16, 0, 0, map⟩ smallPc ram dir).request k < 0x3FF000 := by
    intro k hk
    rw [hstart.request hnone (by omega), BitVec.lt_def, toNat_ptr_of_lt (by omega),
      show (0x3FF000 : U32).toNat = 0x3FF000 from rfl]
    omega
  exact ⟨hrequest 0 (by omega), hrequest 1 (by omega), hrequest 3 (by omega)⟩

end Boot

end Pros
