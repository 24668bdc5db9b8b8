import Pros.MM.Proofs.StaleBytesProofs
import Pros.MM.Proofs.AddressSpaceProofs

/-!
# Only what was asked for is mapped

`initVMM` leaves only what it has mapped exactly when the first bytes of the page directory and of the heap's
page table are clean, and a run keeps to that exactly as long as every call finds clean bytes
(`only_mapped_iff`).
-/

namespace Pros

open MemoryManager PageEntry

section Boot

variable {m : MemoryManager} {d t p k : ℕ} {v : U32}

theorem windowFrame_of_dirIndex (hv : dirIndex v = 768) :
    windowFrame v = some (pageOf (v - 0xC0000000)) := by
  rw [dirIndex] at hv
  rw [windowFrame, if_pos]
  rw [BitVec.le_def, BitVec.lt_def, show (0xC0000000 : U32).toNat = 0xC0000000 from rfl,
    show (0xC0400000 : U32).toNat = 0xC0400000 from rfl]
  omega

theorem Paged.dir_unique (h : Paged m d) {d' : ℕ} (hd' : d' < 2 ^ 20)
    (hdir : m.currentPageDirectory = PHYS_2_VIRT (ptr (d' * 4096))) : d' = d := by
  have hd := h.dir_settled.lt
  have heq := congrArg VIRT_2_PHYS (hdir.symm.trans h.dir_eq)
  rw [VIRT_2_PHYS_PHYS_2_VIRT, VIRT_2_PHYS_PHYS_2_VIRT, ptr_inj (by omega) (by omega)] at heq
  omega

/-! ## The page directory -/

/-- What `initTables` was granted. -/
structure TablesAt (m : MemoryManager) (t d : ℕ) : Prop where
  table : (m.getFreePhysicalPage 1).1 = ptr (t * 4096)
  dir : ((m.getFreePhysicalPage 1).2.getFreePhysicalPage 1).1 = ptr (d * 4096)
  ge : 512 ≤ t
  lt : t < d
  bound : d < 2 ^ 20 - 1

section Tables

variable (h : TablesAt m t d)

include h

theorem TablesAt.tableFrame_eq : tableFrame m.flatInitTables d 768 = t := by
  have hlt := h.lt
  have hbound := h.bound
  have hnat : (BitVec.ofNat 32 t).toNat = t := by
    rw [BitVec.toNat_ofNat]
    omega
  rw [tableFrame, (words_flatInitTables h.table h.dir h.lt h.bound).2.1,
    frame_entryWord (by rw [hnat]; omega), hnat]

theorem TablesAt.tableEntry_eq (hv : dirIndex v = 768) :
    tableEntry m.flatInitTables d v = entryWord 0 (BitVec.ofNat 32 (tableIndex v)) := by
  rw [tableEntry, hv, h.tableFrame_eq,
    (words_flatInitTables h.table h.dir h.lt h.bound).1 _ (tableIndex_lt v)]

/-- The window's entry and perhaps the first one. -/
theorem TablesAt.cases (hp : present (dirEntry m.flatInitTables d (dirIndex v)) = true) :
    dirIndex v = 0 ∨ dirIndex v = 768 := by
  by_contra hne
  rw [not_or] at hne
  rw [(words_flatInitTables h.table h.dir h.lt h.bound).2.2.2 _ (by omega) (dirIndex_lt v) hne.2] at hp
  cases hp

theorem TablesAt.getLsbD_dirEntry {i : ℕ} (hi : i < 32) : (dirEntry m.flatInitTables d 0).getLsbD i =
    (decide (i < 8) && (decide (d ≠ t + 1) && (word m.ram (1024 * d)).getLsbD i)) := by
  have hlt := h.lt
  have hbound := h.bound
  rw [dirEntry, word_flatInitTables h.table h.dir h.lt h.bound (by omega), if_neg (by omega),
    if_neg (by omega), Nat.add_zero, getLsbD_word_memset hi]
  by_cases h8 : i < 8
  · congr 1
    by_cases hnext : d = t + 1
    · rw [hnext, getLsbD_word_memset_next h8, decide_eq_false (fun hne => hne rfl), Bool.false_and]
    · rw [word_memset_of_ne (by omega) (by omega) (by omega), decide_eq_true hnext, Bool.true_and]
  · rw [decide_eq_false h8, Bool.false_and, Bool.false_and]

/-- Frames behind the directory's and in front of the window's table are not written to. -/
theorem TablesAt.word_eq {l : ℕ} (hl : l < 1024 * t ∨ 1024 * (d + 1) < l) (hl' : l < 2 ^ 30) :
    word m.flatInitTables.ram l = word m.ram l := by
  have hlt := h.lt
  have hbound := h.bound
  rw [word_flatInitTables h.table h.dir h.lt h.bound hl', if_neg (by omega), if_neg (by omega),
    word_memset_of_ne (by omega) hl' (by omega), word_memset_of_ne (by omega) hl' (by omega)]

/-- The pages of the window were mapped. -/
theorem TablesAt.window_page (hmapped : m.mapped = []) (hv : dirIndex v = 768) :
    lastMapping m.flatInitTables v ≠ none ∧ Plain (tableEntry m.flatInitTables d v) := by
  have hmapped' : m.flatInitTables.mapped = [] := hmapped
  constructor
  · rw [lastMapping, hmapped', lastMapped, windowFrame_of_dirIndex hv]
    exact Option.some_ne_none _
  · rw [h.tableEntry_eq hv, plain_entryWord]
    exact plain_zero

theorem TablesAt.cleared (hmapped : m.mapped = []) : Cleared m.flatInitTables d := by
  obtain ⟨htable, hwindow, hzero, hrest⟩ := words_flatInitTables h.table h.dir h.lt h.bound
  constructor
  · intro k hk hk0
    by_cases hk768 : k = 768
    · rw [hk768, hwindow, plain_entryWord]
      exact plain_zero
    · rw [hrest k (by omega) hk hk768]
      exact plain_zero
  · intro i hi h8
    rw [h.getLsbD_dirEntry (by omega), decide_eq_false (by omega), Bool.false_and]
  · intro v hp hne _
    have hv : dirIndex v = 768 := (h.cases hp).resolve_left fun h0 => hne (by rw [h0, hzero])
    obtain ⟨hsome, hplain⟩ := h.window_page hmapped hv
    exact ⟨fun hnone => absurd hnone hsome, hplain⟩
  · intro k hk hp hne i hi h8
    obtain ⟨v, rfl, -⟩ := exists_page hk (Nat.zero_lt_succ 1023)
    have hv : dirIndex v = 768 := (h.cases hp).resolve_left fun h0 => hne (by rw [h0, hzero])
    have hfirst := htable 0 (by omega)
    rw [Nat.add_zero] at hfirst
    rw [hv, h.tableFrame_eq, hfirst, getLsbD_entryWord hi, decide_eq_false (by omega), Bool.or_false]
    exact BitVec.getLsbD_zero

end Tables

/-! ## The kernel heap -/

theorem tableIndex_heapPage (hk : k < 256) : tableIndex (heapPage k) = k := by
  rw [tableIndex, toNat_heapPage hk]
  omega

/-- The directory and the window's table, if they were granted. -/
theorem exists_tablesAt (hres : ∀ b < 512, m.pmm.memoryMap.bit b = true) (hmapped : m.mapped = [])
    (hg : AllGranted m.flatInitTables) : ∃ t d, TablesAt m t d ∧ Paged m.flatInitTables d ∧
      ZeroFrameFirst m.flatInitTables d ∧ present (dirEntry m.flatInitTables d 768) = true ∧
      ∀ k, 0 < k → k < 1024 → k ≠ 768 → present (dirEntry m.flatInitTables d k) = false := by
  obtain ⟨t, d, hp1, hp2, ht, htd, hdlt, -⟩ := flatInitTables_frames hres hg
  obtain ⟨d', hpaged, hrest⟩ := paged_flatInitTables hres hmapped hg
  obtain rfl := hpaged.dir_unique (show d < 2 ^ 20 by omega) (congrArg PHYS_2_VIRT hp2)
  exact ⟨t, d, ⟨hp1, hp2, ht, htd, hdlt⟩, hpaged, hrest⟩

theorem Paged.newFrame (h : Paged m d) (hp : (m.getFreePhysicalPage 1).1 = ptr (p * 4096))
    (hlt : p < 2 ^ 20) : NewFrame m (m.getFreePhysicalPage 1).2 p := by
  obtain ⟨q, hq, hnew⟩ := exists_newFrame h
  have hqlt := hnew.lt
  have heq := hp.symm.trans hq
  rw [ptr_inj (by omega) (by omega)] at heq
  obtain rfl : p = q := by omega
  exact hnew

/-- A page table is created, and written to, in front of the next free frame. -/
theorem Paged.word_flatMapPage (h : Paged m d) {phys virt : U32} {l : ℕ}
    (hn : NewFrame (m.flatMapPage phys virt) ((m.flatMapPage phys virt).getFreePhysicalPage 1).2 p) (hp : p ≠ 0)
    (hg : TableGranted m (.mapPage phys virt)) (hl : 1024 * p < l) (hl' : l < 2 ^ 30) :
    word (m.flatMapPage phys virt).ram l = word m.ram l := by
  obtain ⟨h1, hp1⟩ := h.flatEnsureTable virt
  have hs := storesPage_flatMapPage h1.dir_eq phys
  have hj := tableIndex_lt virt
  have hi := dirIndex_lt virt
  have hdp := (hn.above (h.flatMapPage phys virt).dir_settled).resolve_left hp
  have htable : tableFrame (m.flatEnsureTable virt) d (dirIndex virt) < p := by
    rcases h1.settled _ hi hp1 with h0 | ⟨hset, -⟩
    · omega
    · exact (hn.above (hset.mono fun b hb => hb)).resolve_left hp
  rw [hs.word_eq hl', if_neg (by omega)]
  cases habs : present (dirEntry m d (dirIndex virt)) with
  | true => rw [flatEnsureTable_eq h, if_pos habs]
  | false =>
    obtain ⟨t, -, ht⟩ := exists_freshTable h habs hg
    rw [ht.tableFrame_eq] at htable
    exact ht.word_eq l hl' (by omega) (by omega)

/-- One round of the loop over the heap does not write behind the frame that it takes last. -/
theorem HeapMapped.word_step (h : HeapMapped m d k p) (hset : Settled m p) (hk : k < 256)
    (hg : AllGranted ((m.flatMapPage (ptr (p * 4096)) (heapPage k)).getFreePhysicalPage 1).2) :
    ∃ p', ((m.flatMapPage (ptr (p * 4096)) (heapPage k)).getFreePhysicalPage 1).1 = ptr (p' * 4096) ∧
      HeapMapped ((m.flatMapPage (ptr (p * 4096)) (heapPage k)).getFreePhysicalPage 1).2 d (k + 1) p' ∧
      Settled ((m.flatMapPage (ptr (p * 4096)) (heapPage k)).getFreePhysicalPage 1).2 p' ∧ p < p' ∧
      ∀ l, 1024 * p' < l → l < 2 ^ 30 →
        word (m.flatMapPage (ptr (p * 4096)) (heapPage k)).ram l = word m.ram l := by
  obtain ⟨p', hp', h'⟩ := h.step hk hg
  have hplt := h'.pending.lt
  have hpge := h'.pending.ge
  have hnew := (h.paged.flatMapPage (ptr (p * 4096)) (heapPage k)).newFrame hp' (by omega)
  have hp0 : p' ≠ 0 := by omega
  rw [allGranted_getFreePhysicalPage] at hg
  have hkept : Settled (m.flatMapPage (ptr (p * 4096)) (heapPage k)) p := hset.mono fun _ => bit_flatEnsureTable
  refine ⟨p', hp', h', hnew.settled.resolve_left hp0, (hnew.above hkept).resolve_left hp0, fun l hl hl' => ?_⟩
  exact h.paged.word_flatMapPage hnew hp0 (tableGranted_of_allGranted h.paged hg.2) hl hl'

/-- Nor does the whole loop. -/
theorem HeapMapped.word_flatMapHeap {fuel : ℕ} (h : HeapMapped m d k p) (hset : Settled m p)
    (hk : k + fuel = 257) (hle : k ≤ 256)
    (hg : AllGranted (MemoryManager.flatMapHeap m (ptr (p * 4096)) (heapPage k) fuel)) :
    ∃ p', Settled (MemoryManager.flatMapHeap m (ptr (p * 4096)) (heapPage k) fuel) p' ∧ p ≤ p' ∧
      ∀ l, 1024 * p' < l → l < 2 ^ 30 →
        word (MemoryManager.flatMapHeap m (ptr (p * 4096)) (heapPage k) fuel).ram l = word m.ram l := by
  induction fuel generalizing m k p with
  | zero => omega
  | succ fuel ih =>
    by_cases hlt : k < 256
    · rw [flatMapHeap_succ m _ hlt] at hg ⊢
      obtain ⟨p1, hp1, h1, hset1, hlt1, hword1⟩ :=
        h.word_step hset hlt fun hx => hg (granted_flatMapHeap hx)
      rw [hp1] at hg ⊢
      obtain ⟨p2, hset2, hle2, hword2⟩ := ih h1 hset1 (by omega) (by omega) hg
      refine ⟨p2, hset2, by omega, fun l hl hl' => ?_⟩
      rw [hword2 l hl hl']
      exact hword1 l (by omega) hl'
    · obtain rfl : k = 256 := by omega
      rw [flatMapHeap_end]
      exact ⟨p, hset, le_rfl, fun _ _ _ => rfl⟩

/-- A frame that is still free after `initVMM` holds what it held before. -/
theorem byte_flatInitVMM (hres : ∀ b < 512, m.pmm.memoryMap.bit b = true) (hmapped : m.mapped = [])
    (hg : AllGranted m.flatInitVMM) {q : ℕ} (hq : m.flatInitVMM.pmm.memoryMap.bit q = false) (hq' : q < 2 ^ 20)
    {i : ℕ} (hi : i < 8) :
    (m.flatInitVMM.ram.byte (ptr (q * 4096))).getLsbD i = (m.ram.byte (ptr (q * 4096))).getLsbD i := by
  rw [getLsbD_byte hi, getLsbD_byte hi]
  obtain ⟨hg1, hnull⟩ := granted_before_heap hg
  rw [flatInitVMM_eq] at hg hq ⊢
  obtain ⟨t, d, htables, hpaged, hzero, hwindow, habsent⟩ := exists_tablesAt hres hmapped hg1
  have hmapped' : m.flatInitTables.mapped = [] := hmapped
  have hword := @TablesAt.word_eq m d t htables (1024 * q)
  generalize m.flatInitTables = s at *
  obtain ⟨p, hp, hstart⟩ := heapMapped_start hpaged hzero hwindow habsent hmapped' hnull
  have hplt := hstart.pending.lt
  have hpge := hstart.pending.ge
  have hnew := hpaged.newFrame hp (by omega)
  have hset := hnew.settled.resolve_left (by omega)
  have hdp := (hnew.above hpaged.dir_settled).resolve_left (by omega)
  rw [hp] at hg hq ⊢
  obtain ⟨p', hset', hle, hloop⟩ := hstart.word_flatMapHeap hset (by omega) (by omega) hg
  -- Everything up to the last frame that was taken is in use.
  have hpq : p' < q := by
    by_contra hle'
    rw [hset'.used q (by omega)] at hq
    cases hq
  rw [hloop _ (by omega) (by omega)]
  exact congrArg (BitVec.getLsbD · i) (hword (by omega) (by omega))

end Boot

/-! ## Runs -/

section Runs

variable {s : PMM} {entries : List MmapEntry} {ram : Ram} {dir : U32}

/-- After the boot of the PC with 16 MiB, the next page table is edited in place, in a frame that nothing was written
    to. -/
theorem smallPc_next (ram : Ram) (phys virt : U32) (h0 : 0 < dirIndex virt) (h768 : dirIndex virt ≠ 768)
    (h769 : dirIndex virt ≠ 769) : ∃ m₀ m, Booted ⟨MB 16, 0, 0, { byte := fun _ => 0 }⟩ smallPc ram 0 m₀ ∧
      MappingStep m₀ (.mapPage phys virt) m ∧ m = m₀.flatMapPage phys virt ∧
      present (m₀.walkDirectory virt) = false ∧
      ∀ i < 8, (m₀.ram.byte (editedTable m₀ virt)).getLsbD i = (ram.byte (editedTable m₀ virt)).getLsbD i := by
  obtain ⟨m₀, hboot, q, hq, hq', hfree⟩ := booted_smallPc { byte := fun _ => 0 } ram 0
  obtain ⟨d, p, h, hd⟩ := hboot.heapMapped
  have habs := h.absent (dirIndex virt) h0 (dirIndex_lt virt) h768 h769
  obtain ⟨hedited, hg⟩ := hfree.newTable h.paged hboot.granted (by omega) habs phys
  have hwin := hfree.tableInWindow h.paged hboot.granted (by omega) (by omega) habs phys
  obtain ⟨hin, hapart⟩ := h.windowKept.tablesInPlace hd hwin
  refine ⟨m₀, _, hboot, ⟨h.paged.mapPage_inPlace hin hapart phys, hg, hin⟩, rfl, ?_, fun i hi => ?_⟩
  · rw [walkDirectory_eq h.paged.dir_eq]
    exact habs
  · have hclear := hfree.free q le_rfl (by omega)
    obtain ⟨heq, hinit⟩ := hboot.eq_flat
    rw [hedited, heq]
    rw [heq] at hclear
    exact byte_flatInitVMM (m := bootState ⟨MB 16, 0, 0, { byte := fun _ => 0 }⟩ smallPc ram 0)
      (fun _ => initPMM_reserved) rfl hinit hclear (by omega) hi

end Runs

end Pros
