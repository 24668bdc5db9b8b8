import Pros.MM.Proofs.VMMMapProofs

/-!
# The address space that `initVMM` builds

`initTables` leaves a directory with the window's table and nothing else, except that the first entry
keeps its low byte: `memset` leaves out the first byte of what it clears. The loop over the kernel heap
maps one fresh frame after the other.
-/

namespace Pros

open MemoryManager PageEntry

/-- Only the first entry of the directory may name frame 0. -/
def ZeroFrameFirst (m : MemoryManager) (d : ℕ) : Prop :=
  ∀ k < 1024, present (dirEntry m d k) = true → tableFrame m d k = 0 → k = 0

section Translation

variable {m : MemoryManager} {d : ℕ} {phys virt f : U32}

theorem Paged.own (h : Paged m d) (hz : ZeroFrameFirst m d) {i : ℕ} (hi : i < 1024)
    (hp : present (dirEntry m d i) = true) : Own m d i := by
  intro k hk hpk heq
  rcases h.inj k hk i hi hpk hp heq with h0 | hki
  · rw [hz k hk hpk h0, hz i hi hp (heq.symm.trans h0)]
  · exact hki

theorem Paged.own_of_ne_zero (h : Paged m d) {i : ℕ} (hi : i < 1024)
    (hp : present (dirEntry m d i) = true) (hne : tableFrame m d i ≠ 0) : Own m d i := by
  intro k hk hpk heq
  rcases h.inj k hk i hi hpk hp heq with h0 | hki
  · exact absurd (heq.symm.trans h0) hne
  · exact hki

/-- The processor translates a mapped page to the frame it was last mapped to. -/
theorem Paged.walk_eq (h : Paged m d) (hf : lastMapping m virt = some f)
    (hown : Own m d (dirIndex virt)) :
    m.walk virt = some f ∧ write (m.walkTable virt) = true := by
  have htable : m.walkTable virt = tableEntry m d virt := by
    rw [walkTable_eq, walkDirectory_eq h.dir_eq]
    rfl
  have hdir : m.walkDirectory virt = dirEntry m d (dirIndex virt) := walkDirectory_eq h.dir_eq
  obtain ⟨h1, h2, h3⟩ := h.maps virt f hf hown
  rw [walk, htable, hdir, h1, h.mapped virt f hf, h3]
  exact ⟨rfl, h2⟩

theorem tableGranted_iff (h : Paged m d) : TableGranted m (.mapPage phys virt) ↔
    (present (dirEntry m d (dirIndex virt)) = false → (m.getFreePhysicalPage 1).1 ≠ nullptr) := by
  rw [TableGranted, walkDirectory_eq h.dir_eq]
  rfl

theorem ZeroFrameFirst.flatEnsureTable (hz : ZeroFrameFirst m d) (h : Paged m d)
    (hg : TableGranted m (.mapPage phys virt)) : ZeroFrameFirst (m.flatEnsureTable virt) d := by
  intro k hk hp h0
  rcases flatEnsureTable_cases h virt with ⟨-, heq⟩ | ⟨habs, t, ht, hn⟩
  · rw [heq] at hp h0
    exact hz k hk hp h0
  · by_cases hki : k = dirIndex virt
    · -- A table that was granted is not frame 0.
      subst hki
      have hne := (tableGranted_iff h).mp hg habs
      rw [hn.tableFrame_eq] at h0
      rw [ht, h0] at hne
      exact absurd rfl hne
    · rw [tableFrame, (hn.frames h (dirIndex_lt virt)).1 k hk hki] at h0
      rw [(hn.frames h (dirIndex_lt virt)).1 k hk hki] at hp
      exact hz k hk hp h0

theorem ZeroFrameFirst.flatMapPage (hz : ZeroFrameFirst m d) (h : Paged m d)
    (hg : TableGranted m (.mapPage phys virt)) : ZeroFrameFirst (m.flatMapPage phys virt) d := by
  intro k hk hp h0
  rw [tableFrame, (h.flatMapPage_words phys virt).2 k hk] at h0
  rw [(h.flatMapPage_words phys virt).2 k hk] at hp
  exact hz.flatEnsureTable h hg k hk hp h0

theorem ZeroFrameFirst.flatExec (hz : ZeroFrameFirst m d) (h : Paged m d) {op : VmmOp}
    (hg : TableGranted m op) : ZeroFrameFirst (m.flatExec op) d := by
  cases op with
  | mapPage phys virt => exact hz.flatMapPage h hg
  | getFreePhysicalPage size => exact hz

end Translation

/-! ## The window -/

theorem tableIndex_window {i : ℕ} (hi : i < 1024) :
    tableIndex (0xC0000000 + BitVec.ofNat 32 (i * 4096)) = i := by
  unfold tableIndex
  rw [BitVec.toNat_add, BitVec.toNat_ofNat, show (0xC0000000 : U32).toNat = 0xC0000000 from rfl]
  omega

/-- The first loop of `initVMM` points entry `i` of the window's table to frame `i`. -/
theorem word_flatFillWindow {ram : Ram} {t i left l : ℕ} (ht : t < 2 ^ 20) (hi : i + left ≤ 1024)
    (hl : l < 2 ^ 30) :
    word (flatFillWindow ram (PHYS_2_VIRT (ptr (t * 4096))) (BitVec.ofNat 32 (i * 4096))
      (0xC0000000 + BitVec.ofNat 32 (i * 4096)) left) l =
      if 1024 * t + i ≤ l ∧ l < 1024 * t + i + left then entryWord 0 (BitVec.ofNat 32 (l - 1024 * t))
      else word ram l := by
  induction left generalizing ram i with
  | zero => rw [if_neg (by omega)]; rfl
  | succ left ih =>
    have hnext : BitVec.ofNat 32 (i * 4096) + PAGE_SIZE = BitVec.ofNat 32 ((i + 1) * 4096) := by
      rw [Nat.add_mul, BitVec.ofNat_add]
      rfl
    have hpage : pageOf (BitVec.ofNat 32 (i * 4096)) = BitVec.ofNat 32 i := by
      apply BitVec.eq_of_toNat_eq
      rw [toNat_pageOf, BitVec.toNat_ofNat, BitVec.toNat_ofNat]
      omega
    rw [flatFillWindow, BitVec.add_assoc, hnext, ih (by omega), VIRT_2_PHYS_add, VIRT_2_PHYS_PHYS_2_VIRT,
      ptr_frame_add, toNat_PAGE_TABLE_INDEX, tableIndex_window (by omega), GET_FRAME_ADDRESS_eq, hpage,
      word_store32 (by omega) hl]
    split_ifs with h1 h2 h3 h4 h5
    · rfl
    · omega
    · rw [show l - 1024 * t = i by omega]
      rfl
    · omega
    · omega
    · rfl

theorem windowFrame_eq {virt f : U32} (hf : windowFrame virt = some f) :
    dirIndex virt = 768 ∧ f = BitVec.ofNat 32 (tableIndex virt) := by
  unfold windowFrame at hf
  split_ifs at hf with hv
  obtain ⟨h1, h2⟩ := hv
  have hsub := BitVec.toNat_sub_of_le h1
  rw [BitVec.le_def, show (0xC0000000 : U32).toNat = 0xC0000000 from rfl] at h1
  rw [BitVec.lt_def, show (0xC0400000 : U32).toNat = 0xC0400000 from rfl] at h2
  unfold dirIndex tableIndex
  refine ⟨by omega, ?_⟩
  rw [← Option.some.inj hf]
  apply BitVec.eq_of_toNat_eq
  rw [toNat_pageOf, hsub, BitVec.toNat_ofNat, show (0xC0000000 : U32).toNat = 0xC0000000 from rfl]
  omega

section InitTables

variable {m : MemoryManager}

/-- What `initTables` leaves in memory: the window's table in frame `t`, its entry in the directory in frame
    `d`, and what `memset` makes of the rest. -/
theorem word_flatInitTables {t d l : ℕ} (hp1 : (m.getFreePhysicalPage 1).1 = ptr (t * 4096))
    (hp2 : ((m.getFreePhysicalPage 1).2.getFreePhysicalPage 1).1 = ptr (d * 4096))
    (htd : t < d) (hd : d < 2 ^ 20 - 1) (hl : l < 2 ^ 30) :
    word m.flatInitTables.ram l = if l = 1024 * d + 768 then entryWord 0 (BitVec.ofNat 32 t)
      else if 1024 * t ≤ l ∧ l < 1024 * t + 1024 then entryWord 0 (BitVec.ofNat 32 (l - 1024 * t))
      else word (memset (memset m.ram (ptr (t * 4096)) 0 sizeofPageTable) (ptr (d * 4096)) 0
        sizeofPageTable) l := by
  have hram : m.flatInitTables.ram = flatSetEntry
      (flatFillWindow (memset (memset m.ram (VIRT_2_PHYS (PHYS_2_VIRT (m.getFreePhysicalPage 1).1)) 0
          sizeofPageTable)
        (VIRT_2_PHYS (PHYS_2_VIRT ((m.getFreePhysicalPage 1).2.getFreePhysicalPage 1).1)) 0
          sizeofPageTable)
        (PHYS_2_VIRT (m.getFreePhysicalPage 1).1) 0 0xC0000000 PAGES_PER_TABLE)
      (PHYS_2_VIRT ((m.getFreePhysicalPage 1).2.getFreePhysicalPage 1).1 +
        4 * PAGE_DIRECTORY_INDEX 0xC0000000)
      (GET_FRAME_ADDRESS (VIRT_2_PHYS (PHYS_2_VIRT (m.getFreePhysicalPage 1).1))) := by
    unfold flatInitTables setPageDirectory
    rfl
  have hindex : dirIndex 0xC0000000 = 768 := by decide
  have hentry : VIRT_2_PHYS (PHYS_2_VIRT (ptr (d * 4096)) + 4 * PAGE_DIRECTORY_INDEX 0xC0000000) =
      ptr (4 * (1024 * d + 768)) := by
    rw [VIRT_2_PHYS_add, VIRT_2_PHYS_PHYS_2_VIRT, ptr_frame_add, toNat_PAGE_DIRECTORY_INDEX, hindex]
  have hframe : pageOf (ptr (t * 4096)) = BitVec.ofNat 32 t := by
    apply BitVec.eq_of_toNat_eq
    rw [toNat_pageOf, toNat_ptr, BitVec.toNat_ofNat]
    omega
  rw [hp1, hp2, VIRT_2_PHYS_PHYS_2_VIRT, VIRT_2_PHYS_PHYS_2_VIRT, GET_FRAME_ADDRESS_eq, hframe] at hram
  have hfill : ∀ (ram : Ram) (l : ℕ), l < 2 ^ 30 →
      word (flatFillWindow ram (PHYS_2_VIRT (ptr (t * 4096))) 0 0xC0000000 PAGES_PER_TABLE) l =
        if 1024 * t ≤ l ∧ l < 1024 * t + 1024 then entryWord 0 (BitVec.ofNat 32 (l - 1024 * t))
        else word ram l := fun ram l hl =>
    @word_flatFillWindow ram t 0 PAGES_PER_TABLE l (by omega) (by decide) hl
  rw [hram, word_flatSetEntry hentry (by omega) hl, hfill _ l hl]
  split_ifs with hdir
  · rw [hfill _ _ (by omega), if_neg (by omega), word_memset (by omega) (by omega)]
  · rfl
  · rfl

/-- The entries that `initTables` leaves in the directory (frame `d`) and in the window's table (frame
    `t`). -/
theorem words_flatInitTables {t d : ℕ} (hp1 : (m.getFreePhysicalPage 1).1 = ptr (t * 4096))
    (hp2 : ((m.getFreePhysicalPage 1).2.getFreePhysicalPage 1).1 = ptr (d * 4096))
    (htd : t < d) (hd : d < 2 ^ 20 - 1) :
    (∀ j < 1024, word m.flatInitTables.ram (1024 * t + j) = entryWord 0 (BitVec.ofNat 32 j)) ∧
    dirEntry m.flatInitTables d 768 = entryWord 0 (BitVec.ofNat 32 t) ∧
    tableFrame m.flatInitTables d 0 = 0 ∧
    ∀ k, 0 < k → k < 1024 → k ≠ 768 → dirEntry m.flatInitTables d k = 0 := by
  refine ⟨fun j hj => ?_, ?_, ?_, fun k h0 hk hne => ?_⟩
  · rw [word_flatInitTables hp1 hp2 htd hd (by omega), if_neg (by omega), if_pos (by omega),
      Nat.add_sub_cancel_left]
  · rw [dirEntry, word_flatInitTables hp1 hp2 htd hd (by omega), if_pos rfl]
  · rw [tableFrame, dirEntry, word_flatInitTables hp1 hp2 htd hd (by omega), if_neg (by omega),
      if_neg (by omega), Nat.add_zero, frame_word_memset]
    rfl
  · rw [dirEntry, word_flatInitTables hp1 hp2 htd hd (by omega), if_neg (by omega), if_neg (by omega),
      word_memset (by omega) (by omega)]

/-- The frames of the window's table and of the directory, when both requests are granted. Everything up
    to the directory is in use. -/
theorem flatInitTables_frames (hres : ∀ b < 512, m.pmm.memoryMap.bit b = true)
    (hgranted : AllGranted m.flatInitTables) :
    ∃ t d, (m.getFreePhysicalPage 1).1 = ptr (t * 4096) ∧
      ((m.getFreePhysicalPage 1).2.getFreePhysicalPage 1).1 = ptr (d * 4096) ∧
      512 ≤ t ∧ t < d ∧ d < 2 ^ 20 - 1 ∧ ∀ b ≤ d, m.flatInitTables.pmm.memoryMap.bit b = true := by
  have hg : m.flatInitTables.granted = ((m.getFreePhysicalPage 1).2.getFreePhysicalPage 1).1 ::
      (m.getFreePhysicalPage 1).1 :: m.granted := by
    unfold flatInitTables setPageDirectory
    rfl
  rw [AllGranted, hg, List.mem_cons, List.mem_cons, not_or, not_or] at hgranted
  obtain ⟨hne2, hne1, -⟩ := hgranted
  have hres1 : ∀ b < 512, (m.getFreePhysicalPage 1).2.pmm.memoryMap.bit b = true :=
    fun b hb => bit_getFreePhysicalPage (hres b hb)
  obtain ⟨t, hp1, ht, -, -, htbelow, htbits⟩ := (getFreePhysicalPage_one hres).resolve_left fun h =>
    hne1 (show nullptr = (m.pmm.getFreePhysicalPage 1).1 by rw [h])
  obtain ⟨d, hp2, -, hdlt, hdclear, hdbelow, hdbits⟩ :=
    (getFreePhysicalPage_one hres1).resolve_left fun h =>
      hne2 (show nullptr = ((m.getFreePhysicalPage 1).2.pmm.getFreePhysicalPage 1).1 by rw [h])
  refine ⟨t, d, hp1, hp2, ht, ?_, hdlt, ?_⟩
  · -- Everything up to the first frame is in use when the second one is taken.
    by_contra hle
    have hset : (m.getFreePhysicalPage 1).2.pmm.memoryMap.bit d = true := by
      refine (htbits d).trans ?_
      split_ifs with heq
      · rfl
      · exact htbelow d (by omega)
    rw [hset] at hdclear
    cases hdclear
  · intro b hb
    have hpmm : m.flatInitTables.pmm = ((m.getFreePhysicalPage 1).2.pmm.getFreePhysicalPage 1).2 := rfl
    rw [hpmm, hdbits]
    split_ifs with heq
    · rfl
    · exact hdbelow b (by omega)

/-- The directory after `initTables`: the window's table, and perhaps a first entry for frame 0. -/
theorem paged_flatInitTables (hres : ∀ b < 512, m.pmm.memoryMap.bit b = true) (hmapped : m.mapped = [])
    (hgranted : AllGranted m.flatInitTables) : ∃ d, Paged m.flatInitTables d ∧ ZeroFrameFirst m.flatInitTables d ∧
      present (dirEntry m.flatInitTables d 768) = true ∧
      ∀ k, 0 < k → k < 1024 → k ≠ 768 → present (dirEntry m.flatInitTables d k) = false := by
  obtain ⟨t, d, hp1, hp2, ht, htd, hdlt, hused⟩ := flatInitTables_frames hres hgranted
  obtain ⟨htable, hwindow, hzero, hrest⟩ := words_flatInitTables hp1 hp2 htd hdlt
  have habs : ∀ k, 0 < k → k < 1024 → k ≠ 768 → present (dirEntry m.flatInitTables d k) = false := by
    intro k h0 hk hne
    rw [hrest k h0 hk hne]
    rfl
  have hcases : ∀ k < 1024, present (dirEntry m.flatInitTables d k) = true → k = 0 ∨ k = 768 := by
    intro k hk hp
    by_contra hne
    rw [habs k (by omega) hk (by omega)] at hp
    cases hp
  have ht768 : tableFrame m.flatInitTables d 768 = t := by
    rw [tableFrame, hwindow, frame_entryWord, BitVec.toNat_ofNat]
    · omega
    · rw [BitVec.toNat_ofNat]
      omega
  have hp768 : present (dirEntry m.flatInitTables d 768) = true := by rw [hwindow, present_entryWord]
  have hlast : ∀ virt f, lastMapping m.flatInitTables virt = some f → windowFrame virt = some f := by
    intro virt f hf
    rw [lastMapping, show m.flatInitTables.mapped = m.mapped from rfl, hmapped] at hf
    exact hf
  refine ⟨d, ?_, ?_, hp768, habs⟩
  · constructor
    · exact fun b hb => hused b (by omega)
    · exact congrArg PHYS_2_VIRT hp2
    · exact ⟨by omega, hdlt, hused⟩
    · intro k hk hp
      rcases hcases k hk hp with rfl | rfl
      · exact Or.inl hzero
      · rw [ht768]
        exact Or.inr ⟨⟨ht, by omega, fun x hx => hused x (by omega)⟩, by omega⟩
    · intro k hk l hl hpk hpl heq
      rcases hcases k hk hpk with rfl | rfl
      · exact Or.inl hzero
      · rcases hcases l hl hpl with rfl | rfl
        · exact Or.inl (heq.trans hzero)
        · exact Or.inr rfl
    · intro k hk hp
      rcases hcases k hk hp with rfl | rfl
      · exact Or.inl rfl
      · rw [hwindow]
        exact Or.inr (write_entryWord _ _)
    · intro virt f hf
      rw [(windowFrame_eq (hlast virt f hf)).1]
      exact hp768
    · intro virt f hf _
      obtain ⟨hidx, rfl⟩ := windowFrame_eq (hlast virt f hf)
      have hj := tableIndex_lt virt
      rw [tableEntry, hidx, ht768, htable _ hj]
      refine ⟨present_entryWord _ _, write_entryWord _ _, frame_entryWord ?_⟩
      rw [BitVec.toNat_ofNat]
      omega
  · intro k hk hp h0
    rcases hcases k hk hp with rfl | rfl
    · rfl
    · omega

end InitTables

/-! ## The kernel heap -/

/-- A frame in use that is neither the directory nor a table. -/
structure Private (m : MemoryManager) (d f : ℕ) : Prop where
  ge : 512 ≤ f
  lt : f < 2 ^ 20 - 1
  used : m.pmm.memoryMap.bit f = true
  ne_dir : f ≠ d
  ne_table : ∀ k < 1024, present (dirEntry m d k) = true → tableFrame m d k ≠ f

section Heap

variable {m : MemoryManager} {d f t p k : ℕ} {phys virt : U32}

theorem Private.getFreePhysicalPage (h : Private m d f) (size : U32) :
    Private (m.getFreePhysicalPage size).2 d f :=
  ⟨h.ge, h.lt, bit_getFreePhysicalPage h.used, h.ne_dir, h.ne_table⟩

theorem bit_flatEnsureTable {b : ℕ} (hb : m.pmm.memoryMap.bit b = true) :
    (m.flatEnsureTable virt).pmm.memoryMap.bit b = true := by
  rw [flatEnsureTable]
  split_ifs
  · exact bit_getFreePhysicalPage hb
  · exact hb

/-- A new table is not a frame that is in use already. -/
theorem Private.flatMapPage (hf : Private m d f) (h : Paged m d) (phys virt : U32) :
    Private (m.flatMapPage phys virt) d f := by
  refine ⟨hf.ge, hf.lt, bit_flatEnsureTable hf.used, hf.ne_dir, fun k hk hp => ?_⟩
  rw [(h.flatMapPage_words phys virt).2 k hk] at hp
  rw [tableFrame, (h.flatMapPage_words phys virt).2 k hk]
  rcases flatEnsureTable_cases h virt with ⟨-, heq⟩ | ⟨-, t, -, hn⟩
  · rw [heq] at hp ⊢
    exact hf.ne_table k hk hp
  · by_cases hki : k = dirIndex virt
    · subst hki
      intro heq
      have htf : t = f := hn.tableFrame_eq.symm.trans heq
      have hge := hf.ge
      rcases hn.newFrame.fresh with ⟨h0, -⟩ | ⟨-, hclear, -⟩
      · omega
      · rw [htf, hf.used] at hclear
        cases hclear
    · rw [(hn.frames h (dirIndex_lt virt)).1 k hk hki] at hp ⊢
      exact hf.ne_table k hk hp

/-- A frame just taken is private, and none of the frames that were in use. -/
theorem NewFrame.toPrivate (h : Paged m d) (hn : NewFrame m (m.getFreePhysicalPage 1).2 t) (ht : t ≠ 0) :
    Private (m.getFreePhysicalPage 1).2 d t ∧ m.pmm.memoryMap.bit t = false := by
  obtain ⟨hge, hclear, -, hbits⟩ := hn.fresh.resolve_left fun h0 => ht h0.1
  have hne : ∀ b, Settled m b → b ≠ t := by
    intro b hb heq
    rw [← heq, hb.used b le_rfl] at hclear
    cases hclear
  refine ⟨⟨hge, hn.lt, (hbits t).trans (if_pos rfl), (hne d h.dir_settled).symm, ?_⟩, hclear⟩
  intro k hk hp heq
  rcases h.settled k hk hp with h0 | hs
  · exact ht (heq.symm.trans h0)
  · exact hne _ hs.1 heq

/-- After the second loop of `initVMM` has mapped `k` pages of the heap, with frame `p` taken for the
    next one. -/
structure HeapMapped (m : MemoryManager) (d k p : ℕ) : Prop where
  paged : Paged m d
  zero : ZeroFrameFirst m d
  window : present (dirEntry m d 768) = true
  absent : ∀ i, 0 < i → i < 1024 → i ≠ 768 → i ≠ 769 → present (dirEntry m d i) = false
  pending : Private m d p
  frames : ∀ l < k, ∃ f, lastMapping m (heapPage l) = some (BitVec.ofNat 32 f) ∧ Private m d f ∧ f ≠ p
  distinct : ∀ l < k, ∀ l' < k, lastMapping m (heapPage l) = lastMapping m (heapPage l') → l = l'
  outside : ∀ x ∈ m.mapped, 0xC0400000 ≤ x.2 ∧ x.2 < 0xC0500000

theorem heapPage_zero : KERNEL_HEAP_START = heapPage 0 := by decide

theorem toNat_heapPage (hk : k < 256) : (heapPage k).toNat = 0xC0400000 + 4096 * k := by
  rw [heapPage, BitVec.toNat_add, BitVec.toNat_ofNat,
    show KERNEL_HEAP_START.toNat = 0xC0400000 from rfl]
  omega

theorem pageOf_heapPage {l : ℕ} (hk : k < 256) (hl : l < 256) :
    pageOf (heapPage k) = pageOf (heapPage l) ↔ k = l := by
  constructor
  · intro h
    have h' := congrArg BitVec.toNat h
    rw [toNat_pageOf, toNat_pageOf, toNat_heapPage hk, toNat_heapPage hl] at h'
    omega
  · rintro rfl
    rfl

theorem dirIndex_heapPage (hk : k < 256) : dirIndex (heapPage k) = 769 := by
  rw [dirIndex, toNat_heapPage hk]
  omega

theorem pageOf_frame (hp : p < 2 ^ 20) : pageOf (ptr (p * 4096)) = BitVec.ofNat 32 p := by
  apply BitVec.eq_of_toNat_eq
  rw [toNat_pageOf, toNat_ptr, BitVec.toNat_ofNat]
  omega

theorem dir_flatEnsureTable (m : MemoryManager) (virt : U32) :
    (m.flatEnsureTable virt).currentPageDirectory = m.currentPageDirectory := by
  rw [flatEnsureTable]
  split_ifs <;> rfl

theorem mapped_flatEnsureTable (m : MemoryManager) (virt : U32) :
    (m.flatEnsureTable virt).mapped = m.mapped := by
  rw [flatEnsureTable]
  split_ifs <;> rfl

theorem mapped_flatMapPage (m : MemoryManager) (phys virt : U32) :
    (m.flatMapPage phys virt).mapped = (phys, virt) :: m.mapped :=
  congrArg ((phys, virt) :: ·) (mapped_flatEnsureTable m virt)

theorem lastMapping_flatMapPage (m : MemoryManager) (phys virt v : U32) :
    lastMapping (m.flatMapPage phys virt) v =
      if pageOf virt = pageOf v then some (pageOf phys) else lastMapping m v := by
  rw [lastMapping, mapped_flatMapPage]
  rfl

/-- If every request so far was granted, so was the one for a page table. -/
theorem tableGranted_of_allGranted (h : Paged m d) (hg : AllGranted (m.flatMapPage phys virt)) :
    TableGranted m (.mapPage phys virt) := by
  rw [tableGranted_iff h]
  intro habs hnull
  rcases flatEnsureTable_cases h virt with ⟨hp, -⟩ | ⟨-, t, ht, hn⟩
  · rw [habs] at hp
    cases hp
  · have hgranted : (m.flatMapPage phys virt).granted = (m.flatEnsureTable virt).granted := rfl
    rw [AllGranted, hgranted, hn.granted_eq, ← ht, hnull] at hg
    exact hg (List.mem_cons_self ..)

/-- The frame that is pending is not mapped yet. -/
theorem HeapMapped.ne_pending (h : HeapMapped m d k p) {l : ℕ} (hl : l < k) :
    lastMapping m (heapPage l) ≠ some (BitVec.ofNat 32 p) := by
  intro heq
  obtain ⟨f, hf, hfp, hne⟩ := h.frames l hl
  rw [hf] at heq
  have hnat := congrArg BitVec.toNat (Option.some.inj heq)
  have hflt := hfp.lt
  have hplt := h.pending.lt
  rw [BitVec.toNat_ofNat, BitVec.toNat_ofNat] at hnat
  omega

theorem HeapMapped.step (h : HeapMapped m d k p) (hk : k < 256)
    (hg : AllGranted ((m.flatMapPage (ptr (p * 4096)) (heapPage k)).getFreePhysicalPage 1).2) :
    ∃ p', ((m.flatMapPage (ptr (p * 4096)) (heapPage k)).getFreePhysicalPage 1).1 = ptr (p' * 4096) ∧
      HeapMapped ((m.flatMapPage (ptr (p * 4096)) (heapPage k)).getFreePhysicalPage 1).2 d (k + 1) p' := by
  set m' := m.flatMapPage (ptr (p * 4096)) (heapPage k) with hm'
  rw [allGranted_getFreePhysicalPage] at hg
  have htable := tableGranted_of_allGranted h.paged hg.2
  have hpaged : Paged m' d := h.paged.flatMapPage _ _
  obtain ⟨p', hp', hnew⟩ := exists_newFrame hpaged
  have hne : p' ≠ 0 := by
    rintro rfl
    rw [hp'] at hg
    exact hg.1 rfl
  obtain ⟨hpriv, hclear⟩ := hnew.toPrivate hpaged hne
  have hother : ∀ f, Private m d f → f ≠ p' := by
    rintro f hf rfl
    rw [(hf.flatMapPage h.paged (ptr (p * 4096)) (heapPage k)).used] at hclear
    cases hclear
  have hlast : ∀ l < 256, lastMapping (m'.getFreePhysicalPage 1).2 (heapPage l) =
      if k = l then some (BitVec.ofNat 32 p) else lastMapping m (heapPage l) := by
    intro l hl
    have hplt := h.pending.lt
    have h1 : lastMapping (m'.getFreePhysicalPage 1).2 (heapPage l) = lastMapping m' (heapPage l) := rfl
    rw [h1, hm', lastMapping_flatMapPage, pageOf_frame (by omega)]
    simp only [pageOf_heapPage hk hl]
  refine ⟨p', hp', ?_⟩
  constructor
  · exact hpaged.getFreePhysicalPage 1
  · exact h.zero.flatMapPage h.paged htable
  · show present (dirEntry m' d 768) = true
    rw [dirEntry_flatMapPage h.paged _ _ (by omega) (Or.inr h.window)]
    exact h.window
  · intro i h0 hi h768 h769
    show present (dirEntry m' d i) = false
    rw [dirEntry_flatMapPage h.paged _ _ hi (Or.inl (by rw [dirIndex_heapPage hk]; exact h769))]
    exact h.absent i h0 hi h768 h769
  · exact hpriv
  · intro l hl
    rw [hlast l (by omega)]
    by_cases hkl : k = l
    · exact ⟨p, if_pos hkl, (h.pending.flatMapPage h.paged _ _).getFreePhysicalPage 1, hother p h.pending⟩
    · obtain ⟨f, hf, hfp, -⟩ := h.frames l (by omega)
      exact ⟨f, by rw [if_neg hkl, hf], (hfp.flatMapPage h.paged _ _).getFreePhysicalPage 1, hother f hfp⟩
  · intro l hl l' hl' heq
    rw [hlast l (by omega), hlast l' (by omega)] at heq
    split_ifs at heq with h1 h2 h2
    · omega
    · exact absurd heq.symm (h.ne_pending (by omega))
    · exact absurd heq (h.ne_pending (by omega))
    · exact h.distinct l (by omega) l' (by omega) heq
  · have hmapped : (m'.getFreePhysicalPage 1).2.mapped = (ptr (p * 4096), heapPage k) :: m.mapped :=
      mapped_flatMapPage m _ _
    intro x hx
    rw [hmapped] at hx
    rcases List.mem_cons.mp hx with rfl | hx
    · have hva := toNat_heapPage hk
      rw [BitVec.le_def, BitVec.lt_def, show (0xC0400000 : U32).toNat = 0xC0400000 from rfl,
        show (0xC0500000 : U32).toNat = 0xC0500000 from rfl]
      exact ⟨by simp only; omega, by simp only; omega⟩
    · exact h.outside x hx

theorem granted_flatMapHeap {virt phys x : U32} {fuel : ℕ} (hx : x ∈ m.granted) :
    x ∈ (flatMapHeap m phys virt fuel).granted := by
  induction fuel generalizing m phys virt with
  | zero => exact hx
  | succ fuel ih =>
    rw [flatMapHeap]
    split_ifs
    · refine ih (List.mem_cons_of_mem _ ?_)
      show x ∈ (m.flatEnsureTable virt).granted
      rw [flatEnsureTable]
      split_ifs
      · exact List.mem_cons_of_mem _ hx
      · exact hx
    · exact hx

theorem heapPage_lt_iff (hk : k ≤ 256) :
    heapPage k < KERNEL_HEAP_START + KERNEL_HEAP_SIZE ↔ k < 256 := by
  rw [BitVec.lt_def, show (KERNEL_HEAP_START + KERNEL_HEAP_SIZE).toNat = 0xC0500000 from rfl, heapPage,
    BitVec.toNat_add, BitVec.toNat_ofNat, show KERNEL_HEAP_START.toNat = 0xC0400000 from rfl]
  omega

theorem heapPage_succ (k : ℕ) : heapPage k + PAGE_SIZE = heapPage (k + 1) := by
  rw [heapPage, heapPage, BitVec.add_assoc, Nat.mul_add, BitVec.ofNat_add]
  rfl

/-- One round of the loop. -/
theorem flatMapHeap_succ (m : MemoryManager) (phys : U32) {fuel : ℕ} (hk : k < 256) :
    MemoryManager.flatMapHeap m phys (heapPage k) (fuel + 1) =
      MemoryManager.flatMapHeap ((m.flatMapPage phys (heapPage k)).getFreePhysicalPage 1).2
        ((m.flatMapPage phys (heapPage k)).getFreePhysicalPage 1).1 (heapPage (k + 1)) fuel := by
  rw [MemoryManager.flatMapHeap, if_pos ((heapPage_lt_iff (by omega)).mpr hk), heapPage_succ]

theorem flatMapHeap_end (m : MemoryManager) (phys : U32) {fuel : ℕ} :
    MemoryManager.flatMapHeap m phys (heapPage 256) (fuel + 1) = m := by
  rw [MemoryManager.flatMapHeap, if_neg ((heapPage_lt_iff le_rfl).not.mpr (by omega))]

/-- The loop over the heap maps the pages that are left. -/
theorem HeapMapped.flatMapHeap {fuel : ℕ} (h : HeapMapped m d k p) (hk : k + fuel = 257) (hle : k ≤ 256)
    (hg : AllGranted (MemoryManager.flatMapHeap m (ptr (p * 4096)) (heapPage k) fuel)) :
    ∃ p', HeapMapped (MemoryManager.flatMapHeap m (ptr (p * 4096)) (heapPage k) fuel) d 256 p' := by
  induction fuel generalizing m k p with
  | zero => omega
  | succ fuel ih =>
    by_cases hlt : k < 256
    · rw [flatMapHeap_succ m _ hlt] at hg ⊢
      obtain ⟨p', hp', h'⟩ := h.step hlt fun hx => hg (granted_flatMapHeap hx)
      rw [hp'] at hg ⊢
      exact ih h' (by omega) (by omega) hg
    · obtain rfl : k = 256 := by omega
      rw [flatMapHeap_end]
      exact ⟨p, h⟩

theorem granted_flatInitTables (m : MemoryManager) : m.flatInitTables.granted =
    ((m.getFreePhysicalPage 1).2.getFreePhysicalPage 1).1 :: (m.getFreePhysicalPage 1).1 :: m.granted := rfl

/-- Before the loop, with a frame taken for the first page. -/
theorem heapMapped_start (hpaged : Paged m d) (hzero : ZeroFrameFirst m d)
    (hwindow : present (dirEntry m d 768) = true)
    (habsent : ∀ i, 0 < i → i < 1024 → i ≠ 768 → present (dirEntry m d i) = false)
    (hmapped : m.mapped = []) (hg : (m.getFreePhysicalPage 1).1 ≠ nullptr) :
    ∃ p, (m.getFreePhysicalPage 1).1 = ptr (p * 4096) ∧
      HeapMapped (m.getFreePhysicalPage 1).2 d 0 p := by
  obtain ⟨p, hp, hnew⟩ := exists_newFrame hpaged
  have hne : p ≠ 0 := by
    rintro rfl
    rw [hp] at hg
    exact hg rfl
  refine ⟨p, hp, ?_⟩
  constructor
  · exact hpaged.getFreePhysicalPage 1
  · exact hzero
  · exact hwindow
  · exact fun i h0 hi h768 _ => habsent i h0 hi h768
  · exact (hnew.toPrivate hpaged hne).1
  · exact fun l hl => absurd hl (Nat.not_lt_zero l)
  · exact fun l hl => absurd hl (Nat.not_lt_zero l)
  · intro x hx
    have hnil : (m.getFreePhysicalPage 1).2.mapped = m.mapped := rfl
    rw [hnil, hmapped] at hx
    cases hx

theorem flatInitVMM_eq (m : MemoryManager) : m.flatInitVMM =
    MemoryManager.flatMapHeap (m.flatInitTables.getFreePhysicalPage 1).2
      (m.flatInitTables.getFreePhysicalPage 1).1 (heapPage 0) 257 := by
  rw [← heapPage_zero]
  unfold flatInitVMM
  generalize m.flatInitTables = s
  rfl

/-- A successful `initVMM` was granted its tables and the first frame of the heap. -/
theorem granted_before_heap (hg : AllGranted m.flatInitVMM) :
    AllGranted m.flatInitTables ∧ (m.flatInitTables.getFreePhysicalPage 1).1 ≠ nullptr := by
  rw [flatInitVMM_eq] at hg
  have hg' : AllGranted (m.flatInitTables.getFreePhysicalPage 1).2 := fun hx => hg (granted_flatMapHeap hx)
  rw [allGranted_getFreePhysicalPage] at hg'
  exact ⟨hg'.2, Ne.symm hg'.1⟩

/-- The state after a successful `initVMM`. -/
theorem heapMapped_flatInitVMM (hres : ∀ b < 512, m.pmm.memoryMap.bit b = true) (hmapped : m.mapped = [])
    (hg : AllGranted m.flatInitVMM) : ∃ d p, HeapMapped m.flatInitVMM d 256 p := by
  obtain ⟨htables, hnull⟩ := granted_before_heap hg
  rw [flatInitVMM_eq] at hg ⊢
  obtain ⟨d, hpaged, hzero, hwindow, habsent⟩ := paged_flatInitTables hres hmapped htables
  obtain ⟨p, hp, hstart⟩ := heapMapped_start hpaged hzero hwindow habsent hmapped hnull
  rw [hp] at hg ⊢
  obtain ⟨p', h⟩ := hstart.flatMapHeap rfl (by omega) hg
  exact ⟨d, p', h⟩

end Heap

end Pros
