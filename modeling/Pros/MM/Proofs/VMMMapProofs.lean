import Pros.MM.Proofs.PageEntryProofs
import Pros.MM.Proofs.PMMClientProofs

/-!
# `mapPage` keeps the address space together

The invariant `Paged` says that the page tables are frames of their own. New tables come from the frame
allocator one at a time and nothing is given back, so that every block up to a table is in use
(`Settled`): the next table lies above all others, and clearing it does not reach them.

A table whose allocation failed is frame 0. Several directory entries may then share it, and the
translation of a page is promised only if its table is not shared (`Own`).
-/

namespace Pros

open MemoryManager PageEntry

/-- Every block up to `b` is in use. -/
structure Settled (m : MemoryManager) (b : ℕ) : Prop where
  ge : 512 ≤ b
  lt : b < 2 ^ 20 - 1
  used : ∀ x ≤ b, m.pmm.memoryMap.bit x = true

/-- Entry `i` of the page directory in frame `d`. -/
def dirEntry (m : MemoryManager) (d i : ℕ) : U32 := word m.ram (1024 * d + i)

/-- The frame of the page table that entry `i` names. -/
def tableFrame (m : MemoryManager) (d i : ℕ) : ℕ := (frame (dirEntry m d i)).toNat

/-- The entry for a page in its page table. -/
def tableEntry (m : MemoryManager) (d : ℕ) (virt : U32) : U32 :=
  word m.ram (1024 * tableFrame m d (dirIndex virt) + tableIndex virt)

/-- No other entry of the directory names the page table of entry `i`. -/
def Own (m : MemoryManager) (d i : ℕ) : Prop :=
  ∀ k < 1024, present (dirEntry m d k) = true → tableFrame m d k = tableFrame m d i → k = i

/-- The page directory is in frame `d`, and the page tables translate what was mapped. -/
structure Paged (m : MemoryManager) (d : ℕ) : Prop where
  reserved : ∀ b < 512, m.pmm.memoryMap.bit b = true
  dir_eq : m.currentPageDirectory = PHYS_2_VIRT (ptr (d * 4096))
  dir_settled : Settled m d
  settled : ∀ i < 1024, present (dirEntry m d i) = true →
    tableFrame m d i = 0 ∨ Settled m (tableFrame m d i) ∧ tableFrame m d i ≠ d
  inj : ∀ i < 1024, ∀ k < 1024, present (dirEntry m d i) = true → present (dirEntry m d k) = true →
    tableFrame m d i = tableFrame m d k → tableFrame m d i = 0 ∨ i = k
  writable : ∀ i < 1024, present (dirEntry m d i) = true → i = 0 ∨ write (dirEntry m d i) = true
  mapped : ∀ virt f, lastMapping m virt = some f → present (dirEntry m d (dirIndex virt)) = true
  maps : ∀ virt f, lastMapping m virt = some f → Own m d (dirIndex virt) →
    present (tableEntry m d virt) = true ∧ write (tableEntry m d virt) = true ∧
      frame (tableEntry m d virt) = f

section Steps

variable {m m' : MemoryManager} {d i t : ℕ} {e phys virt : U32}

theorem tableFrame_lt : tableFrame m d i < 2 ^ 20 := toNat_frame_lt _

/-! ## Taking a frame -/

theorem granted_getFreePhysicalPage (m : MemoryManager) (size : U32) :
    (m.getFreePhysicalPage size).2.granted = (m.getFreePhysicalPage size).1 :: m.granted := rfl

theorem allGranted_getFreePhysicalPage {m : MemoryManager} {size : U32} :
    AllGranted (m.getFreePhysicalPage size).2 ↔ nullptr ≠ (m.getFreePhysicalPage size).1 ∧ AllGranted m := by
  rw [AllGranted, granted_getFreePhysicalPage, List.mem_cons, not_or]
  rfl

theorem Settled.mono (h : Settled m t)
    (hbits : ∀ b, m.pmm.memoryMap.bit b = true → m'.pmm.memoryMap.bit b = true) : Settled m' t :=
  ⟨h.ge, h.lt, fun x hx => hbits x (h.used x hx)⟩

/-- The invariant does not look at the bitmap otherwise. -/
theorem Paged.of_bits (h : Paged m d) (hram : m'.ram = m.ram)
    (hdir : m'.currentPageDirectory = m.currentPageDirectory) (hmapped : m'.mapped = m.mapped)
    (hbits : ∀ b, m.pmm.memoryMap.bit b = true → m'.pmm.memoryMap.bit b = true) : Paged m' d := by
  have hentry : ∀ i, dirEntry m' d i = dirEntry m d i := fun i => by rw [dirEntry, hram, dirEntry]
  have hframe : ∀ i, tableFrame m' d i = tableFrame m d i := by
    intro i
    rw [tableFrame, hentry, tableFrame]
  have htable : ∀ virt, tableEntry m' d virt = tableEntry m d virt := by
    intro virt
    rw [tableEntry, hram, hframe, tableEntry]
  have hlast : ∀ virt, lastMapping m' virt = lastMapping m virt := by
    intro virt
    rw [lastMapping, hmapped, lastMapping]
  have hown : ∀ i, Own m' d i ↔ Own m d i := by
    intro i
    unfold Own
    simp only [hentry, hframe]
  constructor
  · exact fun b hb => hbits b (h.reserved b hb)
  · rw [hdir, h.dir_eq]
  · exact h.dir_settled.mono hbits
  · intro i hi hp
    rw [hentry] at hp
    rw [hframe]
    exact (h.settled i hi hp).imp_right fun hs => ⟨hs.1.mono hbits, hs.2⟩
  · simpa only [hentry, hframe] using h.inj
  · simpa only [hentry] using h.writable
  · simpa only [hentry, hlast] using h.mapped
  · simpa only [hown, htable, hlast] using h.maps

theorem Paged.getFreePhysicalPage (h : Paged m d) (size : U32) :
    Paged (m.getFreePhysicalPage size).2 d :=
  h.of_bits rfl rfl rfl fun _ => bit_getFreePhysicalPage

/-! ## Creating a page table -/

/-- The frame of a request for a single block: none, or the first free one. -/
structure NewFrame (m m' : MemoryManager) (t : ℕ) : Prop where
  fresh : t = 0 ∧ m'.pmm.memoryMap = m.pmm.memoryMap ∨ 512 ≤ t ∧ m.pmm.memoryMap.bit t = false ∧
    (∀ b < t, m.pmm.memoryMap.bit b = true) ∧
    ∀ b, m'.pmm.memoryMap.bit b = if b = t then true else m.pmm.memoryMap.bit b
  lt : t < 2 ^ 20 - 1

theorem NewFrame.mono (h : NewFrame m m' t) {b : ℕ} (hb : m.pmm.memoryMap.bit b = true) :
    m'.pmm.memoryMap.bit b = true := by
  rcases h.fresh with ⟨-, heq⟩ | ⟨-, -, -, hbits⟩
  · rw [heq, hb]
  · rw [hbits, hb, ite_self]

/-- The frame lies above every settled one. -/
theorem NewFrame.above (h : NewFrame m m' t) {b : ℕ} (hb : Settled m b) : t = 0 ∨ b < t := by
  rcases h.fresh with ⟨ht, -⟩ | ⟨-, hclear, -, -⟩
  · exact Or.inl ht
  · refine Or.inr ?_
    by_contra hle
    rw [hb.used t (by omega)] at hclear
    cases hclear

theorem NewFrame.settled (h : NewFrame m m' t) : t = 0 ∨ Settled m' t := by
  rcases h.fresh with ⟨ht, -⟩ | ⟨hge, -, hbelow, hbits⟩
  · exact Or.inl ht
  · refine Or.inr ⟨hge, h.lt, fun x hx => ?_⟩
    rw [hbits]
    split_ifs with hxt
    · rfl
    · exact hbelow x (by omega)

theorem exists_newFrame (h : Paged m d) :
    ∃ t, (m.getFreePhysicalPage 1).1 = ptr (t * 4096) ∧
      NewFrame m (m.getFreePhysicalPage 1).2 t := by
  rcases getFreePhysicalPage_one h.reserved with heq | ⟨t, hp, hge, hlt, hclear, hbelow, hbits⟩
  · refine ⟨0, ?_, ⟨Or.inl ⟨rfl, ?_⟩, by omega⟩⟩
    · show (m.pmm.getFreePhysicalPage 1).1 = _
      rw [heq]
      rfl
    · show (m.pmm.getFreePhysicalPage 1).2.memoryMap = _
      rw [heq]
  · exact ⟨t, hp, ⟨Or.inr ⟨hge, hclear, hbelow, hbits⟩, hlt⟩⟩

/-- What `newTable` does for entry `i`. -/
structure NewTable (m m' : MemoryManager) (d i t : ℕ) : Prop where
  newFrame : NewFrame m m' t
  dir_eq : m'.currentPageDirectory = m.currentPageDirectory
  mapped_eq : m'.mapped = m.mapped
  granted_eq : m'.granted = ptr (t * 4096) :: m.granted
  present_new : present (dirEntry m' d i) = true
  write_new : write (dirEntry m' d i) = true
  tableFrame_eq : tableFrame m' d i = t
  word_eq : ∀ l < 2 ^ 30, l ≠ 1024 * d + i → l < 1024 * t ∨ 1024 * t + 1024 < l →
    word m'.ram l = word m.ram l
  cleared : ∀ l, 1024 * t < l → l < 1024 * t + 1024 → l ≠ 1024 * d + i → word m'.ram l = 0

theorem ram_flatNewTable {t : ℕ} (hp : (m.getFreePhysicalPage 1).1 = ptr (t * 4096)) : (m.flatNewTable e).ram =
    flatSetEntry (memset m.ram (ptr (t * 4096)) 0 sizeofPageTable) e (pageOf (ptr (t * 4096))) := by
  have hnew : (m.flatNewTable e).ram =
      flatSetEntry (memset m.ram (VIRT_2_PHYS (PHYS_2_VIRT (m.getFreePhysicalPage 1).1)) 0 sizeofPageTable) e
        (GET_FRAME_ADDRESS (VIRT_2_PHYS (PHYS_2_VIRT (m.getFreePhysicalPage 1).1))) := rfl
  rw [hnew, hp, VIRT_2_PHYS_PHYS_2_VIRT, GET_FRAME_ADDRESS_eq]

theorem flatNewTable_spec (h : Paged m d) (hi : i < 1024) (he : VIRT_2_PHYS e = ptr (4 * (1024 * d + i))) :
    ∃ t, (m.getFreePhysicalPage 1).1 = ptr (t * 4096) ∧ NewTable m (m.flatNewTable e) d i t := by
  obtain ⟨t, hp, hframe⟩ := exists_newFrame h
  have hd := h.dir_settled.lt
  have ht := hframe.lt
  have hram := ram_flatNewTable (e := e) hp
  have hpage : (pageOf (ptr (t * 4096))).toNat = t := by
    rw [toNat_pageOf, toNat_ptr_of_lt (by omega), Nat.mul_div_cancel _ (by omega)]
  have hentry : dirEntry (m.flatNewTable e) d i = entryWord
      (word (memset m.ram (ptr (t * 4096)) 0 sizeofPageTable) (1024 * d + i)) (pageOf (ptr (t * 4096))) := by
    rw [dirEntry, hram, word_flatSetEntry he (by omega) (by omega), if_pos rfl]
  refine ⟨t, hp, ⟨hframe.fresh, hframe.lt⟩, rfl, rfl, ?_, ?_, ?_, ?_, ?_, ?_⟩
  · rw [← hp]
    rfl
  · rw [hentry, present_entryWord]
  · rw [hentry, write_entryWord]
  · rw [tableFrame, hentry, frame_entryWord (by rw [hpage]; omega), hpage]
  · intro l hl hne hout
    rw [hram, word_flatSetEntry he (by omega) hl, if_neg hne, word_memset_of_ne ht hl hout]
  · intro l h1 h2 hne
    rw [hram, word_flatSetEntry he (by omega) (by omega), if_neg hne, word_memset h1 h2]

/-- Creating a table for an entry that is not present changes no other entry, and no table of its own. -/
theorem NewTable.frames (h : Paged m d) (hn : NewTable m m' d i t) (hi : i < 1024) :
    (∀ k < 1024, k ≠ i → dirEntry m' d k = dirEntry m d k) ∧
    ∀ b, Settled m b → b ≠ d → ∀ j < 1024, word m'.ram (1024 * b + j) = word m.ram (1024 * b + j) := by
  have hd := h.dir_settled
  have hge := hd.ge
  have hlt := hd.lt
  constructor
  · intro k hk hne
    refine hn.word_eq _ (by omega) (by omega) ?_
    rcases hn.newFrame.above hd with ht | ht <;> omega
  · intro b hb hne j hj
    have hbge := hb.ge
    have hblt := hb.lt
    refine hn.word_eq _ (by omega) (by omega) ?_
    rcases hn.newFrame.above hb with ht | ht <;> omega

/-- The new frame is none of the old ones. -/
theorem NewTable.eq_zero_of_frame_eq (h : Paged m d) (hn : NewTable m m' d i t) {k : ℕ} (hk : k < 1024)
    (hp : present (dirEntry m d k) = true) (heq : tableFrame m d k = t) : t = 0 := by
  rcases h.settled k hk hp with h0 | ⟨hs, -⟩
  · omega
  · rcases hn.newFrame.above hs with h0 | hlt <;> omega

theorem NewTable.tableFrame_of_ne (h : Paged m d) (hn : NewTable m m' d i t) (hi : i < 1024) {k : ℕ}
    (hk : k < 1024) (hne : k ≠ i) : tableFrame m' d k = tableFrame m d k := by
  rw [tableFrame, (hn.frames h hi).1 k hk hne, tableFrame]

/-- A page whose table is not shared keeps its entry, and its table was not shared before. -/
theorem NewTable.tableEntry_eq (h : Paged m d) (hn : NewTable m m' d i t) (hi : i < 1024)
    (habs : present (dirEntry m d i) = false) (hp : present (dirEntry m d (dirIndex virt)) = true)
    (hown : Own m' d (dirIndex virt)) :
    Own m d (dirIndex virt) ∧ tableEntry m' d virt = tableEntry m d virt := by
  obtain ⟨hdirs, htabs⟩ := hn.frames h hi
  have hk := dirIndex_lt virt
  have hpresent : ∀ l, present (dirEntry m d l) = true → l ≠ i := by
    rintro l hpl rfl
    rw [habs] at hpl
    cases hpl
  have hki := hpresent _ hp
  have hframe := hn.tableFrame_of_ne h hi hk hki
  constructor
  · intro l hl hpl heq
    have hli := hpresent l hpl
    refine hown l hl (by rw [hdirs l hl hli]; exact hpl) ?_
    rw [hn.tableFrame_of_ne h hi hl hli, hframe, heq]
  · have hne : tableFrame m d (dirIndex virt) ≠ t := by
      intro heq
      refine hki (hown i hi hn.present_new ?_).symm
      rw [hn.tableFrame_eq, hframe, heq]
    rw [tableEntry, tableEntry, hframe]
    rcases h.settled _ hk hp with h0 | ⟨hs, hsd⟩
    · have hge := h.dir_settled.ge
      have hj := tableIndex_lt virt
      refine hn.word_eq _ (by omega) (by omega) ?_
      rcases hn.newFrame.fresh with ⟨ht, -⟩ | ⟨ht, -⟩ <;> omega
    · exact htabs _ hs hsd _ (tableIndex_lt virt)

theorem Paged.flatNewTable (h : Paged m d) (hn : NewTable m m' d i t) (hi : i < 1024)
    (habs : present (dirEntry m d i) = false) : Paged m' d := by
  have hdirs := (hn.frames h hi).1
  have hframes : ∀ k < 1024, k ≠ i → tableFrame m' d k = tableFrame m d k :=
    fun k hk hne => hn.tableFrame_of_ne h hi hk hne
  have hmono : ∀ b, m.pmm.memoryMap.bit b = true → m'.pmm.memoryMap.bit b = true :=
    fun _ => hn.newFrame.mono
  have hlast : ∀ virt, lastMapping m' virt = lastMapping m virt := by
    intro virt
    rw [lastMapping, hn.mapped_eq, lastMapping]
  constructor
  · exact fun b hb => hmono b (h.reserved b hb)
  · rw [hn.dir_eq, h.dir_eq]
  · exact h.dir_settled.mono hmono
  · intro k hk hp
    by_cases hki : k = i
    · subst hki
      rw [hn.tableFrame_eq]
      rcases hn.newFrame.settled with h0 | hs
      · exact Or.inl h0
      · refine (hn.newFrame.above h.dir_settled).imp_right fun hlt => ⟨hs, by omega⟩
    · rw [hdirs k hk hki] at hp
      rw [hframes k hk hki]
      exact (h.settled k hk hp).imp_right fun hs => ⟨hs.1.mono hmono, hs.2⟩
  · intro k hk l hl hpk hpl heq
    by_cases hki : k = i <;> by_cases hli : l = i
    · exact Or.inr (by omega)
    · subst hki
      rw [hdirs l hl hli] at hpl
      rw [hframes l hl hli, hn.tableFrame_eq] at heq
      rw [hn.tableFrame_eq]
      exact Or.inl (hn.eq_zero_of_frame_eq h hl hpl heq.symm)
    · subst hli
      rw [hdirs k hk hki] at hpk
      rw [hframes k hk hki, hn.tableFrame_eq] at heq
      rw [hframes k hk hki, heq]
      exact Or.inl (hn.eq_zero_of_frame_eq h hk hpk heq)
    · rw [hdirs k hk hki] at hpk
      rw [hdirs l hl hli] at hpl
      rw [hframes k hk hki, hframes l hl hli] at heq
      rw [hframes k hk hki]
      exact h.inj k hk l hl hpk hpl heq
  · intro k hk hp
    by_cases hki : k = i
    · subst hki
      exact Or.inr hn.write_new
    · rw [hdirs k hk hki] at hp ⊢
      exact h.writable k hk hp
  · intro virt f hf
    rw [hlast] at hf
    by_cases hki : dirIndex virt = i
    · rw [hki]
      exact hn.present_new
    · rw [hdirs _ (dirIndex_lt virt) hki]
      exact h.mapped virt f hf
  · intro virt f hf hown
    rw [hlast] at hf
    obtain ⟨hown', hentry⟩ := hn.tableEntry_eq h hi habs (h.mapped virt f hf) hown
    rw [hentry]
    exact h.maps virt f hf hown'

/-! ## Storing the entry of a page -/

/-- The place of a page's entry. -/
theorem pageEntry_eq (hdir : m.currentPageDirectory = PHYS_2_VIRT (ptr (d * 4096))) (virt : U32) :
    PAGE_GET_PHYSICAL_ADDRESS (m.ram.load32 (VIRT_2_PHYS (m.directoryEntry virt))) + 4 * PAGE_TABLE_INDEX virt =
      ptr (4 * (1024 * tableFrame m d (dirIndex virt) + tableIndex virt)) := by
  rw [directoryEntry_eq hdir, PAGE_GET_PHYSICAL_ADDRESS_eq, ptr_frame_add, toNat_PAGE_TABLE_INDEX]
  rfl

/-- `mapPage` once there is a page table. -/
theorem flatMapPage_ram (hdir : (m.flatEnsureTable virt).currentPageDirectory = PHYS_2_VIRT (ptr (d * 4096))) :
    (m.flatMapPage phys virt).ram = flatSetEntry (m.flatEnsureTable virt).ram
      (PHYS_2_VIRT (ptr (4 * (1024 * tableFrame (m.flatEnsureTable virt) d (dirIndex virt) + tableIndex virt))))
      (pageOf phys) := by
  rw [← GET_FRAME_ADDRESS_eq, ← pageEntry_eq hdir]
  rfl

theorem flatMapPage_stored (hdir : (m.flatEnsureTable virt).currentPageDirectory = PHYS_2_VIRT (ptr (d * 4096))) :
    (m.flatMapPage phys virt).stored = inPlace (entryAddresses
      (PHYS_2_VIRT (ptr (4 * (1024 * tableFrame (m.flatEnsureTable virt) d (dirIndex virt) + tableIndex virt))))) ++
      (m.flatEnsureTable virt).stored := by
  rw [← pageEntry_eq hdir]
  rfl

/-- What the last part of `mapPage` does: it stores the entry of the page and nothing else. -/
structure StoresPage (m m' : MemoryManager) (d : ℕ) (phys virt : U32) : Prop where
  pmm_eq : m'.pmm = m.pmm
  dir_eq : m'.currentPageDirectory = m.currentPageDirectory
  mapped_eq : m'.mapped = (phys, virt) :: m.mapped
  ram_eq : m'.ram = flatSetEntry m.ram
    (PHYS_2_VIRT (ptr (4 * (1024 * tableFrame m d (dirIndex virt) + tableIndex virt)))) (pageOf phys)

theorem storesPage_flatMapPage (hdir : (m.flatEnsureTable virt).currentPageDirectory = PHYS_2_VIRT (ptr (d * 4096)))
    (phys : U32) : StoresPage (m.flatEnsureTable virt) (m.flatMapPage phys virt) d phys virt :=
  ⟨rfl, rfl, rfl, flatMapPage_ram hdir⟩

theorem StoresPage.word_eq (hs : StoresPage m m' d phys virt) {l : ℕ} (hl : l < 2 ^ 30) :
    word m'.ram l = if l = 1024 * tableFrame m d (dirIndex virt) + tableIndex virt then
      entryWord (word m.ram l) (pageOf phys) else word m.ram l := by
  have hj := tableIndex_lt virt
  have hT := @tableFrame_lt m d (dirIndex virt)
  rw [hs.ram_eq, word_flatSetEntry (VIRT_2_PHYS_PHYS_2_VIRT _) (by omega) hl]
  split_ifs with heq
  · rw [heq]
  · rfl

/-- The directory is not a page table. -/
theorem StoresPage.dirEntry_eq (h : Paged m d) (hs : StoresPage m m' d phys virt)
    (hp : present (dirEntry m d (dirIndex virt)) = true) {k : ℕ} (hk : k < 1024) :
    dirEntry m' d k = dirEntry m d k := by
  have hj := tableIndex_lt virt
  have hlt := h.dir_settled.lt
  have hge := h.dir_settled.ge
  have hTd : tableFrame m d (dirIndex virt) ≠ d := by
    rcases h.settled _ (dirIndex_lt virt) hp with h0 | hs
    · omega
    · exact hs.2
  rw [dirEntry, hs.word_eq (by omega), if_neg (by omega), dirEntry]

/-- The entry of a page whose table is not shared. -/
theorem StoresPage.tableEntry_eq (h : Paged m d) (hs : StoresPage m m' d phys virt)
    (hp : present (dirEntry m d (dirIndex virt)) = true) {v : U32} (hown : Own m d (dirIndex v)) :
    tableEntry m' d v = if pageOf virt = pageOf v then
      entryWord (tableEntry m d v) (pageOf phys) else tableEntry m d v := by
  have hk := dirIndex_lt v
  have hj := tableIndex_lt virt
  have hjv := tableIndex_lt v
  have hTv := @tableFrame_lt m d (dirIndex v)
  have hframe : tableFrame m' d (dirIndex v) = tableFrame m d (dirIndex v) := by
    rw [tableFrame, hs.dirEntry_eq h hp hk, tableFrame]
  rw [tableEntry, hframe, hs.word_eq (by omega), tableEntry]
  by_cases hpage : pageOf virt = pageOf v
  · obtain ⟨h1, h2⟩ := pageOf_eq_iff.mp hpage
    rw [if_pos hpage, if_pos (by rw [h1, h2])]
  · rw [if_neg hpage, if_neg]
    intro heq
    have hsame : tableFrame m d (dirIndex virt) = tableFrame m d (dirIndex v) := by omega
    have hidx := hown _ (dirIndex_lt virt) hp hsame
    exact hpage (pageOf_eq_iff.mpr ⟨hidx, by omega⟩)

theorem Paged.store (h : Paged m d) (hp : present (dirEntry m d (dirIndex virt)) = true)
    (hs : StoresPage m m' d phys virt) : Paged m' d := by
  have hentry : ∀ k < 1024, dirEntry m' d k = dirEntry m d k := fun k hk => hs.dirEntry_eq h hp hk
  have hframe : ∀ k < 1024, tableFrame m' d k = tableFrame m d k := by
    intro k hk
    rw [tableFrame, hentry k hk, tableFrame]
  have hown : ∀ k < 1024, Own m' d k → Own m d k := by
    intro k hk hown l hl hpl heq
    refine hown l hl (by rw [hentry l hl]; exact hpl) ?_
    rw [hframe l hl, hframe k hk, heq]
  have hlast : ∀ v, lastMapping m' v =
      if pageOf virt = pageOf v then some (pageOf phys) else lastMapping m v := by
    intro v
    rw [lastMapping, hs.mapped_eq]
    rfl
  constructor
  · rw [hs.pmm_eq]
    exact h.reserved
  · rw [hs.dir_eq, h.dir_eq]
  · exact h.dir_settled.mono fun b hb => by rw [hs.pmm_eq, hb]
  · intro k hk hpk
    rw [hentry k hk] at hpk
    rw [hframe k hk]
    exact (h.settled k hk hpk).imp_right fun ht => ⟨ht.1.mono fun b hb => by rw [hs.pmm_eq, hb], ht.2⟩
  · intro k hk l hl hpk hpl heq
    rw [hentry k hk] at hpk
    rw [hentry l hl] at hpl
    rw [hframe k hk, hframe l hl] at heq
    rw [hframe k hk]
    exact h.inj k hk l hl hpk hpl heq
  · intro k hk hpk
    rw [hentry k hk] at hpk ⊢
    exact h.writable k hk hpk
  · intro v f hf
    rw [hentry _ (dirIndex_lt v)]
    rw [hlast] at hf
    split_ifs at hf with hpage
    · rw [← (pageOf_eq_iff.mp hpage).1]
      exact hp
    · exact h.mapped v f hf
  · intro v f hf hownv
    have hown' := hown _ (dirIndex_lt v) hownv
    rw [hs.tableEntry_eq h hp hown']
    rw [hlast] at hf
    by_cases hpage : pageOf virt = pageOf v
    · rw [if_pos hpage] at hf ⊢
      refine ⟨present_entryWord _ _, write_entryWord _ _, ?_⟩
      rw [frame_entryWord]
      · exact Option.some.inj hf
      · rw [toNat_pageOf]
        have := phys.isLt
        omega
    · rw [if_neg hpage] at hf ⊢
      exact h.maps v f hf hown'

/-! ## The whole call -/

theorem flatEnsureTable_eq (h : Paged m d) (virt : U32) : m.flatEnsureTable virt =
    if present (dirEntry m d (dirIndex virt)) = true then m else m.flatNewTable (m.directoryEntry virt) := by
  have he : VIRT_2_PHYS (m.directoryEntry virt) = ptr (4 * (1024 * d + dirIndex virt)) :=
    directoryEntry_eq h.dir_eq
  have hif : m.flatEnsureTable virt =
      if !present (dirEntry m d (dirIndex virt)) then m.flatNewTable (m.directoryEntry virt) else m := by
    rw [flatEnsureTable, he]
    rfl
  rw [hif]
  cases present (dirEntry m d (dirIndex virt)) <;> rfl

theorem flatEnsureTable_cases (h : Paged m d) (virt : U32) :
    present (dirEntry m d (dirIndex virt)) = true ∧ m.flatEnsureTable virt = m ∨
    present (dirEntry m d (dirIndex virt)) = false ∧
      ∃ t, (m.getFreePhysicalPage 1).1 = ptr (t * 4096) ∧
        NewTable m (m.flatEnsureTable virt) d (dirIndex virt) t := by
  have hif := flatEnsureTable_eq h virt
  split_ifs at hif with hp
  · exact Or.inl ⟨hp, hif⟩
  · rw [hif]
    exact Or.inr ⟨Bool.eq_false_of_not_eq_true hp,
      flatNewTable_spec h (dirIndex_lt virt) (directoryEntry_eq h.dir_eq)⟩

theorem Paged.flatEnsureTable (h : Paged m d) (virt : U32) : Paged (m.flatEnsureTable virt) d ∧
    present (dirEntry (m.flatEnsureTable virt) d (dirIndex virt)) = true := by
  rcases flatEnsureTable_cases h virt with ⟨hp, heq⟩ | ⟨habs, t, -, hn⟩
  · rw [heq]
    exact ⟨h, hp⟩
  · exact ⟨h.flatNewTable hn (dirIndex_lt virt) habs, hn.present_new⟩

/-- The directory entries that are there stay as they are. -/
theorem dirEntry_flatEnsureTable (h : Paged m d) (virt : U32) {k : ℕ} (hk : k < 1024)
    (hor : k ≠ dirIndex virt ∨ present (dirEntry m d k) = true) :
    dirEntry (m.flatEnsureTable virt) d k = dirEntry m d k := by
  rcases flatEnsureTable_cases h virt with ⟨-, heq⟩ | ⟨habs, t, -, hn⟩
  · rw [heq]
  · refine (hn.frames h (dirIndex_lt virt)).1 k hk ?_
    rcases hor with hne | hp
    · exact hne
    · rintro rfl
      rw [habs] at hp
      cases hp

theorem Paged.flatMapPage_words (h : Paged m d) (phys virt : U32) : Paged (m.flatMapPage phys virt) d ∧
    ∀ k < 1024, dirEntry (m.flatMapPage phys virt) d k = dirEntry (m.flatEnsureTable virt) d k := by
  obtain ⟨h1, hp⟩ := h.flatEnsureTable virt
  have hs := storesPage_flatMapPage h1.dir_eq phys
  exact ⟨h1.store hp hs, fun _ hk => hs.dirEntry_eq h1 hp hk⟩

/-- `mapPage` keeps the invariant, whether or not a table it needs could be allocated. -/
theorem Paged.flatMapPage (h : Paged m d) (phys virt : U32) : Paged (m.flatMapPage phys virt) d :=
  (h.flatMapPage_words phys virt).1

theorem dirEntry_flatMapPage (h : Paged m d) (phys virt : U32) {k : ℕ} (hk : k < 1024)
    (hor : k ≠ dirIndex virt ∨ present (dirEntry m d k) = true) :
    dirEntry (m.flatMapPage phys virt) d k = dirEntry m d k := by
  rw [(h.flatMapPage_words phys virt).2 k hk, dirEntry_flatEnsureTable h virt hk hor]

theorem Paged.flatExec (h : Paged m d) (op : VmmOp) : Paged (m.flatExec op) d := by
  cases op with
  | mapPage phys virt => exact h.flatMapPage phys virt
  | getFreePhysicalPage size => exact h.getFreePhysicalPage size

end Steps

end Pros
