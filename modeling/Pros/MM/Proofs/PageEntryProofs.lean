import Pros.MM.AddressSpace
import Pros.Lib.Proofs.RamProofs

/-!
# Page tables as words of physical memory

The walk and the stores of the virtual memory manager only touch words at multiples of four. `word k` is
the word at `4 * k`; the entries of the table in frame `t` are the words from `1024 * t` on.
-/

namespace Pros

open MemoryManager PageEntry

/-! ## Addresses -/

theorem VIRT_2_PHYS_PHYS_2_VIRT (x : U32) : VIRT_2_PHYS (PHYS_2_VIRT x) = x := by
  unfold VIRT_2_PHYS PHYS_2_VIRT
  ring

theorem VIRT_2_PHYS_add (x y : U32) : VIRT_2_PHYS (x + y) = VIRT_2_PHYS x + y := by
  unfold VIRT_2_PHYS
  ring

/-- Which entry of the page directory translates an address. -/
def dirIndex (virt : U32) : ℕ := virt.toNat / 2 ^ 22

/-- Which entry of a page table translates an address. -/
def tableIndex (virt : U32) : ℕ := virt.toNat / 2 ^ 12 % 1024

theorem dirIndex_lt (virt : U32) : dirIndex virt < 1024 := by
  have := virt.isLt
  unfold dirIndex
  omega

theorem tableIndex_lt (virt : U32) : tableIndex virt < 1024 := Nat.mod_lt _ (by omega)

theorem and_mask_toNat (x : U32) : (x &&& 0x3ff).toNat = x.toNat % 1024 := by
  rw [BitVec.toNat_and, show (0x3ff : U32).toNat = 2 ^ 10 - 1 from rfl, Nat.and_two_pow_sub_one_eq_mod]

theorem toNat_PAGE_DIRECTORY_INDEX (virt : U32) : (PAGE_DIRECTORY_INDEX virt).toNat = dirIndex virt := by
  have hlt := dirIndex_lt virt
  unfold dirIndex at hlt ⊢
  rw [PAGE_DIRECTORY_INDEX, and_mask_toNat, BitVec.toNat_ushiftRight, Nat.shiftRight_eq_div_pow]
  omega

theorem toNat_PAGE_TABLE_INDEX (virt : U32) : (PAGE_TABLE_INDEX virt).toNat = tableIndex virt := by
  rw [PAGE_TABLE_INDEX, and_mask_toNat, BitVec.toNat_ushiftRight, Nat.shiftRight_eq_div_pow]
  rfl

theorem four_mul (x : U32) : 4 * x = ptr (4 * x.toNat) := by
  rw [ptr, BitVec.ofNat_mul, BitVec.ofNat_toNat, BitVec.setWidth_eq]
  rfl

theorem toNat_pageOf (x : U32) : (pageOf x).toNat = x.toNat / 4096 := by
  rw [pageOf, BitVec.toNat_ushiftRight, Nat.shiftRight_eq_div_pow]

/-- A page is given by its two indices. -/
theorem pageOf_eq_iff {v virt : U32} :
    pageOf v = pageOf virt ↔ dirIndex v = dirIndex virt ∧ tableIndex v = tableIndex virt := by
  unfold dirIndex tableIndex
  constructor
  · intro h
    have h' := congrArg BitVec.toNat h
    rw [toNat_pageOf, toNat_pageOf] at h'
    omega
  · rintro ⟨h1, h2⟩
    apply BitVec.eq_of_toNat_eq
    rw [toNat_pageOf, toNat_pageOf]
    omega

/-- Clearing the low bits of an entry leaves the address of its frame. -/
theorem PAGE_GET_PHYSICAL_ADDRESS_eq (w : U32) :
    PAGE_GET_PHYSICAL_ADDRESS w = ptr ((frame w).toNat * 4096) := by
  have hshift : PAGE_GET_PHYSICAL_ADDRESS w = frame w <<< 12 := by
    apply BitVec.eq_of_getLsbD_eq
    intro i hi
    have hmask : ∀ i < 32, (~~~(0xFFF : U32)).getLsbD i = decide (12 ≤ i) := by decide
    rw [PAGE_GET_PHYSICAL_ADDRESS, frame, BitVec.getLsbD_and, hmask i hi, BitVec.getLsbD_shiftLeft,
      BitVec.getLsbD_ushiftRight, decide_eq_true hi]
    by_cases h12 : 12 ≤ i
    · rw [decide_eq_true h12, decide_eq_false (by omega), show 12 + (i - 12) = i by omega]
      simp
    · rw [decide_eq_false h12, decide_eq_true (by omega)]
      simp
  apply BitVec.eq_of_toNat_eq
  rw [hshift, BitVec.toNat_shiftLeft, Nat.shiftLeft_eq, toNat_ptr]

theorem GET_FRAME_ADDRESS_eq (x : U32) : GET_FRAME_ADDRESS x = pageOf x := by
  apply BitVec.eq_of_getLsbD_eq
  intro i hi
  have hmask : ∀ i < 20, (0xFFFFF000 : U32).getLsbD (12 + i) = true := by decide
  rw [GET_FRAME_ADDRESS, pageOf, BitVec.getLsbD_ushiftRight, BitVec.getLsbD_ushiftRight,
    BitVec.getLsbD_and]
  by_cases h20 : i < 20
  · rw [hmask i h20, Bool.and_true]
  · rw [BitVec.getLsbD_of_ge _ _ (by omega), Bool.false_and]

/-! ## Entries -/

/-- The word that the three assignments to an entry make of the word before. -/
def entryWord (w f : U32) : U32 := setFrame (setWrite (setPresent w)) f

theorem getLsbD_entryWord {w f : U32} {i : ℕ} (hi : i < 12) :
    (entryWord w f).getLsbD i = (w.getLsbD i || decide (i < 2)) := by
  have h1 : ∀ i < 12, (1 : U32).getLsbD i = decide (i = 0) := by decide
  have h2 : ∀ i < 12, (2 : U32).getLsbD i = decide (i = 1) := by decide
  have h3 : ∀ i < 12, (0xFFF : U32).getLsbD i = true := by decide
  unfold entryWord setFrame setWrite setPresent
  rw [BitVec.getLsbD_or, BitVec.getLsbD_and, BitVec.getLsbD_or, BitVec.getLsbD_or, h1 i hi, h2 i hi,
    h3 i hi, BitVec.getLsbD_shiftLeft, decide_eq_true hi, Bool.and_true, Bool.not_true,
    Bool.and_false, Bool.false_and, Bool.or_false, Bool.or_assoc]
  congr 1
  rw [← Bool.decide_or]
  exact decide_eq_decide.mpr (by omega)

@[simp] theorem present_entryWord (w f : U32) : present (entryWord w f) = true := by
  rw [present, getLsbD_entryWord (by omega)]
  simp

@[simp] theorem write_entryWord (w f : U32) : write (entryWord w f) = true := by
  rw [write, getLsbD_entryWord (by omega)]
  simp

theorem frame_entryWord {w f : U32} (hf : f.toNat < 2 ^ 20) : frame (entryWord w f) = f := by
  apply BitVec.eq_of_getLsbD_eq
  intro i hi
  have hmask : ∀ i < 20, (0xFFF : U32).getLsbD (12 + i) = false := by decide
  unfold entryWord setFrame frame
  rw [BitVec.getLsbD_ushiftRight]
  by_cases h20 : i < 20
  · rw [BitVec.getLsbD_or, BitVec.getLsbD_and, hmask i h20, BitVec.getLsbD_shiftLeft,
      decide_eq_true (by omega), decide_eq_false (by omega), show 12 + i - 12 = i by omega]
    simp
  · rw [BitVec.getLsbD_of_ge _ _ (by omega)]
    symm
    rw [BitVec.getLsbD, Nat.testBit_lt_two_pow]
    exact lt_of_lt_of_le hf (Nat.pow_le_pow_right (by omega) (by omega))

theorem toNat_frame_lt (w : U32) : (frame w).toNat < 2 ^ 20 := by
  have := w.isLt
  have h := toNat_pageOf w
  unfold pageOf at h
  unfold frame
  omega

/-! ## Words -/

/-- The word at `4 * k`. -/
def word (ram : Ram) (k : ℕ) : U32 := ram.load32 (ptr (4 * k))

section Words

variable {ram : Ram} {entry f : U32} {k l t : ℕ}

/-- Making an entry changes its word only. -/
theorem word_flatSetEntry (hentry : VIRT_2_PHYS entry = ptr (4 * k)) (hk : k < 2 ^ 30) (hl : l < 2 ^ 30) :
    word (flatSetEntry ram entry f) l = if l = k then entryWord (word ram k) f else word ram l := by
  unfold flatSetEntry flatAssign word
  rw [hentry]
  simp only [Memory.load32_store32]
  split_ifs with h
  · rw [h, Memory.load32_store32]
    rfl
  · simp (disch := omega) only [load32_store32_ptr_of_ne]

theorem word_store32 {v : U32} (hk : k < 2 ^ 30) (hl : l < 2 ^ 30) :
    word (ram.store32 (ptr (4 * k)) v) l = if l = k then v else word ram l := by
  unfold word
  split_ifs with h
  · rw [h, Memory.load32_store32]
  · simp (disch := omega) only [load32_store32_ptr_of_ne]

/-- Clearing a frame reaches into the first word of the next frame. -/
theorem word_memset_of_ne (ht : t < 2 ^ 20 - 1) (hl : l < 2 ^ 30) (hne : l < 1024 * t ∨ 1024 * t + 1024 < l) :
    word (memset ram (ptr (t * 4096)) 0 sizeofPageTable) l = word ram l := by
  unfold word sizeofPageTable
  simp (disch := omega) only [load32_memset_ptr_of_ne]

/-- Clearing a frame leaves the first byte as it was. -/
theorem word_memset (h1 : 1024 * t < l) (h2 : l < 1024 * t + 1024) :
    word (memset ram (ptr (t * 4096)) 0 sizeofPageTable) l = 0 := by
  apply BitVec.eq_of_getLsbD_eq
  intro i hi
  rw [word, Memory.getLsbD_load32 _ _ hi, ptr_add_cast, sizeofPageTable,
    byte_memset_ptr (by omega) (by omega)]
  simp

/-- The first entry of a cleared frame keeps its low byte. -/
theorem getLsbD_word_memset {i : ℕ} (hi : i < 32) :
    (word (memset ram (ptr (t * 4096)) 0 sizeofPageTable) (1024 * t)).getLsbD i =
      (decide (i < 8) && (word ram (1024 * t)).getLsbD i) := by
  rw [word, Memory.getLsbD_load32 _ _ hi, ptr_add_cast, sizeofPageTable]
  by_cases h8 : i < 8
  · rw [word, Memory.getLsbD_load32 _ _ hi, ptr_add_cast, byte_memset_ptr_of_ne (by omega) (by omega) (by omega),
      decide_eq_true h8, Bool.true_and]
  · rw [byte_memset_ptr (by omega) (by omega), decide_eq_false h8, Bool.false_and]
    exact BitVec.getLsbD_zero

theorem frame_word_memset :
    frame (word (memset ram (ptr (t * 4096)) 0 sizeofPageTable) (1024 * t)) = 0 := by
  apply BitVec.eq_of_getLsbD_eq
  intro i hi
  rw [frame, BitVec.getLsbD_ushiftRight]
  by_cases h20 : 12 + i < 32
  · rw [getLsbD_word_memset h20, decide_eq_false (by omega), Bool.false_and]
    exact BitVec.getLsbD_zero.symm
  · rw [BitVec.getLsbD_of_ge _ _ (by omega)]
    exact BitVec.getLsbD_zero.symm

/-- Clearing a frame also clears the first byte behind it. -/
theorem getLsbD_word_memset_next {i : ℕ} (hi : i < 8) :
    (word (memset ram (ptr (t * 4096)) 0 sizeofPageTable) (1024 * (t + 1))).getLsbD i = false := by
  rw [word, Memory.getLsbD_load32 _ _ (by omega), ptr_add_cast, sizeofPageTable,
    byte_memset_ptr (by omega) (by omega)]
  exact BitVec.getLsbD_zero

end Words

/-! ## The walk in words -/

section Walk

variable {m m' : MemoryManager} {v virt : U32} {d : ℕ}

theorem ptr_frame_add (t : ℕ) (x : U32) : ptr (t * 4096) + 4 * x = ptr (4 * (1024 * t + x.toNat)) := by
  rw [four_mul, ptr, ptr, ptr, ← BitVec.ofNat_add]
  congr 1
  omega

theorem directory_eq (hdir : m.currentPageDirectory = PHYS_2_VIRT (ptr (d * 4096))) :
    m.directory = ptr (d * 4096) := by
  rw [directory, hdir, VIRT_2_PHYS_PHYS_2_VIRT]

theorem directoryEntry_eq (hdir : m.currentPageDirectory = PHYS_2_VIRT (ptr (d * 4096))) :
    VIRT_2_PHYS (m.directoryEntry virt) = ptr (4 * (1024 * d + dirIndex virt)) := by
  rw [directoryEntry, hdir, VIRT_2_PHYS_add, VIRT_2_PHYS_PHYS_2_VIRT, ptr_frame_add,
    toNat_PAGE_DIRECTORY_INDEX]

theorem walkDirectory_eq (hdir : m.currentPageDirectory = PHYS_2_VIRT (ptr (d * 4096))) :
    m.walkDirectory virt = word m.ram (1024 * d + dirIndex virt) := by
  rw [walkDirectory, directory_eq hdir, ptr_frame_add, toNat_PAGE_DIRECTORY_INDEX, word]

theorem walkTable_eq : m.walkTable virt =
    word m.ram (1024 * (frame (m.walkDirectory virt)).toNat + tableIndex virt) := by
  rw [walkTable, PAGE_GET_PHYSICAL_ADDRESS_eq, ptr_frame_add, toNat_PAGE_TABLE_INDEX, word]

/-- The walk takes its indices from the number of the page. -/
theorem walk_page (h : pageOf v = pageOf virt) : m.walk v = m.walk virt := by
  obtain ⟨hdir, htable⟩ := pageOf_eq_iff.mp h
  have hd : PAGE_DIRECTORY_INDEX v = PAGE_DIRECTORY_INDEX virt :=
    BitVec.eq_of_toNat_eq (by rw [toNat_PAGE_DIRECTORY_INDEX, toNat_PAGE_DIRECTORY_INDEX, hdir])
  have ht : PAGE_TABLE_INDEX v = PAGE_TABLE_INDEX virt :=
    BitVec.eq_of_toNat_eq (by rw [toNat_PAGE_TABLE_INDEX, toNat_PAGE_TABLE_INDEX, htable])
  have hentry : m.walkDirectory v = m.walkDirectory virt := by rw [walkDirectory, hd, walkDirectory]
  have hpage : m.walkTable v = m.walkTable virt := by rw [walkTable, hentry, ht, walkTable]
  rw [walk, hentry, hpage, walk]

theorem walk_lt {f : U32} (h : m.walk v = some f) : f.toNat < 2 ^ 20 := by
  rw [walk] at h
  split_ifs at h
  exact Option.some.inj h ▸ toNat_frame_lt _

/-- The place of an address is at its offset in the frame. -/
theorem translate_eq_some_iff {x : U32} :
    m.translate v = some x ↔ m.walk v = some (pageOf x) ∧ x.toNat % 4096 = v.toNat % 4096 := by
  have hplace : ∀ f : U32, f.toNat < 2 ^ 20 →
      ((f <<< 12) + (v &&& 0xFFF) : U32).toNat = f.toNat * 4096 + v.toNat % 4096 := by
    intro f hf
    rw [BitVec.toNat_add, BitVec.toNat_shiftLeft, Nat.shiftLeft_eq, BitVec.toNat_and,
      show (0xFFF : U32).toNat = 2 ^ 12 - 1 from rfl, Nat.and_two_pow_sub_one_eq_mod]
    omega
  rw [MemoryManager.translate, Option.map_eq_some_iff]
  constructor
  · rintro ⟨f, hf, rfl⟩
    have hlt := walk_lt hf
    rw [hf, hplace f hlt]
    refine ⟨congrArg some (BitVec.eq_of_toNat_eq ?_), by omega⟩
    rw [toNat_pageOf, hplace f hlt]
    omega
  · rintro ⟨hw, hoff⟩
    refine ⟨_, hw, BitVec.eq_of_toNat_eq ?_⟩
    rw [hplace _ (walk_lt hw), toNat_pageOf, ← hoff]
    omega

theorem walk_of_translate (h : m'.translate v = m.translate v) : m'.walk v = m.walk v := by
  cases hx : m.translate v with
  | none =>
    have hx' := h.trans hx
    rw [MemoryManager.translate, Option.map_eq_none_iff] at hx hx'
    rw [hx, hx']
  | some x => rw [(translate_eq_some_iff.mp hx).1, (translate_eq_some_iff.mp (h.trans hx)).1]

end Walk

end Pros
