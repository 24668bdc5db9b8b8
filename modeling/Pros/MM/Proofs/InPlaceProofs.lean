import Pros.MM.Proofs.VMMInitProofs

/-!
# Proofs: page tables that are edited in place

A store whose address leads to the byte it stands for does what it does on flat memory. `mapPage` edits the very
tables that its own stores are translated by; but it clears a frame that no translation reads, it makes an entry that
no translation has been using, and setting the flags of an entry in use moves nothing. So a call that finds its tables
in place is the one on flat memory (`Paged.mapPage_inPlace`).
-/

namespace Pros

open MemoryManager PageEntry

/-! ## Accesses -/

section Access

variable {τ : Ram → U32 → Option U32} {s : MemoryManager} {a entry f : U32} {w : U32 → U32}

/-- The bytes of a word are where the addresses say. -/
def WordInPlace (τ : Ram → U32 → Option U32) (ram : Ram) (a : U32) : Prop :=
  ∀ i : ℕ, i < 4 → τ ram (a + (i : U32)) = some (VIRT_2_PHYS (a + (i : U32)))

theorem mapM_eq_some {α β : Type} {g : α → Option β} {h : α → β} {l : List α} (hl : ∀ x ∈ l, g x = some (h x)) :
    l.mapM g = some (l.map h) := by
  induction l with
  | nil => rfl
  | cons x l ih =>
    rw [List.forall_mem_cons] at hl
    rw [List.mapM_cons, hl.1, ih hl.2]
    rfl

theorem access_inPlace {bytes : List (U32 × U8)} (h : ∀ b ∈ bytes, τ s.ram b.1 = some (VIRT_2_PHYS b.1)) :
    s.access τ bytes = some { s with
      ram := s.ram.storeAll (bytes.map fun b => (VIRT_2_PHYS b.1, b.2))
      stored := (inPlace (bytes.map Prod.fst)).reverse ++ s.stored } := by
  have hzip : (bytes.map Prod.fst).zip (bytes.map fun b => VIRT_2_PHYS b.1) = inPlace (bytes.map Prod.fst) := by
    rw [List.zip_map', inPlace, List.map_map]
    rfl
  rw [access, mapM_eq_some h]
  show some _ = some _
  rw [hzip, List.zip_map']

theorem store8_inPlace {v : U8} (h : τ s.ram a = some (VIRT_2_PHYS a)) : s.store8 τ a v = some { s with
    ram := s.ram.store8 (VIRT_2_PHYS a) v
    stored := inPlace [a] ++ s.stored } := by
  refine access_inPlace fun b hb => ?_
  obtain rfl := List.mem_singleton.mp hb
  exact h

theorem store32_inPlace {v : U32} (h : WordInPlace τ s.ram a) : s.store32 τ a v = some { s with
    ram := s.ram.store32 (VIRT_2_PHYS a) v
    stored := inPlace (wordAddresses a) ++ s.stored } := by
  refine (access_inPlace fun b hb => ?_).trans ?_
  · simp only [List.mem_cons, List.not_mem_nil, or_false] at hb
    rcases hb with rfl | rfl | rfl | rfl
    · exact h 0 (by omega)
    · exact h 1 (by omega)
    · exact h 2 (by omega)
    · exact h 3 (by omega)
  · simp only [List.map_cons, List.map_nil, VIRT_2_PHYS_add]
    rfl

theorem load32_inPlace (h : WordInPlace τ s.ram a) : s.load32 τ a = some (s.ram.load32 (VIRT_2_PHYS a)) := by
  have hload : ∀ i : ℕ, i < 4 →
      Paging.load τ s.ram (a + (i : U32)) = some (s.ram.byte (VIRT_2_PHYS a + (i : U32))) := by
    intro i hi
    rw [Paging.load, h i hi, Option.map_some, VIRT_2_PHYS_add]
  rw [MemoryManager.load32, hload 0 (by omega), hload 1 (by omega), hload 2 (by omega), hload 3 (by omega)]
  rfl

theorem assign_inPlace (h : WordInPlace τ s.ram entry) : s.assign τ entry w = some { s with
    ram := flatAssign s.ram entry w
    stored := inPlace (wordAddresses entry) ++ s.stored } := by
  rw [assign, load32_inPlace h]
  exact store32_inPlace h

/-- An entry that stays in place while its flags are set. -/
theorem setEntry_inPlace (h : WordInPlace τ s.ram entry)
    (h' : WordInPlace τ (flatAssign s.ram entry setPresent) entry)
    (h'' : WordInPlace τ (flatAssign (flatAssign s.ram entry setPresent) entry setWrite) entry) :
    s.setEntry τ entry f = some { s with
      ram := flatSetEntry s.ram entry f
      stored := inPlace (entryAddresses entry) ++ s.stored } := by
  rw [setEntry, assign_inPlace h, Option.bind_eq_bind, Option.bind_some, assign_inPlace h', Option.bind_some,
    assign_inPlace h'']
  simp only [flatSetEntry, entryAddresses, inPlace, List.map_append, List.append_assoc]

/-- The addresses of `memset` lead to their places, whatever it has stored so far. -/
theorem memset_inPlace {dest : U32} {val : U8} {n : ℕ} (h : ∀ ram : Ram,
      (∀ x, (∀ i < n, x ≠ VIRT_2_PHYS dest + ((i + 1 : ℕ) : U32)) → ram.byte x = s.ram.byte x) →
      ∀ i < n, τ ram (dest + ((i + 1 : ℕ) : U32)) = some (VIRT_2_PHYS (dest + ((i + 1 : ℕ) : U32)))) :
    s.memset τ dest val n = some { s with
      ram := memset s.ram (VIRT_2_PHYS dest) val n
      stored := inPlace (memsetAddresses dest n) ++ s.stored } := by
  induction n generalizing s with
  | zero => rfl
  | succ n ih =>
    have hfirst := h s.ram (fun _ _ => rfl) n (by omega)
    rw [MemoryManager.memset, store8_inPlace hfirst, Option.bind_eq_bind, Option.bind_some, ih]
    · simp only [memsetAddresses, inPlace, List.map_append, List.append_assoc, memset, VIRT_2_PHYS_add]
    · intro ram hram i hi
      refine h ram (fun x hx => ?_) i (by omega)
      rw [hram x fun j hj => hx j (by omega)]
      refine Memory.byte_store8_of_ne ?_
      rw [VIRT_2_PHYS_add]
      exact hx n (by omega)

end Access

/-! ## Pages in place -/

section Pages

variable {m m' : MemoryManager} {ram : Ram} {d i k l t : ℕ} {a p entry f virt : U32} {w : U32 → U32}

theorem toNat_VIRT_2_PHYS (x : U32) : (VIRT_2_PHYS x).toNat = (x.toNat + 0x40000000) % 2 ^ 32 := by
  rw [VIRT_2_PHYS, BitVec.toNat_sub, show (GB 3).toNat = 0xC0000000 by decide]
  omega

theorem toNat_PHYS_2_VIRT (x : U32) : (PHYS_2_VIRT x).toNat = (x.toNat + 0xC0000000) % 2 ^ 32 := by
  rw [PHYS_2_VIRT, BitVec.toNat_add, show (GB 3).toNat = 0xC0000000 by decide]

theorem PageInPlace.translate (h : PageInPlace m p) (ha : a.toNat / 4096 = p.toNat / 4096) :
    m.translate a = some (VIRT_2_PHYS a) := by
  have hpage : pageOf a = pageOf p := BitVec.eq_of_toNat_eq (by rw [toNat_pageOf, toNat_pageOf, ha])
  have hplace : pageOf (VIRT_2_PHYS a) = pageOf (VIRT_2_PHYS p) := by
    apply BitVec.eq_of_toNat_eq
    rw [toNat_pageOf, toNat_pageOf, toNat_VIRT_2_PHYS, toNat_VIRT_2_PHYS]
    omega
  refine translate_eq_some_iff.mpr ⟨?_, ?_⟩
  · rw [walk_page hpage, hplace]
    exact h
  · rw [toNat_VIRT_2_PHYS]
    omega

/-- The words of a page in place. -/
theorem PageInPlace.wordInPlace (h : PageInPlace { m with ram := ram } p) (ha : a.toNat / 4096 = p.toNat / 4096)
    (halign : a.toNat % 4 = 0) : WordInPlace m.translation ram a := by
  intro i hi
  refine PageInPlace.translate (m := { m with ram := ram }) h ?_
  have hlt := a.isLt
  rw [BitVec.toNat_add_cast (by omega)]
  omega

theorem PageInPlace.word (h : PageInPlace m p) (ha : a.toNat / 4096 = p.toNat / 4096) (halign : a.toNat % 4 = 0) :
    WordInPlace m.translation m.ram a := by
  have hself : PageInPlace { m with ram := m.ram } p := h
  exact hself.wordInPlace ha halign

theorem word_flatAssign (hentry : VIRT_2_PHYS entry = ptr (4 * k)) (hk : k < 2 ^ 30) (hl : l < 2 ^ 30) :
    word (flatAssign ram entry w) l = if l = k then w (word ram k) else word ram l := by
  rw [flatAssign, hentry, word_store32 hk hl]
  rfl

theorem frame_setPresent (x : U32) : frame (setPresent x) = frame x := by
  rw [frame, setPresent, BitVec.ushiftRight_or_distrib, show (1 : U32) >>> 12 = 0#32 by decide, BitVec.or_zero, frame]

theorem frame_setWrite (x : U32) : frame (setWrite x) = frame x := by
  rw [frame, setWrite, BitVec.ushiftRight_or_distrib, show (2 : U32) >>> 12 = 0#32 by decide, BitVec.or_zero, frame]

theorem present_setPresent (x : U32) : present (setPresent x) = true := by
  rw [present, setPresent, BitVec.getLsbD_or, show (1 : U32).getLsbD 0 = true by decide, Bool.or_true]

theorem present_setWrite (x : U32) : present (setWrite x) = present x := by
  rw [present, setWrite, BitVec.getLsbD_or, show (2 : U32).getLsbD 0 = false by decide, Bool.or_false, present]

/-- Entries that are present stay present and name the same frames. -/
theorem walk_of_flags (hdir : m.currentPageDirectory = PHYS_2_VIRT (ptr (d * 4096))) (hd : d < 2 ^ 20)
    (hdir' : m'.currentPageDirectory = m.currentPageDirectory)
    (hwords : ∀ l < 2 ^ 30, present (word m.ram l) = true →
      present (word m'.ram l) = true ∧ frame (word m'.ram l) = frame (word m.ram l))
    (h : m.walk a = some f) : m'.walk a = some f := by
  have hi := dirIndex_lt a
  have hj := tableIndex_lt a
  rw [walk, walkTable_eq] at h ⊢
  rw [walkDirectory_eq hdir] at h
  rw [walkDirectory_eq (hdir'.trans hdir)]
  split_ifs at h with hp
  rw [Bool.and_eq_true] at hp
  obtain ⟨hp', hf'⟩ := hwords _ (by omega) hp.1
  have hframe := toNat_frame_lt (word m.ram (1024 * d + dirIndex a))
  obtain ⟨hp'', hf''⟩ := hwords _ (by omega) hp.2
  rw [hf', hp', hp'', hf'']
  exact h

/-- Setting a flag of an entry moves no page. -/
theorem walk_flatAssign (hdir : m.currentPageDirectory = PHYS_2_VIRT (ptr (d * 4096))) (hd : d < 2 ^ 20)
    (hentry : VIRT_2_PHYS entry = ptr (4 * k)) (hk : k < 2 ^ 30)
    (hw : ∀ x, present x = true → present (w x) = true ∧ frame (w x) = frame x)
    (h : ({ m with ram := ram } : MemoryManager).walk a = some f) :
    ({ m with ram := flatAssign ram entry w } : MemoryManager).walk a = some f := by
  refine walk_of_flags (m := { m with ram := ram }) hdir hd rfl (fun l hl hp => ?_) h
  rw [word_flatAssign hentry hk hl]
  split_ifs with hlk
  · subst hlk
    exact hw _ hp
  · exact ⟨hp, rfl⟩

/-- A page in place stays there while an entry is made, whichever entry that is. -/
theorem PageInPlace.setEntry {s : MemoryManager} (h : PageInPlace s p)
    (hdir : s.currentPageDirectory = PHYS_2_VIRT (ptr (d * 4096))) (hd : d < 2 ^ 20)
    (hentry : VIRT_2_PHYS entry = ptr (4 * k)) (hk : k < 2 ^ 30) (ha : entry.toNat / 4096 = p.toNat / 4096) :
    s.setEntry s.translation entry f = some { s with
      ram := flatSetEntry s.ram entry f
      stored := inPlace (entryAddresses entry) ++ s.stored } := by
  have halign : entry.toNat % 4 = 0 := by
    have hnat := congrArg BitVec.toNat hentry
    rw [toNat_VIRT_2_PHYS, toNat_ptr] at hnat
    omega
  have hpresent : PageInPlace { s with ram := flatAssign s.ram entry setPresent } p :=
    walk_flatAssign hdir hd hentry hk (fun x _ => ⟨present_setPresent x, frame_setPresent x⟩) h
  have hwrite : PageInPlace { s with ram := flatAssign (flatAssign s.ram entry setPresent) entry setWrite } p :=
    walk_flatAssign hdir hd hentry hk (fun x hx => ⟨(present_setWrite x).trans hx, frame_setWrite x⟩) hpresent
  exact setEntry_inPlace (h.word ha halign) (hpresent.wordInPlace ha halign)
    (hwrite.wordInPlace ha halign)

end Pages

/-! ## Creating a page table -/

section Tables

variable {m m' : MemoryManager} {ram : Ram} {d i t : ℕ} {a p f phys virt : U32}

/-- The walk looks at an entry of the directory and an entry of a page table. -/
theorem walk_eq_entries (hdir : m.currentPageDirectory = PHYS_2_VIRT (ptr (d * 4096))) : m.walk a =
    if present (dirEntry m d (dirIndex a)) && present (tableEntry m d a) then some (frame (tableEntry m d a))
    else none := by
  rw [walk, walkTable_eq, walkDirectory_eq hdir]
  rfl

theorem present_of_walk (hdir : m.currentPageDirectory = PHYS_2_VIRT (ptr (d * 4096))) (h : m.walk a = some f) :
    present (dirEntry m d (dirIndex a)) = true := by
  rw [walk_eq_entries hdir] at h
  split_ifs at h with hp
  exact (Bool.and_eq_true_iff.mp hp).1

theorem walk_of_words (hdir : m.currentPageDirectory = PHYS_2_VIRT (ptr (d * 4096)))
    (hdir' : m'.currentPageDirectory = m.currentPageDirectory)
    (hentry : dirEntry m' d (dirIndex a) = dirEntry m d (dirIndex a))
    (htable : tableEntry m' d a = tableEntry m d a) : m'.walk a = m.walk a := by
  rw [walk_eq_entries hdir, walk_eq_entries (hdir'.trans hdir), hentry, htable]

/-- A page in place that is not translated by a table in frame `t`, if that is the frame 0. -/
structure Steady (m : MemoryManager) (d t : ℕ) (p : U32) : Prop where
  inPlace : PageInPlace m p
  apart : t ≠ 0 ∨ tableFrame m d (dirIndex p) ≠ 0

/-- Clearing a new frame, and making an entry that was not present, moves no page. -/
theorem Steady.keep (hs : Steady m d t p) (h : Paged m d) (hi : i < 1024)
    (habs : present (dirEntry m d i) = false) (hn : NewFrame m m' t)
    (hwords : ∀ l < 2 ^ 30, l ≠ 1024 * d + i → l < 1024 * t ∨ 1024 * t + 1024 < l →
      word ram l = word m.ram l) : PageInPlace { m with ram := ram } p := by
  have hk := dirIndex_lt p
  have hj := tableIndex_lt p
  have hlt := h.dir_settled.lt
  have hge := h.dir_settled.ge
  have hpresent := present_of_walk h.dir_eq hs.inPlace
  have hki : dirIndex p ≠ i := by
    rintro rfl
    rw [habs] at hpresent
    cases hpresent
  have htd := hn.above h.dir_settled
  have hentry : dirEntry { m with ram := ram } d (dirIndex p) = dirEntry m d (dirIndex p) :=
    hwords _ (by omega) (by omega) (by omega)
  have hframe : tableFrame { m with ram := ram } d (dirIndex p) = tableFrame m d (dirIndex p) := by
    rw [tableFrame, hentry, tableFrame]
  have hflt := @tableFrame_lt m d (dirIndex p)
  have htable : tableEntry { m with ram := ram } d p = tableEntry m d p := by
    rw [tableEntry, hframe]
    rcases h.settled _ hk hpresent with h0 | ⟨hset, hne⟩
    · have ht := hs.apart.resolve_right (not_not.mpr h0)
      have htge := (hn.fresh.resolve_left fun h => ht h.1).1
      exact hwords _ (by omega) (by omega) (by omega)
    · have hsetge := hset.ge
      have habove := hn.above hset
      exact hwords _ (by omega) (by omega) (by omega)
  have hwalk : MemoryManager.walk { m with ram := ram } p = m.walk p := walk_of_words h.dir_eq rfl hentry htable
  exact hwalk.trans hs.inPlace

/-- While `memset` clears a frame. -/
theorem word_of_cleared (ht : t < 2 ^ 20 - 1) (hram : ∀ x, (∀ i < sizeofPageTable,
      x ≠ VIRT_2_PHYS (PHYS_2_VIRT (ptr (t * 4096))) + ((i + 1 : ℕ) : U32)) → ram.byte x = m.ram.byte x) {l : ℕ}
    (hl : l < 2 ^ 30) (hout : l < 1024 * t ∨ 1024 * t + 1024 < l) : word ram l = word m.ram l := by
  refine Memory.load32_congr fun i hi => hram _ fun j hj => ?_
  have hj' : j < 4096 := hj
  rw [VIRT_2_PHYS_PHYS_2_VIRT, ptr_add_cast, ptr_add_cast, Ne, ptr_inj (by omega) (by omega)]
  omega

theorem directoryEntry_page (h : Paged m d) (virt : U32) :
    (m.directoryEntry virt).toNat / 4096 = m.currentPageDirectory.toNat / 4096 := by
  have hlt := h.dir_settled.lt
  have hi := dirIndex_lt virt
  rw [directoryEntry, h.dir_eq, four_mul, BitVec.toNat_add, toNat_PHYS_2_VIRT, toNat_ptr_of_lt (by omega),
    toNat_PAGE_DIRECTORY_INDEX, toNat_ptr_of_lt (by omega)]
  omega

theorem newTable_eq (m : MemoryManager) (entry : U32) : m.newTable entry =
    ((m.getFreePhysicalPage 1).2.memset m.translation (PHYS_2_VIRT (m.getFreePhysicalPage 1).1) 0
      sizeofPageTable).bind fun s => s.setEntry s.translation entry
        (GET_FRAME_ADDRESS (VIRT_2_PHYS (PHYS_2_VIRT (m.getFreePhysicalPage 1).1))) := rfl

theorem Paged.directoryEntry_inPlace (h : Paged m d) (hdir : PageInPlace m m.currentPageDirectory) (virt : U32) :
    WordInPlace m.translation m.ram (m.directoryEntry virt) := by
  refine hdir.word (directoryEntry_page h virt) ?_
  have hplace : VIRT_2_PHYS (m.directoryEntry virt) = ptr (4 * (1024 * d + dirIndex virt)) := directoryEntry_eq h.dir_eq
  have hnat := congrArg BitVec.toNat hplace
  rw [toNat_VIRT_2_PHYS, toNat_ptr] at hnat
  omega

/-- Clearing a new page table, when the table and the byte behind it are in place. -/
theorem Paged.memset_inPlace (h : Paged m d) (habs : present (dirEntry m d (dirIndex virt)) = false)
    (hn : NewFrame m (m.getFreePhysicalPage 1).2 t) (htable : Steady m d t (PHYS_2_VIRT (ptr (t * 4096))))
    (hbehind : Steady m d t (PHYS_2_VIRT (ptr (t * 4096)) + PAGE_SIZE)) :
    (m.getFreePhysicalPage 1).2.memset m.translation (PHYS_2_VIRT (ptr (t * 4096))) 0 sizeofPageTable =
      some { (m.getFreePhysicalPage 1).2 with
        ram := memset m.ram (VIRT_2_PHYS (PHYS_2_VIRT (ptr (t * 4096)))) 0 sizeofPageTable
        stored := inPlace (memsetAddresses (PHYS_2_VIRT (ptr (t * 4096))) sizeofPageTable) ++ m.stored } := by
  have hlt := hn.lt
  refine Pros.memset_inPlace fun ram hram i hi => ?_
  have hwords : ∀ l < 2 ^ 30, l ≠ 1024 * d + dirIndex virt → l < 1024 * t ∨ 1024 * t + 1024 < l →
      word ram l = word m.ram l := fun l hl _ hout => word_of_cleared hlt hram hl hout
  have hi' : i < 4096 := hi
  have hcast : ((i + 1 : ℕ) : U32).toNat = i + 1 := by
    rw [BitVec.natCast_eq_ofNat, BitVec.toNat_ofNat]
    omega
  by_cases hlast : i + 1 < 4096
  · refine PageInPlace.translate (htable.keep h (dirIndex_lt virt) habs hn hwords) ?_
    rw [BitVec.toNat_add, hcast, toNat_PHYS_2_VIRT, toNat_ptr_of_lt (by omega)]
    omega
  · refine PageInPlace.translate (hbehind.keep h (dirIndex_lt virt) habs hn hwords) ?_
    rw [BitVec.toNat_add, BitVec.toNat_add, hcast, show PAGE_SIZE.toNat = 4096 from rfl]
    omega

/-- Creating a page table, when the directory, the new table and the byte behind it are in place. -/
theorem Paged.newTable_inPlace (h : Paged m d) (habs : present (dirEntry m d (dirIndex virt)) = false)
    (hp : (m.getFreePhysicalPage 1).1 = ptr (t * 4096)) (hn : NewFrame m (m.getFreePhysicalPage 1).2 t)
    (hdir : Steady m d t m.currentPageDirectory) (htable : Steady m d t (PHYS_2_VIRT (ptr (t * 4096))))
    (hbehind : Steady m d t (PHYS_2_VIRT (ptr (t * 4096)) + PAGE_SIZE)) :
    m.newTable (m.directoryEntry virt) = some (m.flatNewTable (m.directoryEntry virt)) := by
  have hlt := hn.lt
  have hdlt := h.dir_settled.lt
  have hk := dirIndex_lt virt
  have hsteady : PageInPlace { (m.getFreePhysicalPage 1).2 with
      ram := memset m.ram (VIRT_2_PHYS (PHYS_2_VIRT (ptr (t * 4096)))) 0 sizeofPageTable
      stored := inPlace (memsetAddresses (PHYS_2_VIRT (ptr (t * 4096))) sizeofPageTable) ++ m.stored }
      m.currentPageDirectory :=
    hdir.keep h hk habs hn fun l hl _ hout => by rw [VIRT_2_PHYS_PHYS_2_VIRT, word_memset_of_ne hlt hl hout]
  have hentry := hsteady.setEntry (f := GET_FRAME_ADDRESS (VIRT_2_PHYS (PHYS_2_VIRT (ptr (t * 4096)))))
    h.dir_eq (by omega) (directoryEntry_eq h.dir_eq) (by omega) (directoryEntry_page h virt)
  rw [newTable_eq, hp, h.memset_inPlace habs hn htable hbehind, Option.bind_some]
  refine hentry.trans ?_
  rw [MemoryManager.flatNewTable]
  simp only [hp, inPlace, List.map_append, List.append_assoc]
  rfl

end Tables

/-! ## The whole call -/

section MapPage

variable {m : MemoryManager} {d : ℕ} {phys virt : U32}

theorem editedTable_of_absent (h : Paged m d) (habs : present (dirEntry m d (dirIndex virt)) = false) :
    editedTable m virt = (m.getFreePhysicalPage 1).1 := by
  have hwalk : present (m.walkDirectory virt) = false := by
    rw [walkDirectory_eq h.dir_eq]
    exact habs
  rw [editedTable, hwalk, if_neg Bool.false_ne_true]

theorem editedTable_of_paged (h : Paged m d) (virt : U32) :
    editedTable m virt = ptr (tableFrame (m.flatEnsureTable virt) d (dirIndex virt) * 4096) := by
  rcases flatEnsureTable_cases h virt with ⟨hp, heq⟩ | ⟨habs, t, ht, hn⟩
  · rw [dirEntry] at hp
    rw [editedTable, walkDirectory_eq h.dir_eq, hp, if_pos rfl, heq, PAGE_GET_PHYSICAL_ADDRESS_eq]
    rfl
  · rw [editedTable_of_absent h habs, ht, hn.tableFrame_eq]

/-- No page that the call stores to is translated by a table in frame 0, if its new table is there. -/
def ApartFromNew (m : MemoryManager) (virt : U32) : Prop :=
  present (m.walkDirectory virt) = false → (m.getFreePhysicalPage 1).1 ≠ nullptr ∨
    frame (m.walkDirectory m.currentPageDirectory) ≠ 0 ∧
      frame (m.walkDirectory (PHYS_2_VIRT (editedTable m virt))) ≠ 0 ∧
      frame (m.walkDirectory (PHYS_2_VIRT (editedTable m virt) + PAGE_SIZE)) ≠ 0

theorem mapPage_eq (m : MemoryManager) (phys virt : U32) : m.mapPage phys virt =
    (m.ensureTable virt).bind fun s => (s.load32 s.translation (s.directoryEntry virt)).bind fun w =>
      (s.setEntry s.translation (PHYS_2_VIRT (PAGE_GET_PHYSICAL_ADDRESS w + 4 * PAGE_TABLE_INDEX virt))
        (GET_FRAME_ADDRESS phys)).bind fun s => some { s with mapped := (phys, virt) :: s.mapped } := rfl

theorem Paged.ensureTable_eq (h : Paged m d) (hdir : PageInPlace m m.currentPageDirectory) (virt : U32) :
    m.ensureTable virt =
      if present (dirEntry m d (dirIndex virt)) = true then some m else m.newTable (m.directoryEntry virt) := by
  have hload := load32_inPlace (h.directoryEntry_inPlace hdir virt)
  rw [directoryEntry_eq h.dir_eq] at hload
  have hif : m.ensureTable virt =
      if !present (dirEntry m d (dirIndex virt)) then m.newTable (m.directoryEntry virt) else some m := by
    rw [MemoryManager.ensureTable, hload]
    rfl
  rw [hif]
  cases present (dirEntry m d (dirIndex virt)) <;> rfl

/-- The pages that a new table is made through stay in place meanwhile. -/
theorem ApartFromNew.steady (hapart : ApartFromNew m virt) (h : Paged m d) (hin : TablesInPlace m virt)
    (habs : present (dirEntry m d (dirIndex virt)) = false) {t : ℕ}
    (ht : (m.getFreePhysicalPage 1).1 = ptr (t * 4096)) :
    Steady m d t m.currentPageDirectory ∧ Steady m d t (PHYS_2_VIRT (ptr (t * 4096))) ∧
      Steady m d t (PHYS_2_VIRT (ptr (t * 4096)) + PAGE_SIZE) := by
  have habs' : present (m.walkDirectory virt) = false := by rw [walkDirectory_eq h.dir_eq]; exact habs
  have hedited : editedTable m virt = ptr (t * 4096) := (editedTable_of_absent h habs).trans ht
  have hbehind := hin.behind habs'
  have htable := hin.table
  have hapart' := hapart habs'
  rw [hedited] at hbehind htable hapart'
  rw [ht] at hapart'
  have hne : ∀ x, (ptr (t * 4096) ≠ nullptr ∨ frame (m.walkDirectory x) ≠ 0) →
      t ≠ 0 ∨ tableFrame m d (dirIndex x) ≠ 0 := by
    rintro x (hne | hne)
    · refine Or.inl ?_
      rintro rfl
      exact hne rfl
    · rw [walkDirectory_eq h.dir_eq] at hne
      exact Or.inr fun h0 => hne (BitVec.eq_of_toNat_eq h0)
  exact ⟨⟨hin.directory, hne _ (hapart'.imp_right And.left)⟩, ⟨htable, hne _ (hapart'.imp_right fun h => h.2.1)⟩,
    ⟨hbehind, hne _ (hapart'.imp_right fun h => h.2.2)⟩⟩

/-- `mapPage` up to its page table, with the tables in place. The directory and the page table are in place
    afterwards, too. -/
theorem Paged.ensureTable_inPlace (h : Paged m d) (hin : TablesInPlace m virt) (hapart : ApartFromNew m virt) :
    m.ensureTable virt = some (m.flatEnsureTable virt) ∧
      PageInPlace (m.flatEnsureTable virt) m.currentPageDirectory ∧
      PageInPlace (m.flatEnsureTable virt) (PHYS_2_VIRT (editedTable m virt)) := by
  have hi := dirIndex_lt virt
  rw [h.ensureTable_eq hin.directory, flatEnsureTable_eq h]
  rcases flatEnsureTable_cases h virt with ⟨hp, -⟩ | ⟨habs, t, ht, hnew⟩
  · rw [if_pos hp, if_pos hp]
    exact ⟨rfl, hin.directory, hin.table⟩
  · obtain ⟨hdir, htable, hbehind⟩ := hapart.steady h hin habs ht
    rw [flatEnsureTable_eq h, if_neg (by rw [habs]; exact Bool.false_ne_true)] at hnew
    obtain ⟨t', ht', hframe⟩ := exists_newFrame h
    obtain rfl : t' = t := by
      have hlt := hframe.lt
      have hlt' := hnew.newFrame.lt
      have heq := ht'.symm.trans ht
      rw [ptr_inj (by omega) (by omega)] at heq
      omega
    rw [habs, if_neg Bool.false_ne_true, if_neg Bool.false_ne_true,
      h.newTable_inPlace habs ht hframe hdir htable hbehind, (editedTable_of_absent h habs).trans ht]
    exact ⟨rfl, hdir.keep h hi habs hframe fun l hl hne hout => hnew.word_eq l hl hne hout,
      htable.keep h hi habs hframe fun l hl hne hout => hnew.word_eq l hl hne hout⟩

/-- With its tables in place, `mapPage` does what it does on flat memory. -/
theorem Paged.mapPage_inPlace (h : Paged m d) (hin : TablesInPlace m virt) (hapart : ApartFromNew m virt)
    (phys : U32) : m.mapPage phys virt = some (m.flatMapPage phys virt) := by
  obtain ⟨hensure, hdir, htable⟩ := h.ensureTable_inPlace hin hapart
  obtain ⟨h₁, hp⟩ := h.flatEnsureTable virt
  rw [editedTable_of_paged h] at htable
  have hcurrent := dir_flatEnsureTable m virt
  rw [← hcurrent] at hdir
  rw [mapPage_eq, MemoryManager.flatMapPage, hensure, Option.bind_some]
  generalize m.flatEnsureTable virt = s at *
  have hd := h₁.dir_settled.lt
  have hT := @tableFrame_lt s d (dirIndex virt)
  have hj := tableIndex_lt virt
  have hload := load32_inPlace (h₁.directoryEntry_inPlace hdir virt)
  have hentry := htable.setEntry (f := GET_FRAME_ADDRESS phys) h₁.dir_eq (by omega)
    (VIRT_2_PHYS_PHYS_2_VIRT (ptr (4 * (1024 * tableFrame s d (dirIndex virt) + tableIndex virt)))) (by omega) (by
      rw [toNat_PHYS_2_VIRT, toNat_PHYS_2_VIRT, toNat_ptr_of_lt (by omega), toNat_ptr_of_lt (by omega)]
      omega)
  rw [hload, Option.bind_some, pageEntry_eq h₁.dir_eq, hentry]
  rfl

theorem apartFromNew_of_tableGranted (hg : TableGranted m (.mapPage phys virt)) : ApartFromNew m virt :=
  fun habs => Or.inl (hg habs)

/-- A call that gets a table if it needs one, and finds its tables in place, is the one on flat memory. -/
theorem Paged.exec_inPlace (h : Paged m d) {op : VmmOp} (hg : TableGranted m op) (hin : EditsInPlace m op) :
    m.exec op = some (m.flatExec op) := by
  cases op with
  | mapPage phys virt => exact h.mapPage_inPlace hin (apartFromNew_of_tableGranted hg) phys
  | getFreePhysicalPage size => rfl

theorem MappingStep.eq_flatExec {m' : MemoryManager} {op : VmmOp} (hstep : MappingStep m op m') (h : Paged m d) :
    m' = m.flatExec op :=
  Option.some.inj (hstep.1.symm.trans (h.exec_inPlace hstep.2.1 hstep.2.2))

/-- Runs through the page tables that find them in place are runs on flat memory. -/
theorem Paged.run_inPlace {s : MemoryManager} {ops : List VmmOp} (h : Paged s d) (hz : ZeroFrameFirst s d)
    (hrun : Run MappingStep s ops m) : (Paged m d ∧ ZeroFrameFirst m d) ∧
      Run (fun m op m' => m' = m.flatExec op ∧ TableGranted m op ∧ EditsInPlace m op) s ops m := by
  induction hrun with
  | nil => exact ⟨⟨h, hz⟩, .nil⟩
  | snoc op hrun hstep ih =>
    obtain ⟨⟨hm, hzm⟩, hflat⟩ := ih
    obtain rfl := hstep.eq_flatExec hm
    exact ⟨⟨hm.flatExec op, hzm.flatExec hm hstep.2.1⟩, .snoc op hflat ⟨rfl, hstep.2⟩⟩

end MapPage

/-! ## What is granted -/

section Granted

variable {τ : Ram → U32 → Option U32} {m m' : MemoryManager} {d n : ℕ} {a f phys virt : U32} {w : U32 → U32}

theorem granted_access {bytes : List (U32 × U8)} (h : m.access τ bytes = some m') : m'.granted = m.granted := by
  obtain ⟨places, -, h⟩ := Option.bind_eq_some_iff.mp h
  obtain rfl := Option.some.inj h
  rfl

theorem granted_memset {v : U8} (h : m.memset τ a v n = some m') : m'.granted = m.granted := by
  induction n generalizing m with
  | zero =>
    obtain rfl := Option.some.inj h
    rfl
  | succ n ih =>
    obtain ⟨m₁, h₁, h⟩ := Option.bind_eq_some_iff.mp h
    exact (ih h).trans (granted_access h₁)

theorem granted_assign (h : m.assign τ a w = some m') : m'.granted = m.granted := by
  obtain ⟨x, -, h⟩ := Option.bind_eq_some_iff.mp h
  exact granted_access h

theorem granted_setEntry (h : m.setEntry τ a f = some m') : m'.granted = m.granted := by
  obtain ⟨m₁, h₁, h⟩ := Option.bind_eq_some_iff.mp h
  obtain ⟨m₂, h₂, h⟩ := Option.bind_eq_some_iff.mp h
  exact (granted_assign h).trans ((granted_assign h₂).trans (granted_assign h₁))

theorem mem_granted_mapPage {x : U32} (h : m.mapPage phys virt = some m') (hx : x ∈ m.granted) : x ∈ m'.granted := by
  obtain ⟨m₁, h₁, h⟩ := Option.bind_eq_some_iff.mp h
  obtain ⟨y, -, h⟩ := Option.bind_eq_some_iff.mp h
  obtain ⟨m₂, h₂, h⟩ := Option.bind_eq_some_iff.mp h
  obtain rfl := Option.some.inj h
  have hpage : m₂.granted = m₁.granted := granted_setEntry h₂
  refine hpage ▸ ?_
  obtain ⟨w, -, h₁⟩ := Option.bind_eq_some_iff.mp h₁
  split_ifs at h₁
  · rw [newTable_eq] at h₁
    obtain ⟨m₃, h₃, h₁⟩ := Option.bind_eq_some_iff.mp h₁
    have hrequest : m₁.granted = (m.getFreePhysicalPage 1).2.granted := (granted_setEntry h₁).trans (granted_memset h₃)
    exact hrequest ▸ List.mem_cons_of_mem _ hx
  · exact Option.some.inj h₁ ▸ hx

/-- What was refused in the loop over the heap stays on record. -/
theorem mem_granted_mapHeap {x : U32} (h : m.mapHeap phys virt n = some m') (hx : x ∈ m.granted) :
    x ∈ m'.granted := by
  induction n generalizing m phys virt with
  | zero => exact Option.some.inj h ▸ hx
  | succ n ih =>
    rw [MemoryManager.mapHeap] at h
    split_ifs at h
    · obtain ⟨m₁, h₁, h⟩ := Option.bind_eq_some_iff.mp h
      exact ih h (List.mem_cons_of_mem _ (mem_granted_mapPage h₁ hx))
    · exact Option.some.inj h ▸ hx

end Granted

end Pros
