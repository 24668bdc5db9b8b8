import Pros.MM.Proofs.BootedProofs

/-!
# Address spaces over whole runs

The walk agrees with the flat map of pages in every run that finds its page tables in place
(`mapped_pages_translate`), `initVMM` sets up the window and the heap (`initVMM_initialSpace`), and page tables are
edited through the window as long as they are where the window leads (`tables_edited_through_window`).
-/

namespace Pros

open MemoryManager PageEntry

section Runs

variable {s : PMM} {entries : List MmapEntry} {ram : Ram} {dir : U32} {ops : List VmmOp} {m m₀ : MemoryManager}

/-- The processor translates every mapped page to the frame it was last mapped to, whatever was mapped since, if each
    call has found its tables in place. So mapping a page changes the translation of no other page that is mapped. -/
theorem mapped_pages_translate (hboot : Booted s entries ram dir m₀) (hrun : Run MappingStep m₀ ops m) :
    (∀ virt f, lastMapping m virt = some f → m.walk virt = some f) ∧
      ∀ phys virt, TableGranted m (.mapPage phys virt) → TablesInPlace m virt →
        ∃ m', m.mapPage phys virt = some m' ∧
          ∀ v, lastMapping m v ≠ none → pageOf v ≠ pageOf virt → m'.walk v = m.walk v := by
  obtain ⟨d, p, h0, -⟩ := hboot.heapMapped
  obtain ⟨⟨h, hz⟩, -⟩ := h0.paged.run_inPlace h0.zero hrun
  have htranslate : ∀ m, Paged m d → ZeroFrameFirst m d → ∀ virt f, lastMapping m virt = some f →
      m.walk virt = some f := by
    intro m h hz virt f hf
    exact (h.walk_eq hf (h.own hz (dirIndex_lt virt) (h.mapped virt f hf))).1
  refine ⟨htranslate m h hz, ?_⟩
  intro phys virt hg hin
  refine ⟨_, h.mapPage_inPlace hin (apartFromNew_of_tableGranted hg) phys, fun v hv hne => ?_⟩
  obtain ⟨f, hf⟩ := Option.ne_none_iff_exists'.mp hv
  have hf' : lastMapping (m.flatMapPage phys virt) v = some f := by
    rw [lastMapping_flatMapPage, if_neg (Ne.symm hne), hf]
  rw [htranslate m h hz v f hf, htranslate _ (h.flatMapPage phys virt) (hz.flatMapPage h hg) v f hf']

/-- A small machine maps a page at 1 GiB. -/
theorem smallPc_pages_translate : ∃ m₀ m,
    Booted ⟨MB 16, 0, 0, { byte := fun _ => 0 }⟩ smallPc { byte := fun _ => 0 } 0 m₀ ∧
      m₀.mapPage 0x1000 0x40000000 = some m ∧ m.walk 0x40000000 = some 1 := by
  obtain ⟨m₀, hboot, q, hq, hq', hfree⟩ := booted_smallPc { byte := fun _ => 0 } { byte := fun _ => 0 } 0
  obtain ⟨d, p, h, hd⟩ := hboot.heapMapped
  have habs := h.absent (dirIndex 0x40000000) (by decide) (by decide) (by decide) (by decide)
  obtain ⟨-, hg⟩ := hfree.newTable h.paged hboot.granted (by omega) habs 0x1000
  have hwin := hfree.tableInWindow h.paged hboot.granted (by omega) (by omega) habs 0x1000
  obtain ⟨hin, hapart⟩ := h.windowKept.tablesInPlace hd hwin
  have hm := h.paged.mapPage_inPlace hin hapart 0x1000
  have hrun : Run MappingStep m₀ [.mapPage 0x1000 0x40000000] _ := .snoc _ .nil ⟨hm, hg, hin⟩
  refine ⟨m₀, _, hboot, hm, (mapped_pages_translate hboot hrun).1 _ _ ?_⟩
  rw [lastMapping_flatMapPage, if_pos rfl]
  rfl

end Runs

/-! ## The initial address space -/

section Initial

variable {s : PMM} {entries : List MmapEntry} {ram : Ram} {dir : U32} {m : MemoryManager}


theorem Private.frame {d f : ℕ} (hf : Private m d f) (h : Paged m d) :
    PrivateFrame m (BitVec.ofNat 32 f) := by
  have hlt := hf.lt
  have hdlt := h.dir_settled.lt
  have hnat : (BitVec.ofNat 32 f).toNat = f := by rw [BitVec.toNat_ofNat]; omega
  constructor
  · rw [hnat, PMM.testBit_eq, hf.used]
  · rw [hnat]
    exact hf.ge
  · intro heq
    have hd := congrArg BitVec.toNat heq
    rw [hnat, directory_eq h.dir_eq, pageOf_frame (by omega), BitVec.toNat_ofNat] at hd
    exact hf.ne_dir (by omega)
  · intro virt hp heq
    rw [walkDirectory_eq h.dir_eq] at hp heq
    have ht := congrArg BitVec.toNat heq
    rw [hnat] at ht
    exact hf.ne_table _ (dirIndex_lt virt) hp ht.symm

theorem heapPages_eq : heapPages = 256 := by decide

theorem HeapMapped.initialSpace {d p : ℕ} (h : HeapMapped m d 256 p) : InitialSpace m := by
  have hwalk : ∀ virt f, lastMapping m virt = some f → m.walk virt = some f ∧
      write (m.walkTable virt) = true := fun virt f hf =>
    h.paged.walk_eq hf (h.paged.own h.zero (dirIndex_lt virt) (h.paged.mapped virt f hf))
  have hout : ∀ x ∈ m.mapped, x.2 < 0xC0000000 ∨ 0xC0400000 ≤ x.2 := fun x hx =>
    Or.inr (h.outside x hx).1
  have hlast : ∀ l < 256, ∃ f, lastMapping m (heapPage l) = some f :=
    fun l hl => (h.frames l hl).imp' _ fun _ hf => hf.1
  constructor
  · intro k hk
    obtain ⟨h1, h2, -, hwin⟩ := window_address hk
    exact (hwalk _ _ ((lastMapped_of_outside ⟨h1, h2⟩ hout).trans hwin)).1
  · rw [heapPages_eq]
    intro k hk
    obtain ⟨f, hf, hpriv, -⟩ := h.frames k hk
    have hp := h.paged.mapped _ _ hf
    rw [dirIndex_heapPage hk] at hp
    refine ⟨_, (hwalk _ _ hf).1, hpriv.frame h.paged, ?_, (hwalk _ _ hf).2⟩
    rw [walkDirectory_eq h.paged.dir_eq, dirIndex_heapPage hk]
    exact (h.paged.writable 769 (by omega) hp).resolve_left (by omega)
  · rw [heapPages_eq]
    intro k hk l hl heq
    obtain ⟨f, hf⟩ := hlast k hk
    obtain ⟨g, hg⟩ := hlast l hl
    rw [(hwalk _ _ hf).1, (hwalk _ _ hg).1] at heq
    exact h.distinct k hk l hl (by rw [hf, hg, heq])

end Initial

/-! ## Page tables behind the window -/

section Window

variable {m : MemoryManager} {d t : ℕ} {a phys virt : U32}

theorem storedThroughWindow_iff : StoredThroughWindow (a, VIRT_2_PHYS a) ↔
    (VIRT_2_PHYS a).toNat < 0x400000 ∨ 0x500000 ≤ (VIRT_2_PHYS a).toNat := by
  have hlt := a.isLt
  have hphys := toNat_VIRT_2_PHYS a
  rw [StoredThroughWindow, and_iff_right rfl]
  simp only [BitVec.le_def, BitVec.lt_def,
    show (KERNEL_HEAP_START + KERNEL_HEAP_SIZE).toNat = 0xC0500000 from rfl,
    show KERNEL_HEAP_START.toNat = 0xC0400000 from rfl]
  omega

/-- A byte of a frame that does not have the heap at its place in the window. -/
theorem storedThroughWindow_of_frame (hwin : FrameInWindow m (ptr (t * 4096))) (ht : t < 2 ^ 20)
    (ha : (VIRT_2_PHYS a).toNat / 4096 = t) : StoredThroughWindow (a, VIRT_2_PHYS a) := by
  rw [storedThroughWindow_iff]
  rw [FrameInWindow, BitVec.lt_def, BitVec.le_def, toNat_ptr_of_lt (by omega),
    show (0x400000 : U32).toNat = 0x400000 from rfl, show (0x500000 : U32).toNat = 0x500000 from rfl] at hwin
  omega

theorem mem_memsetAddresses {dest : U32} {n : ℕ} :
    a ∈ memsetAddresses dest n ↔ ∃ i < n, a = dest + ((i + 1 : ℕ) : U32) := by
  induction n with
  | zero => simp [memsetAddresses]
  | succ n ih =>
    rw [memsetAddresses, List.mem_append, List.mem_singleton, ih]
    constructor
    · rintro (⟨i, hi, rfl⟩ | rfl)
      · exact ⟨i, by omega, rfl⟩
      · exact ⟨n, by omega, rfl⟩
    · rintro ⟨i, hi, rfl⟩
      rcases Nat.lt_or_eq_of_le (Nat.le_of_lt_succ hi) with hlt | rfl
      · exact Or.inl ⟨i, hlt, rfl⟩
      · exact Or.inr rfl

theorem mem_entryAddresses {entry : U32} (h : a ∈ entryAddresses entry) : ∃ i : ℕ, i < 4 ∧ a = entry + (i : U32) := by
  have hword : a ∈ wordAddresses entry := by
    rcases List.mem_append.mp h with h | h
    · exact (List.mem_append.mp h).elim id id
    · exact h
  simp only [wordAddresses, List.mem_cons, List.not_mem_nil, or_false] at hword
  rcases hword with rfl | rfl | rfl | rfl
  · exact ⟨3, by omega, rfl⟩
  · exact ⟨2, by omega, rfl⟩
  · exact ⟨1, by omega, rfl⟩
  · exact ⟨0, by omega, rfl⟩

/-- The bytes of an entry. -/
theorem storedThroughWindow_entry {entry : U32} {x : U32 × U32} {k : ℕ} (hx : x ∈ inPlace (entryAddresses entry))
    (hentry : VIRT_2_PHYS entry = ptr (4 * k)) (hk : k / 1024 = t) (ht : t < 2 ^ 20)
    (hwin : FrameInWindow m (ptr (t * 4096))) : StoredThroughWindow x := by
  obtain ⟨a, ha, rfl⟩ := List.mem_map.mp hx
  obtain ⟨i, hi, rfl⟩ := mem_entryAddresses ha
  refine storedThroughWindow_of_frame hwin ht ?_
  rw [VIRT_2_PHYS_add, hentry, ptr_add_cast, toNat_ptr_of_lt (by omega)]
  omega

/-- The bytes that `mapPage` stores up to its page table. -/
theorem WindowKept.stored_flatEnsureTable (h : WindowKept m d) (hd : d < 1024)
    (hwin : TableInWindow m (.mapPage phys virt)) : ∃ stores, (m.flatEnsureTable virt).stored = stores ++ m.stored ∧
      ∀ x ∈ stores, StoredThroughWindow x := by
  have hi := dirIndex_lt virt
  rw [flatEnsureTable_eq h.paged]
  split_ifs with hp
  · exact ⟨[], rfl, fun x hx => nomatch hx⟩
  · obtain ⟨t, ht, hnew⟩ := exists_newFrame h.paged
    have hlt := hnew.lt
    have habs : present (m.walkDirectory virt) = false := by
      rw [walkDirectory_eq h.paged.dir_eq]
      exact Bool.eq_false_of_not_eq_true hp
    obtain ⟨htable, hbehind⟩ := hwin
    have hbehind' := hbehind habs
    rw [editedTable, habs, if_neg Bool.false_ne_true, ht] at htable hbehind'
    rw [ptr_add_PAGE_SIZE] at hbehind'
    have hlow : FrameInWindow m (ptr (d * 4096)) := frameInWindow_of_lt hd
    have hstored : (m.flatNewTable (m.directoryEntry virt)).stored =
        inPlace (entryAddresses (m.directoryEntry virt) ++
          memsetAddresses (PHYS_2_VIRT (m.getFreePhysicalPage 1).1) sizeofPageTable) ++ m.stored := rfl
    refine ⟨_, hstored, fun x hx => ?_⟩
    rw [inPlace, List.map_append, List.mem_append] at hx
    rcases hx with hx | hx
    · exact storedThroughWindow_entry hx (directoryEntry_eq h.paged.dir_eq) (by omega) (by omega) hlow
    · obtain ⟨a, ha, rfl⟩ := List.mem_map.mp hx
      rw [ht] at ha
      obtain ⟨i, hi, rfl⟩ := mem_memsetAddresses.mp ha
      have hi' : i < 4096 := hi
      -- The last of the bytes is the first one of the next frame.
      have hplace : (VIRT_2_PHYS (PHYS_2_VIRT (ptr (t * 4096)) + ((i + 1 : ℕ) : U32))).toNat = t * 4096 + (i + 1) := by
        rw [VIRT_2_PHYS_add, VIRT_2_PHYS_PHYS_2_VIRT, ptr_add_cast, toNat_ptr_of_lt (by omega)]
      by_cases hlast : i + 1 < 4096
      · exact storedThroughWindow_of_frame htable (by omega) (by omega)
      · exact storedThroughWindow_of_frame hbehind' (by omega) (by omega)

/-- With its tables in the window, `mapPage` edits them through the window. -/
theorem WindowKept.editsThroughWindow (h : WindowKept m d) (hd : d < 1024) {op : VmmOp} (hwin : TableInWindow m op) :
    EditsThroughWindow m op := by
  cases op with
  | getFreePhysicalPage size => trivial
  | mapPage phys virt =>
    obtain ⟨hin, hapart⟩ := h.tablesInPlace hd hwin
    obtain ⟨hensure, -, htable⟩ := h.paged.ensureTable_inPlace hin hapart
    obtain ⟨stores, hstores, hall⟩ := h.stored_flatEnsureTable hd hwin
    obtain ⟨h₁, -⟩ := h.paged.flatEnsureTable virt
    have hT := @tableFrame_lt (m.flatEnsureTable virt) d (dirIndex virt)
    have hj := tableIndex_lt virt
    have htableWin := hwin.1
    rw [editedTable_of_paged h.paged] at htableWin
    have hstored : (m.flatMapPage phys virt).stored = _ := flatMapPage_stored h₁.dir_eq
    rw [hstores, ← List.append_assoc] at hstored
    refine ⟨hin.table, ⟨_, hensure, htable⟩, _, _, h.paged.mapPage_inPlace hin hapart phys, hstored, fun x hx => ?_⟩
    rcases List.mem_append.mp hx with hx | hx
    · exact storedThroughWindow_entry hx (VIRT_2_PHYS_PHYS_2_VIRT _) (by omega) hT htableWin
    · exact hall x hx

/-- In a run that stays outside the kernel's part of the address space, page tables are edited through the window as
    long as each of them is where the window leads. -/
theorem tables_edited_through_window {s : PMM} {entries : List MmapEntry} {ram : Ram} {dir : U32} {ops : List VmmOp}
    {m₀ : MemoryManager} (hboot : Booted s entries ram dir m₀)
    (hrun : Run (fun m op m' => m.exec op = some m' ∧ OutsideKernel op ∧ TableInWindow m op) m₀ ops m) {op : VmmOp}
    (hwin : TableInWindow m op) : EditsThroughWindow m op := by
  obtain ⟨d, p, h0, hd⟩ := hboot.heapMapped
  exact (h0.windowKept.run hd hrun).editsThroughWindow hd hwin

/-- On the PC with 16 MiB the next page table lies below 4 MiB. -/
theorem smallPc_edits_through_window : ∃ m₀,
    Booted ⟨MB 16, 0, 0, { byte := fun _ => 0 }⟩ smallPc { byte := fun _ => 0 } 0 m₀ ∧
      EditsThroughWindow m₀ (.mapPage 0 0x40000000) := by
  obtain ⟨m₀, hboot, q, hq, hq', hfree⟩ := booted_smallPc { byte := fun _ => 0 } { byte := fun _ => 0 } 0
  obtain ⟨d, p, h, -⟩ := hboot.heapMapped
  have habs := h.absent (dirIndex 0x40000000) (by decide) (by decide) (by decide) (by decide)
  exact ⟨m₀, hboot, tables_edited_through_window hboot .nil
    (hfree.tableInWindow h.paged hboot.granted (by omega) (by omega) habs 0)⟩

/-- A page table in a frame from 8 MiB to 12 MiB is edited through a page that has no table itself. -/
theorem not_editsThroughWindow {q top : ℕ} (h : Paged m d)
    (habs : ∀ i, 0 < i → i < 1024 → i ≠ 768 → i ≠ 769 → present (dirEntry m d i) = false)
    (hfree : FreeFrom m.pmm q top) (hg : AllGranted m) (htop : q < top) (hq : 2048 ≤ q) (hq' : q < 3072)
    (hvirt : present (dirEntry m d (dirIndex virt)) = false) :
    ¬ EditsThroughWindow m (.mapPage phys virt) := by
  have htable := (hfree.newTable h hg htop hvirt phys).1
  have hidx : dirIndex (PHYS_2_VIRT (ptr (q * 4096))) = 770 := by
    rw [dirIndex, toNat_PHYS_2_VIRT, toNat_ptr_of_lt (by omega)]
    omega
  have hwalk : m.walk (PHYS_2_VIRT (ptr (q * 4096))) = none := by
    rw [walk_eq_entries h.dir_eq, hidx, habs 770 (by omega) (by omega) (by omega) (by omega)]
    rfl
  rintro ⟨hsome, -⟩
  rw [PageInPlace, htable, hwalk] at hsome
  cases hsome

/-- On the PC with 16 MiB, a program first takes 1600 frames. Its next page table lies above 8 MiB, where the window
    does not lead. -/
theorem smallPc_edits_outside_window : ∃ m₀ m,
    Booted ⟨MB 16, 0, 0, { byte := fun _ => 0 }⟩ smallPc { byte := fun _ => 0 } 0 m₀ ∧
      Run (fun m op m' => m.exec op = some m' ∧ OutsideKernel op) m₀ [.getFreePhysicalPage 1600] m ∧
        OutsideKernel (.mapPage 0 0x40000000) ∧ ¬ EditsThroughWindow m (.mapPage 0 0x40000000) := by
  obtain ⟨m₀, hboot, q, hq, hq', hfree⟩ := booted_smallPc { byte := fun _ => 0 } { byte := fun _ => 0 } 0
  obtain ⟨d, p, h, -⟩ := hboot.heapMapped
  have hsize : (1600 : U32).toNat = 1600 := rfl
  obtain ⟨-, hg, hfree'⟩ := hfree.getFreePhysicalPages 1600 hboot.granted (by omega) (by omega)
  refine ⟨m₀, _, hboot, .snoc _ .nil ⟨rfl, trivial⟩, Or.inl (by decide), ?_⟩
  exact not_editsThroughWindow (h.paged.getFreePhysicalPage 1600) h.absent hfree' hg (by omega) (by omega) (by omega)
    (h.absent _ (by decide) (by decide) (by decide) (by decide))

end Window

end Pros
